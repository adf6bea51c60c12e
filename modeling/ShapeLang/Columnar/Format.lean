import ShapeLang.Lib.Bytes

/-!
# The binary columnar format: builder and reader

Plugins hand data to the runtime as one byte buffer: a 16-byte header, a 20-byte descriptor for each
column, the column names with a null byte after each, padding, and the data section with every
column aligned to 32 bytes. `BinaryDataBuilder.build` writes it, `readBinaryToDatatable` reads it.

`usize` is a natural number, `f64` is its bit pattern and the narrowing casts are `UIntN.ofNat`. An index
outside a buffer, which ends the call, is `Fault.outOfBounds`.
-/

namespace ShapeLang.Columnar

open ShapeLang.Lib ShapeLang.Lib.Bytes

/-! ## Header, descriptors and errors -/

def BINARY_MAGIC : UInt32 := 0x494D414C

def BINARY_FORMAT_VERSION : UInt8 := 1

def DATA_ALIGNMENT : Nat := 32

inductive BinaryFormatError where
  | invalidMagic (magic : UInt32)
  | unsupportedVersion (version : UInt8)
  | insufficientData (expected actual : Nat)
  | invalidColumnType (code : UInt8)
  | columnNameNotFound (offset : UInt16)
  | invalidUtf8
  deriving DecidableEq

/-- Eight upper-case hexadecimal digits. -/
def hex8 (n : UInt32) : String :=
  let digits := (Nat.toDigits 16 n.toNat).map Char.toUpper
  String.ofList (List.replicate (8 - digits.length) '0' ++ digits)

def BinaryFormatError.display : BinaryFormatError → String
  | .invalidMagic m => "Invalid magic number: 0x" ++ hex8 m
  | .unsupportedVersion v => "Unsupported binary format version: " ++ toString v
  | .insufficientData expected actual =>
      "Insufficient data: expected " ++ toString expected ++ " bytes, got " ++ toString actual
  | .invalidColumnType t => "Invalid column type: " ++ toString t
  | .columnNameNotFound offset => "Column name not found at offset " ++ toString offset
  | .invalidUtf8 => "Invalid UTF-8 string encoding"

/-- How a call fails: with an error value, or by indexing outside a buffer. -/
inductive Fault (ε : Type) where
  | error (e : ε)
  | outOfBounds
  deriving DecidableEq

def inBounds {ε α : Type} : Option α → Except (Fault ε) α
  | some a => .ok a
  | none => .error .outOfBounds

structure BinaryDataHeader where
  magic : UInt32
  version : UInt8
  flags : UInt8
  columnCount : UInt16
  rowCount : UInt64
  deriving DecidableEq

namespace BinaryDataHeader

def SIZE : Nat := 16

def new (columnCount : UInt16) (rowCount : UInt64) (hasTimestamps isSorted : Bool) : BinaryDataHeader :=
  let flags : UInt8 := if hasTimestamps then 0x01 else 0
  let flags : UInt8 := if isSorted then flags ||| 0x02 else flags
  { magic := BINARY_MAGIC, version := BINARY_FORMAT_VERSION, flags, columnCount, rowCount }

def validate (h : BinaryDataHeader) : Except BinaryFormatError Unit :=
  if h.magic ≠ BINARY_MAGIC then .error (.invalidMagic h.magic)
  else if h.version ≠ BINARY_FORMAT_VERSION then .error (.unsupportedVersion h.version)
  else .ok ()

def toBytes (h : BinaryDataHeader) : Bytes :=
  le 4 h.magic.toNat ++ (le 1 h.version.toNat ++ (le 1 h.flags.toNat ++
    (le 2 h.columnCount.toNat ++ le 8 h.rowCount.toNat)))

def fromBytes (data : Bytes) : Except BinaryFormatError BinaryDataHeader :=
  if data.length < SIZE then .error (.insufficientData SIZE data.length)
  else
    let header : BinaryDataHeader :=
      { magic := .ofNat (field data 0 4)
        version := .ofNat (field data 4 1)
        flags := .ofNat (field data 5 1)
        columnCount := .ofNat (field data 6 2)
        rowCount := .ofNat (field data 8 8) }
    header.validate.map fun _ => header

end BinaryDataHeader

inductive ColumnType where
  | float64 | int64 | string | bool | timestamp
  deriving DecidableEq

def ColumnType.toU8 : ColumnType → UInt8
  | .float64 => 0
  | .int64 => 1
  | .string => 2
  | .bool => 3
  | .timestamp => 4

def ColumnType.fromU8 : UInt8 → Option ColumnType
  | 0 => some .float64
  | 1 => some .int64
  | 2 => some .string
  | 3 => some .bool
  | 4 => some .timestamp
  | _ => none

structure ColumnDescriptor where
  nameOffset : UInt16
  dataType : UInt8
  flags : UInt8
  dataOffset : UInt64
  dataLen : UInt64
  deriving DecidableEq

namespace ColumnDescriptor

def SIZE : Nat := 20

def new (nameOffset : UInt16) (dataType : ColumnType) (dataOffset dataLen : UInt64) (nullable : Bool) :
    ColumnDescriptor :=
  { nameOffset, dataType := dataType.toU8, flags := if nullable then 0x01 else 0, dataOffset, dataLen }

def columnType (d : ColumnDescriptor) : Option ColumnType :=
  ColumnType.fromU8 d.dataType

def isNullable (d : ColumnDescriptor) : Bool :=
  d.flags &&& 0x01 != 0

def toBytes (d : ColumnDescriptor) : Bytes :=
  le 2 d.nameOffset.toNat ++ (le 1 d.dataType.toNat ++ (le 1 d.flags.toNat ++
    (le 8 d.dataOffset.toNat ++ le 8 d.dataLen.toNat)))

/-- The struct read from the front of `data`. -/
def read (data : Bytes) : ColumnDescriptor :=
  { nameOffset := .ofNat (field data 0 2)
    dataType := .ofNat (field data 2 1)
    flags := .ofNat (field data 3 1)
    dataOffset := .ofNat (field data 4 8)
    dataLen := .ofNat (field data 12 8) }

end ColumnDescriptor

structure StringEntry where
  offset : UInt32
  length : UInt32
  deriving DecidableEq

namespace StringEntry

def SIZE : Nat := 8

def toBytes (e : StringEntry) : Bytes :=
  le 4 e.offset.toNat ++ le 4 e.length.toNat

def read (data : Bytes) : StringEntry :=
  { offset := .ofNat (field data 0 4), length := .ofNat (field data 4 4) }

end StringEntry

def alignPadding (offset alignment : Nat) : Nat :=
  let remainder := offset % alignment
  if remainder = 0 then 0 else alignment - remainder

def alignUp (offset alignment : Nat) : Nat :=
  offset + alignPadding offset alignment

def asBytes (s : String) : Bytes :=
  s.toByteArray.data.toList

def fromUtf8 (bytes : Bytes) : Option String :=
  String.fromUTF8? ⟨bytes.toArray⟩

/-! ## The builder -/

inductive ColumnData where
  | float64 (values : List UInt64)
  | int64 (values : List Int64)
  | string (values : List String)
  | bool (values : List Bool)
  | timestamp (values : List Int64)
  deriving DecidableEq

namespace ColumnData

def len : ColumnData → Nat
  | .float64 v => v.length
  | .int64 v => v.length
  | .string v => v.length
  | .bool v => v.length
  | .timestamp v => v.length

def columnType : ColumnData → ColumnType
  | .float64 _ => .float64
  | .int64 _ => .int64
  | .string _ => .string
  | .bool _ => .bool
  | .timestamp _ => .timestamp

/-- `col_size`, and again `data_len`. -/
def size : ColumnData → Nat
  | .float64 v => v.length * 8
  | .timestamp v => v.length * 8
  | .int64 v => v.length * 8
  | .string v => v.length * StringEntry.SIZE + (v.map fun s => (asBytes s).length).sum
  | .bool v => v.length

end ColumnData

structure BinaryDataBuilder where
  columns : List (String × ColumnData)
  hasTimestamps : Bool
  isSorted : Bool
  deriving DecidableEq

namespace BinaryDataBuilder

def new : BinaryDataBuilder :=
  { columns := [], hasTimestamps := false, isSorted := false }

def addTimestamps (b : BinaryDataBuilder) (values : List Int64) : BinaryDataBuilder :=
  { b with columns := ("timestamp", .timestamp values) :: b.columns, hasTimestamps := true }

def setSorted (b : BinaryDataBuilder) (sorted : Bool) : BinaryDataBuilder :=
  { b with isSorted := sorted }

def addColumn (b : BinaryDataBuilder) (name : String) (column : ColumnData) : BinaryDataBuilder :=
  { b with columns := b.columns ++ [(name, column)] }

def addF64Column (b : BinaryDataBuilder) (name : String) (values : List UInt64) : BinaryDataBuilder :=
  b.addColumn name (.float64 values)

def addI64Column (b : BinaryDataBuilder) (name : String) (values : List Int64) : BinaryDataBuilder :=
  b.addColumn name (.int64 values)

def addStringColumn (b : BinaryDataBuilder) (name : String) (values : List String) : BinaryDataBuilder :=
  b.addColumn name (.string values)

def addBoolColumn (b : BinaryDataBuilder) (name : String) (values : List Bool) : BinaryDataBuilder :=
  b.addColumn name (.bool values)

/-- The row count: every column is as long as the first one. -/
def validate (b : BinaryDataBuilder) : Except BinaryFormatError UInt64 :=
  match b.columns with
  | [] => .ok 0
  | (_, first) :: rest =>
      match rest.find? fun c => c.2.len ≠ first.len with
      | some c => .error (.insufficientData first.len c.2.len)
      | none => .ok (.ofNat first.len)

end BinaryDataBuilder

/-- The null-terminated column names. -/
def stringTable (names : List String) : Bytes :=
  (names.map fun name => asBytes name ++ [0]).flatten

/-- `string_table.len() as u16` before each name is added. -/
def nameOffsets : List String → Nat → List UInt16
  | [], _ => []
  | name :: rest, len => .ofNat len :: nameOffsets rest (len + (asBytes name).length + 1)

/-- The offsets of the columns in the data section, and where it ends. -/
def columnOffsets : List ColumnData → Nat → List Nat × Nat
  | [], current => ([], current)
  | col :: rest, current =>
      let offset := alignUp current DATA_ALIGNMENT
      let (offsets, total) := columnOffsets rest (offset + col.size)
      (offset :: offsets, total)

-- `pool_offset` is a wrapping u32.
def stringEntries : List String → UInt32 → List StringEntry
  | [], _ => []
  | s :: rest, poolOffset =>
      let length := UInt32.ofNat (asBytes s).length
      { offset := poolOffset, length } :: stringEntries rest (poolOffset + length)

def wordBytes (word : UInt64) : Bytes :=
  le 8 word.toNat

def writeColumn (buffer : Bytes) (offset : Nat) : ColumnData → Option Bytes
  | .float64 v => overwrite buffer offset (v.map wordBytes).flatten
  | .int64 v => overwrite buffer offset (v.map fun x => wordBytes x.toUInt64).flatten
  | .timestamp v => overwrite buffer offset (v.map fun x => wordBytes x.toUInt64).flatten
  | .string v => do
      let buffer ← overwriteAll ((stringEntries v 0).map StringEntry.toBytes) offset buffer
      overwriteAll (v.map asBytes) (offset + v.length * StringEntry.SIZE) buffer
  | .bool v => overwriteAll (v.map fun b => [if b then 1 else 0]) offset buffer

def writeColumns (dataSectionStart : Nat) : List (ColumnData × Nat) → Bytes → Option Bytes
  | [], buffer => some buffer
  | (col, offset) :: rest, buffer => do
      let buffer ← writeColumn buffer (dataSectionStart + offset) col
      writeColumns dataSectionStart rest buffer

/-- The descriptor of a column: its data offset counts from the start of the data section. -/
def descriptorOf (col : ColumnData) (nameOffset : UInt16) (dataOffset : Nat) : ColumnDescriptor :=
  .new nameOffset col.columnType (.ofNat dataOffset) (.ofNat col.size) false

def BinaryDataBuilder.build (b : BinaryDataBuilder) : Except (Fault BinaryFormatError) Bytes := do
  let rowCount ← b.validate.mapError Fault.error
  let columnCount := UInt16.ofNat b.columns.length
  let names := b.columns.map Prod.fst
  let columns := b.columns.map Prod.snd
  let descriptorsSize := columnCount.toNat * ColumnDescriptor.SIZE
  let table := stringTable names
  let metadataSize := BinaryDataHeader.SIZE + descriptorsSize + table.length
  let dataSectionStart := alignUp metadataSize DATA_ALIGNMENT
  let offsets := columnOffsets columns 0
  let buffer := zeros (dataSectionStart + offsets.2)
  let header := BinaryDataHeader.new columnCount rowCount b.hasTimestamps b.isSorted
  let buffer ← inBounds (overwrite buffer 0 header.toBytes)
  let descriptors := List.zipWith (fun col at' => descriptorOf col at'.1 at'.2) columns
    ((nameOffsets names 0).zip offsets.1)
  let buffer ← inBounds
      (overwriteAll (descriptors.map ColumnDescriptor.toBytes) BinaryDataHeader.SIZE buffer)
  let descOffset := BinaryDataHeader.SIZE + columns.length * ColumnDescriptor.SIZE
  let buffer ← inBounds (overwrite buffer descOffset table)
  inBounds (writeColumns dataSectionStart (columns.zip offsets.1) buffer)

/-! ## The reader -/

inductive DataType where
  | float64 | int64 | utf8 | boolean | timestampMicrosecond
  deriving DecidableEq

structure Field where
  name : String
  dataType : DataType
  nullable : Bool
  deriving DecidableEq

/-- An Arrow array without nulls: what `From<Vec<_>>` makes. -/
inductive ArrayRef where
  | float64 (values : List UInt64)
  | int64 (values : List Int64)
  | utf8 (values : List String)
  | boolean (values : List Bool)
  | timestampMicrosecond (values : List Int64)
  deriving DecidableEq

namespace ArrayRef

def dataType : ArrayRef → DataType
  | .float64 _ => .float64
  | .int64 _ => .int64
  | .utf8 _ => .utf8
  | .boolean _ => .boolean
  | .timestampMicrosecond _ => .timestampMicrosecond

def len : ArrayRef → Nat
  | .float64 v => v.length
  | .int64 v => v.length
  | .utf8 v => v.length
  | .boolean v => v.length
  | .timestampMicrosecond v => v.length

end ArrayRef

/-- A `DataTable` is its Arrow record batch. -/
structure DataTable where
  schema : List Field
  columns : List ArrayRef
  deriving DecidableEq

structure ShapeError where
  message : String
  deriving DecidableEq

def formatError (e : BinaryFormatError) : Fault ShapeError :=
  .error { message := "Binary format error: " ++ e.display }

def insufficientData {α : Type} (expected actual : Nat) : Except (Fault ShapeError) α :=
  .error (formatError (.insufficientData expected actual))

def decodeUtf8 (bytes : Bytes) : Except (Fault ShapeError) String :=
  match fromUtf8 bytes with
  | some s => .ok s
  | none => .error (formatError .invalidUtf8)

/-- `count` little-endian words from the front of `data`. -/
def readWordColumn {α : Type} (fromBits : UInt64 → α) (data : Bytes) (count : Nat) :
    Except (Fault ShapeError) (List α) :=
  if data.length < count * 8 then insufficientData (count * 8) data.length
  else .ok ((List.range count).map fun i => fromBits (.ofNat (field data (i * 8) 8)))

def readF64Column : Bytes → Nat → Except (Fault ShapeError) (List UInt64) :=
  readWordColumn id

def readI64Column : Bytes → Nat → Except (Fault ShapeError) (List Int64) :=
  readWordColumn UInt64.toInt64

def readStringColumn (data : Bytes) (count : Nat) : Except (Fault ShapeError) (List String) :=
  let entriesSize := count * StringEntry.SIZE
  if data.length < entriesSize then insufficientData entriesSize data.length
  else
    let pool := data.drop entriesSize
    (List.range count).mapM fun i =>
      let entry := StringEntry.read (data.drop (i * StringEntry.SIZE))
      let strStart := entry.offset.toNat
      let strEnd := strStart + entry.length.toNat
      if pool.length < strEnd then insufficientData strEnd pool.length
      else decodeUtf8 ((pool.drop strStart).take (strEnd - strStart))

def readBoolColumn (data : Bytes) (count : Nat) : Except (Fault ShapeError) (List Bool) :=
  if data.length < count then insufficientData count data.length
  else .ok ((data.take count).map fun b => b != 0)

def readDescriptors (data : Bytes) (columnCount : Nat) : List ColumnDescriptor :=
  (List.range columnCount).map fun i =>
    ColumnDescriptor.read (data.drop (BinaryDataHeader.SIZE + i * ColumnDescriptor.SIZE))

def readName (data : Bytes) (stringTableStart : Nat) (desc : ColumnDescriptor) :
    Except (Fault ShapeError) String := do
  let absOff := stringTableStart + desc.nameOffset.toNat
  let tail ← inBounds (slice data absOff data.length)
  match tail.findIdx? fun b => b == 0 with
  | some stop => decodeUtf8 (tail.take stop)
  | none => .error (formatError (.columnNameNotFound desc.nameOffset))

def readArray (colData : Bytes) (rowCount : Nat) : ColumnType → Except (Fault ShapeError) ArrayRef
  | .float64 => (readF64Column colData rowCount).map ArrayRef.float64
  | .int64 => (readI64Column colData rowCount).map ArrayRef.int64
  | .string => (readStringColumn colData rowCount).map ArrayRef.utf8
  | .bool => (readBoolColumn colData rowCount).map ArrayRef.boolean
  | .timestamp => (readI64Column colData rowCount).map ArrayRef.timestampMicrosecond

def readColumn (data : Bytes) (rowCount : Nat) (desc : ColumnDescriptor) (name : String) :
    Except (Fault ShapeError) (Field × ArrayRef) :=
  match desc.columnType with
  | none => .error (formatError (.invalidColumnType desc.dataType))
  | some colType => do
      let dataOffset := desc.dataOffset.toNat
      let dataLen := desc.dataLen.toNat
      -- the descriptor's offset is taken from the start of the buffer
      let colData ← inBounds (slice data dataOffset (dataOffset + dataLen))
      let array ← readArray colData rowCount colType
      .ok ({ name, dataType := array.dataType, nullable := desc.isNullable }, array)

/-- `tryNew` is Arrow's `RecordBatch::try_new`, with its error as text. -/
def readBinaryToDatatable (tryNew : List Field → List ArrayRef → Except String DataTable) (data : Bytes) :
    Except (Fault ShapeError) DataTable := do
  let header ← (BinaryDataHeader.fromBytes data).mapError formatError
  let columnCount := header.columnCount.toNat
  let rowCount := header.rowCount.toNat
  let descEnd := BinaryDataHeader.SIZE + columnCount * ColumnDescriptor.SIZE
  if data.length < descEnd then insufficientData descEnd data.length
  else
    let descriptors := readDescriptors data columnCount
    let names ← descriptors.mapM (readName data descEnd)
    let columns ← (descriptors.zip names).mapM fun d => readColumn data rowCount d.1 d.2
    (tryNew (columns.map Prod.fst) (columns.map Prod.snd)).mapError fun e =>
      .error { message := "Failed to build DataTable: " ++ e }

end ShapeLang.Columnar
