import ShapeLang.Lib.Trap

/-!
# The wire format of function blobs

`crates/shape-runtime/src/blob_wire_format.rs`: a 50-byte header, a table with an 18-byte entry for
each section, and the sections. The encoder writes eight sections in a fixed order; the decoder
takes the first entry of each type, wherever its offset leads. The hash in the header is over
everything behind the header.

MessagePack and SHA-256 come from crates and are parameters. Everything is as on a 64-bit machine,
where `u64` and `usize` are the same; a slice outside the data and an addition that overflows are
traps.
-/

namespace ShapeLang.BlobWire

open Lib Lib.Bytes

/-! ## Data -/

def WIRE_FORMAT_VERSION : Nat := 1

/-- "SHBL". -/
def BLOB_MAGIC : Bytes := [0x53, 0x48, 0x42, 0x4C]

def HEADER_SIZE : Nat := 50

def SECTION_ENTRY_SIZE : Nat := 18

inductive WireFormatError where
  | invalidMagic
  | unsupportedVersion (version : Nat)
  | hashMismatch
  | tooShort (needed got : Nat)
  | sectionOutOfBounds (offset length total : Nat)
  | unknownSectionType (code : Nat)
  | missingSection (label : String)
  | msgpackDecode (message : String)
  deriving DecidableEq

inductive SectionType where
  | metadata | instructions | constants | strings | dependencies | typeSchemas | sourceMap | permissions
  deriving DecidableEq

namespace SectionType

def code : SectionType → Nat
  | .metadata => 1
  | .instructions => 2
  | .constants => 3
  | .strings => 4
  | .dependencies => 5
  | .typeSchemas => 6
  | .sourceMap => 7
  | .permissions => 8

def fromU16 : Nat → Option SectionType
  | 1 => some .metadata
  | 2 => some .instructions
  | 3 => some .constants
  | 4 => some .strings
  | 5 => some .dependencies
  | 6 => some .typeSchemas
  | 7 => some .sourceMap
  | 8 => some .permissions
  | _ => none

/-- The name that a missing section is reported under. -/
def label : SectionType → String
  | .metadata => "Metadata"
  | .instructions => "Instructions"
  | .constants => "Constants"
  | .strings => "Strings"
  | .dependencies => "Dependencies"
  | .typeSchemas => "TypeSchemas"
  | .sourceMap => "SourceMap"
  | .permissions => "Permissions"

/-- The order in which sections are written, and in which they are read. -/
def all : List SectionType :=
  [.metadata, .instructions, .constants, .strings, .dependencies, .typeSchemas, .sourceMap, .permissions]

end SectionType

structure BlobMetadata where
  name : String
  arity : UInt16
  localsCount : UInt16
  isAsync : Bool
  isClosure : Bool
  capturesCount : UInt16
  paramNames : List String
  refParams : List Bool
  refMutates : List Bool
  mutableCaptures : List Bool
  deriving DecidableEq

abbrev SourceMap := List (Nat × UInt32 × UInt32)

/-- The decoders of `rmp_serde` that are used, with their errors as text. -/
structure Msgpack where
  metadata : Bytes → Except String BlobMetadata
  strings : Bytes → Except String (List String)
  sourceMap : Bytes → Except String SourceMap

structure EncodableBlob where
  metadataBytes : Bytes
  instructionsBytes : Bytes
  constantsBytes : Bytes
  stringsBytes : Bytes
  dependenciesBytes : Bytes
  typeSchemasBytes : Bytes
  sourceMapBytes : Bytes
  permissionsBytes : Bytes

structure DecodedBlob where
  contentHash : Bytes
  metadata : BlobMetadata
  instructionsBytes : Bytes
  constantsBytes : Bytes
  strings : List String
  dependencies : List Bytes
  typeSchemas : List String
  sourceMap : SourceMap
  permissions : List String
  deriving DecidableEq

/-! ## The encoder -/

namespace EncodableBlob

def payload (blob : EncodableBlob) : SectionType → Bytes
  | .metadata => blob.metadataBytes
  | .instructions => blob.instructionsBytes
  | .constants => blob.constantsBytes
  | .strings => blob.stringsBytes
  | .dependencies => blob.dependenciesBytes
  | .typeSchemas => blob.typeSchemasBytes
  | .sourceMap => blob.sourceMapBytes
  | .permissions => blob.permissionsBytes

def sections (blob : EncodableBlob) : List (SectionType × Bytes) :=
  SectionType.all.map fun type => (type, blob.payload type)

end EncodableBlob

structure BlobSectionEntry where
  sectionType : SectionType
  offset : Nat
  length : Nat
  deriving DecidableEq

/-- The entries of the table, the first section at `offset`. -/
def sectionEntries : List (SectionType × Bytes) → Nat → List BlobSectionEntry
  | [], _ => []
  | (type, payload) :: rest, offset =>
    { sectionType := type, offset, length := payload.length } :: sectionEntries rest
    (offset + payload.length)

def BlobSectionEntry.toBytes (entry : BlobSectionEntry) : Bytes :=
  le 2 entry.sectionType.code ++ (le 8 entry.offset ++ le 8 entry.length)

/-- What the content hash is taken over. -/
def encodeBody (blob : EncodableBlob) : Bytes :=
  let dataStart := HEADER_SIZE + blob.sections.length * SECTION_ENTRY_SIZE
  ((sectionEntries blob.sections dataStart).map BlobSectionEntry.toBytes).flatten ++
    (blob.sections.map Prod.snd).flatten

def encodeToBytes (sha256 : Bytes → Bytes) (blob : EncodableBlob) : Bytes :=
  let dataStart := HEADER_SIZE + blob.sections.length * SECTION_ENTRY_SIZE
  let totalSize := dataStart + (blob.sections.map fun part => part.2.length).sum
  BLOB_MAGIC ++ (le 4 WIRE_FORMAT_VERSION ++ (sha256 (encodeBody blob) ++ (le 8 totalSize ++
    (le 2 blob.sections.length ++ encodeBody blob))))

/-! ## The decoder -/

abbrev Call (α : Type) := Except (Trap WireFormatError) α

/-- `from_le_bytes` of a slice. -/
def readLe (data : Bytes) (start width : Nat) : Call Nat := (Trap.slice data start (start + width)).map ofLe

def readEntry (data : Bytes) (totalSize i : Nat) : Call BlobSectionEntry := do
  let offset := HEADER_SIZE + i * SECTION_ENTRY_SIZE
  let code ← readLe data offset 2
  let secOffset ← readLe data (offset + 2) 8
  let secLength ← readLe data (offset + 10) 8
  match SectionType.fromU16 code with
  | none => .error (.error (.unknownSectionType code))
  | some sectionType =>
    let stop ← Trap.add secOffset secLength
    if stop > totalSize then .error (.error (.sectionOutOfBounds secOffset secLength totalSize))
    else .ok { sectionType, offset := secOffset, length := secLength }

def getSection (data : Bytes) (sections : List BlobSectionEntry) (type : SectionType) :
    Call (Option Bytes) :=
  match sections.find? fun entry => entry.sectionType = type with
  | none => .ok none
  | some entry => do
    let stop ← Trap.add entry.offset entry.length
    let bytes ← Trap.slice data entry.offset stop
    .ok (some bytes)

def requireSection (data : Bytes) (sections : List BlobSectionEntry) (type : SectionType) : Call Bytes := do
  match ← getSection data sections type with
  | some bytes => .ok bytes
  | none => .error (.error (.missingSection type.label))

/-- `map_err(|e| MsgpackDecode(e.to_string()))`. -/
def fromMsgpack {α : Type} (decoded : Except String α) : Call α :=
  decoded.mapError fun e => .error (.msgpackDecode e)

/-- `chunks_exact(size)`, over as many chunks as there are. -/
def chunks (size : Nat) : Nat → Bytes → List Bytes
  | 0, _ => []
  | count + 1, bytes => bytes.take size :: chunks size count (bytes.drop size)

def readDependencies (bytes : Bytes) : Call (List Bytes) :=
  if bytes.length % 32 ≠ 0 then
    .error (.error (.msgpackDecode "dependency section length not a multiple of 32"))
  else .ok (chunks 32 (bytes.length / 32) bytes)

/-- The sections in turn, each one taken by `require`. -/
def decodeSections (msgpack : Msgpack) (contentHash : Bytes) (require : SectionType → Call Bytes) :
    Call DecodedBlob := do
  let metadata ← require .metadata >>= fun bytes => fromMsgpack (msgpack.metadata bytes)
  let instructionsBytes ← require .instructions
  let constantsBytes ← require .constants
  let strings ← require .strings >>= fun bytes => fromMsgpack (msgpack.strings bytes)
  let dependencies ← require .dependencies >>= readDependencies
  let typeSchemas ← require .typeSchemas >>= fun bytes => fromMsgpack (msgpack.strings bytes)
  let sourceMap ← require .sourceMap >>= fun bytes => fromMsgpack (msgpack.sourceMap bytes)
  let permissions ← require .permissions >>= fun bytes => fromMsgpack (msgpack.strings bytes)
  .ok
    { contentHash, metadata, instructionsBytes, constantsBytes, strings, dependencies, typeSchemas,
      sourceMap,
      permissions }

/-- The checks that the decoder and `validate_blob` start with. -/
def checkPreamble (data : Bytes) : Call Unit := do
  if data.length < HEADER_SIZE then .error (.error (.tooShort HEADER_SIZE data.length))
  else
    let magic ← Trap.slice data 0 4
    if magic ≠ BLOB_MAGIC then .error (.error .invalidMagic)
    else
      let version ← readLe data 4 4
      if version ≠ WIRE_FORMAT_VERSION then .error (.error (.unsupportedVersion version)) else .ok ()

def decodeFromBytes (msgpack : Msgpack) (data : Bytes) : Call DecodedBlob := do
  checkPreamble data
  let contentHash ← Trap.slice data 8 40
  let totalSize ← readLe data 40 8
  let sectionCount ← readLe data 48 2
  let needed := HEADER_SIZE + sectionCount * SECTION_ENTRY_SIZE
  if data.length < needed then .error (.error (.tooShort needed data.length))
  else
    let sections ← (List.range sectionCount).mapM (readEntry data totalSize)
    decodeSections msgpack contentHash (requireSection data sections)

def validateBlob (sha256 : Bytes → Bytes) (data : Bytes) : Call Bool := do
  checkPreamble data
  let storedHash ← Trap.slice data 8 40
  let body ← Trap.slice data HEADER_SIZE data.length
  if storedHash ≠ sha256 body then .error (.error .hashMismatch) else .ok true

end ShapeLang.BlobWire
