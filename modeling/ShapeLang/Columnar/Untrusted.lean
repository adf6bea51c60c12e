import ShapeLang.Lib.Trap
import ShapeLang.Columnar.RoundTrip

/-!
# The columnar reader on arbitrary bytes

The reader checks the header, the length of the descriptor table, and that a column holds its rows
and strings. The offsets in the descriptors it takes as they are: a name is searched from wherever
the descriptor says, a column is sliced from wherever it says, after an addition that can overflow,
and the number of rows is multiplied by eight before it is compared with anything.
`Checked.readBinaryToDatatable` is the reader with every index, slice and machine sum written out;
`TableInRange` says of the bytes where all of them go well.

Whatever the reader returns has been decoded from inside the bytes: `DecodedFrom` gives the place of
each value.
-/

namespace ShapeLang.Columnar

open ShapeLang.Lib ShapeLang.Lib.Bytes

/-! ## The reader with its checks -/

namespace Checked

abbrev Call (α : Type) := Except (Trap ShapeError) α

def toTrap : Fault ShapeError → Trap ShapeError
  | .error e => .error e
  | .outOfBounds => .outOfRange

/-- A part of the reader without machine arithmetic. -/
def lift {α : Type} (call : Except (Fault ShapeError) α) : Call α := call.mapError toTrap

def readWordColumn {α : Type} (fromBits : UInt64 → α) (data : Bytes) (count : Nat) : Call (List α) := do
  let expectedSize ← Trap.mul count 8
  if data.length < expectedSize then lift (insufficientData expectedSize data.length)
  else
    (List.range count).mapM fun i => do
      let offset ← Trap.mul i 8
      let word ← Trap.slice data offset (offset + 8)
      .ok (fromBits (.ofNat (ofLe word)))

def readF64Column : Bytes → Nat → Call (List UInt64) := readWordColumn id

def readI64Column : Bytes → Nat → Call (List Int64) := readWordColumn UInt64.toInt64

def readStringColumn (data : Bytes) (count : Nat) : Call (List String) := do
  let entriesSize ← Trap.mul count StringEntry.SIZE
  if data.length < entriesSize then lift (insufficientData entriesSize data.length)
  else
    let pool ← Trap.slice data entriesSize data.length
    (List.range count).mapM fun i => do
      let entryOffset ← Trap.mul i StringEntry.SIZE
      let bytes ← Trap.slice data entryOffset (entryOffset + StringEntry.SIZE)
      let entry := StringEntry.read bytes
      let strStart := entry.offset.toNat
      let strEnd ← Trap.add strStart entry.length.toNat
      if pool.length < strEnd then lift (insufficientData strEnd pool.length)
      else
        let string ← Trap.slice pool strStart strEnd
        lift (decodeUtf8 string)

def readBoolColumn (data : Bytes) (count : Nat) : Call (List Bool) :=
  if data.length < count then lift (insufficientData count data.length)
  else do
    let values ← Trap.slice data 0 count
    .ok (values.map fun b => b != 0)

def readArray (colData : Bytes) (rowCount : Nat) : ColumnType → Call ArrayRef
  | .float64 => (readF64Column colData rowCount).map ArrayRef.float64
  | .int64 => (readI64Column colData rowCount).map ArrayRef.int64
  | .string => (readStringColumn colData rowCount).map ArrayRef.utf8
  | .bool => (readBoolColumn colData rowCount).map ArrayRef.boolean
  | .timestamp => (readI64Column colData rowCount).map ArrayRef.timestampMicrosecond

-- There are at most `2 ^ 16` descriptors, so their offsets do not overflow, nor do those of the names.
def readDescriptor (data : Bytes) (i : Nat) : Call ColumnDescriptor := do
  let offset := BinaryDataHeader.SIZE + i * ColumnDescriptor.SIZE
  let bytes ← Trap.slice data offset (offset + ColumnDescriptor.SIZE)
  .ok (.read bytes)

def readName (data : Bytes) (stringTableStart : Nat) (desc : ColumnDescriptor) : Call String := do
  let absOff := stringTableStart + desc.nameOffset.toNat
  let tail ← Trap.slice data absOff data.length
  match tail.findIdx? fun b => b == 0 with
  | some stop => do
      let name ← Trap.slice data absOff (absOff + stop)
      lift (decodeUtf8 name)
  | none => lift (.error (formatError (.columnNameNotFound desc.nameOffset)))

def readColumn (data : Bytes) (rowCount : Nat) (desc : ColumnDescriptor) (name : Call String) :
    Call (Field × ArrayRef) :=
  match desc.columnType with
  | none => lift (.error (formatError (.invalidColumnType desc.dataType)))
  | some colType => do
      let dataOffset := desc.dataOffset.toNat
      let dataEnd ← Trap.add dataOffset desc.dataLen.toNat
      let colData ← Trap.slice data dataOffset dataEnd
      let name ← name
      let array ← readArray colData rowCount colType
      .ok ({ name, dataType := array.dataType, nullable := desc.isNullable }, array)

def readBinaryToDatatable (tryNew : List Field → List ArrayRef → Except String DataTable) (data : Bytes) :
    Call DataTable := do
  let header ← lift ((BinaryDataHeader.fromBytes data).mapError formatError)
  let columnCount := header.columnCount.toNat
  let rowCount := header.rowCount.toNat
  let descEnd := BinaryDataHeader.SIZE + columnCount * ColumnDescriptor.SIZE
  if data.length < descEnd then lift (insufficientData descEnd data.length)
  else do
    let descriptors ← (List.range columnCount).mapM (readDescriptor data)
    let names ← descriptors.mapM (readName data descEnd)
    let columns ← descriptors.zipIdx.mapM fun d => readColumn data rowCount d.1 (Trap.index names d.2)
    lift ((tryNew (columns.map Prod.fst) (columns.map Prod.snd)).mapError fun e =>
      .error { message := "Failed to build DataTable: " ++ e })

end Checked

/-! ## What the bytes say -/

def descriptorAt (data : Bytes) (i : Nat) : ColumnDescriptor :=
  .read (data.drop (BinaryDataHeader.SIZE + i * ColumnDescriptor.SIZE))

namespace BinaryDataHeader

def descEnd (header : BinaryDataHeader) : Nat := SIZE + header.columnCount.toNat * ColumnDescriptor.SIZE

def nameStart (header : BinaryDataHeader) (data : Bytes) (i : Nat) : Nat :=
  header.descEnd + (descriptorAt data i).nameOffset.toNat

end BinaryDataHeader

/-- A name ends before the next null byte and is UTF-8. -/
def NameReads (data : Bytes) (start : Nat) : Prop :=
  start ≤ data.length ∧ ∃ stop, ((data.drop start).findIdx? fun b => b == 0) = some stop ∧
    (fromUtf8 ((data.drop start).take stop)).isSome

def ColumnDescriptor.bytes (desc : ColumnDescriptor) (data : Bytes) : Bytes :=
  (data.drop desc.dataOffset.toNat).take desc.dataLen.toNat

/-- Where a column of this type can be read: its bytes lie inside the data, and neither their end
nor the size of the rows overflows. -/
structure ColumnInRange (data : Bytes) (rowCount : Nat) (desc : ColumnDescriptor)
    (type : ColumnType) : Prop where
  endFits : desc.dataOffset.toNat + desc.dataLen.toNat < 2 ^ 64
  inside : desc.dataOffset.toNat + desc.dataLen.toNat ≤ data.length
  rowsFit : type ≠ .bool → rowCount * 8 < 2 ^ 64

/-- The entry of a row leads into the pool behind the `count` entries, to UTF-8. -/
def StringReads (column : Bytes) (count row : Nat) : Prop :=
  let entry := StringEntry.read (column.drop (row * StringEntry.SIZE))
  let pool := column.drop (count * StringEntry.SIZE)
  entry.offset.toNat + entry.length.toNat ≤ pool.length ∧
    (fromUtf8 ((pool.drop entry.offset.toNat).take entry.length.toNat)).isSome

def ArrayReads (column : Bytes) (count : Nat) : ColumnType → Prop
  | .bool => count ≤ column.length
  | .string => count * StringEntry.SIZE ≤ column.length ∧ ∀ row < count, StringReads column count row
  | _ => count * 8 ≤ column.length

def ColumnReads (data : Bytes) (rowCount : Nat) (desc : ColumnDescriptor) : Prop :=
  ∃ type, desc.columnType = some type ∧ ColumnInRange data rowCount desc type ∧
    ArrayReads (desc.bytes data) rowCount type

/-- Up to the first error: each name that is reached starts inside the data, and each column that is
reached is in range. -/
def TableInRange (data : Bytes) : Prop :=
  ∀ header, BinaryDataHeader.fromBytes data = .ok header → header.descEnd ≤ data.length →
    (∀ i < header.columnCount.toNat, (∀ j < i, NameReads data (header.nameStart data j)) →
      header.nameStart data i ≤ data.length) ∧
    ((∀ i < header.columnCount.toNat, NameReads data (header.nameStart data i)) →
      ∀ i < header.columnCount.toNat, (∀ j < i, ColumnReads data header.rowCount.toNat
        (descriptorAt data j)) →
        ∀ type, (descriptorAt data i).columnType = some type →
          ColumnInRange data header.rowCount.toNat (descriptorAt data i) type)

/-! ## The checked reader and the plain one -/

theorem StringEntry.read_take (bytes : Bytes) : read (bytes.take SIZE) = read bytes := by
  unfold read
  rw [field_take (by decide), field_take (by decide)]

theorem ColumnDescriptor.read_take (bytes : Bytes) : read (bytes.take SIZE) = read bytes := by
  unfold read
  rw [field_take (by decide), field_take (by decide), field_take (by decide),
    field_take (by decide), field_take (by decide)]

namespace Checked

open Trap

section

variable {α β : Type} {data : Bytes} {count : Nat}

variable (call : Except (Fault ShapeError) α)

theorem lift_bind (next : α → Except (Fault ShapeError) β) :
    lift (call >>= next) = lift call >>= fun a => lift (next a) := by
  cases call <;> rfl

theorem lift_map (f : α → β) : lift (call.map f) = (lift call).map f := by
  cases call <;> rfl

theorem lift_eq_ok {call : Except (Fault ShapeError) α} {a : α} : lift call = .ok a ↔ call = .ok a :=
  Fallible.mapError_eq_ok

theorem safe_lift_iff {call : Except (Fault ShapeError) α} :
    Safe (lift call) ↔ call ≠ .error .outOfBounds := by
  cases call with
  | ok a => exact ⟨fun _ => nofun, fun _ => safe_ok a⟩
  | error fault =>
    cases fault with
    | error e => exact ⟨fun _ => nofun, fun _ => safe_error e⟩
    | outOfBounds => exact ⟨fun h => absurd rfl h.1, fun h => absurd rfl h⟩

theorem lift_mapM (f : α → Except (Fault ShapeError) β) (items : List α) :
    lift (items.mapM f) = items.mapM fun item => lift (f item) := by
  induction items with
  | nil => rfl
  | cons first items ih =>
    rw [List.mapM_cons, List.mapM_cons, lift_bind]
    refine congrArg _ (funext fun b => ?_)
    rw [lift_bind, ih]
    rfl

theorem slice_eq_lift (data : Bytes) (start stop : Nat) :
    (Trap.slice data start stop : Call Bytes) = lift (inBounds (Bytes.slice data start stop)) := by
  unfold Trap.slice Bytes.slice
  split <;> rfl

/-! ### Columns -/

theorem readWordColumn_eq (fromBits : UInt64 → α) (h : count * 8 < 2 ^ 64) :
    readWordColumn fromBits data count = lift (Columnar.readWordColumn fromBits data count) := by
  have hmul : (Trap.mul count 8 : Call Nat) = .ok (count * 8) := if_pos h
  unfold readWordColumn Columnar.readWordColumn
  rw [hmul]
  show (if _ then _ else _) = _
  split
  · rfl
  · rename_i hlong
    refine Fallible.mapM_eq_ok_map fun i hi => ?_
    have hi := List.mem_range.mp hi
    have hoffset : (Trap.mul i 8 : Call Nat) = .ok (i * 8) := if_pos (by omega)
    have hword : (Trap.slice data (i * 8) (i * 8 + 8) : Call Bytes) = .ok ((data.drop (i * 8)).take 8) :=
      slice_eq_ok.mpr ⟨by omega, by rw [Nat.add_sub_cancel_left]⟩
    rw [hoffset]
    show (Trap.slice data (i * 8) (i * 8 + 8) >>= _) = _
    rw [hword]
    rfl

theorem readStringColumn_eq (h : count * StringEntry.SIZE < 2 ^ 64) :
    readStringColumn data count = lift (Columnar.readStringColumn data count) := by
  have hmul : (Trap.mul count StringEntry.SIZE : Call Nat) = .ok (count * StringEntry.SIZE) := if_pos h
  unfold readStringColumn Columnar.readStringColumn
  rw [hmul]
  show (if _ then _ else _) = lift (if _ then _ else _)
  split
  · rfl
  · rename_i hlong
    have hpool : (Trap.slice data (count * StringEntry.SIZE) data.length : Call Bytes) =
        .ok (data.drop (count * StringEntry.SIZE)) :=
      slice_eq_ok.mpr ⟨⟨Nat.not_lt.mp hlong, Nat.le_refl _⟩, by rw [← List.length_drop, List.take_length]⟩
    rw [hpool, lift_mapM]
    show List.mapM _ _ = _
    refine Fallible.mapM_congr fun i hi => ?_
    have hi : i * StringEntry.SIZE + StringEntry.SIZE ≤ count * StringEntry.SIZE := by
      have hle := Nat.mul_le_mul_right StringEntry.SIZE (Nat.succ_le_of_lt (List.mem_range.mp hi))
      rwa [Nat.succ_mul] at hle
    have hoffset : (Trap.mul i StringEntry.SIZE : Call Nat) = .ok (i * StringEntry.SIZE) :=
      if_pos (by omega)
    have hbytes : (Trap.slice data (i * StringEntry.SIZE)
      (i * StringEntry.SIZE + StringEntry.SIZE) : Call Bytes) =
        .ok ((data.drop (i * StringEntry.SIZE)).take StringEntry.SIZE) :=
      slice_eq_ok.mpr ⟨by omega, by rw [Nat.add_sub_cancel_left]⟩
    rw [hoffset]
    show (Trap.slice data (i * StringEntry.SIZE) (i * StringEntry.SIZE + StringEntry.SIZE) >>= _) = _
    rw [hbytes]
    show ((Trap.add _ _ : Call Nat) >>= _) = _
    rw [StringEntry.read_take]
    generalize StringEntry.read (data.drop (i * StringEntry.SIZE)) = entry
    -- Two 32-bit numbers do not overflow.
    have hadd : (Trap.add entry.offset.toNat entry.length.toNat : Call Nat) =
        .ok (entry.offset.toNat + entry.length.toNat) := by
      have hoffset := entry.offset.toNat_lt
      have hlength := entry.length.toNat_lt
      exact if_pos (by omega)
    rw [hadd]
    show (if _ then _ else _) = lift (if _ then _ else _)
    split
    · rfl
    · rename_i hinside
      have hstring : (Trap.slice (data.drop (count * StringEntry.SIZE)) entry.offset.toNat
          (entry.offset.toNat + entry.length.toNat) : Call Bytes) = .ok _ :=
        slice_eq_ok.mpr ⟨⟨Nat.le_add_right _ _, Nat.not_lt.mp hinside⟩, rfl⟩
      rw [hstring]
      rfl

theorem readBoolColumn_eq (data : Bytes) (count : Nat) :
    readBoolColumn data count = lift (Columnar.readBoolColumn data count) := by
  unfold readBoolColumn Columnar.readBoolColumn
  split
  · rfl
  · rename_i hlong
    have hvalues : (Trap.slice data 0 count : Call Bytes) = .ok (data.take count) :=
      slice_eq_ok.mpr ⟨⟨Nat.zero_le _, Nat.not_lt.mp hlong⟩, rfl⟩
    rw [hvalues]
    rfl

/-- Only the size of the rows can overflow. -/
theorem readArray_eq (data : Bytes) {type : ColumnType} (h : type ≠ .bool → count * 8 < 2 ^ 64) :
    readArray data count type = lift (Columnar.readArray data count type) := by
  cases type with
  | float64 => exact (congrArg _ (readWordColumn_eq id (h nofun))).trans (lift_map _ _).symm
  | int64 => exact (congrArg _ (readWordColumn_eq _ (h nofun))).trans (lift_map _ _).symm
  | string => exact (congrArg _ (readStringColumn_eq (h nofun))).trans (lift_map _ _).symm
  | bool => exact (congrArg _ (readBoolColumn_eq data count)).trans (lift_map _ _).symm
  | timestamp => exact (congrArg _ (readWordColumn_eq _ (h nofun))).trans (lift_map _ _).symm

theorem readArray_overflow (data : Bytes) {type : ColumnType} (htype : type ≠ .bool)
    (h : ¬ count * 8 < 2 ^ 64) :
    readArray data count type = .error .overflow := by
  have hmul : (Trap.mul count 8 : Call Nat) = .error .overflow := if_neg h
  have hword : ∀ {γ : Type} (fromBits : UInt64 → γ), readWordColumn fromBits data count =
      .error .overflow := by
    intro γ fromBits
    unfold readWordColumn
    rw [hmul]
    rfl
  have hstring : readStringColumn data count = .error .overflow := by
    unfold readStringColumn
    rw [show StringEntry.SIZE = 8 from rfl, hmul]
    rfl
  cases type with
  | float64 => exact congrArg (Except.map _) (hword _)
  | int64 => exact congrArg (Except.map _) (hword _)
  | string => exact congrArg (Except.map _) hstring
  | bool => exact absurd rfl htype
  | timestamp => exact congrArg (Except.map _) (hword _)

/-! ### Descriptors and names -/

theorem readDescriptor_eq {i : Nat}
    (h : BinaryDataHeader.SIZE + i * ColumnDescriptor.SIZE + ColumnDescriptor.SIZE ≤ data.length) :
    readDescriptor data i = .ok (descriptorAt data i) := by
  unfold readDescriptor descriptorAt
  dsimp only
  rw [slice_eq_ok.mpr ⟨⟨Nat.le_add_right _ _, h⟩, rfl⟩, Nat.add_sub_cancel_left]
  exact congrArg Except.ok (ColumnDescriptor.read_take _)

theorem readName_eq (data : Bytes) (start : Nat) (desc : ColumnDescriptor) :
    readName data start desc = lift (Columnar.readName data start desc) := by
  unfold readName Columnar.readName
  dsimp only
  rw [slice_eq_lift, lift_bind]
  by_cases hstart : start + desc.nameOffset.toNat ≤ data.length
  · have hslice : Bytes.slice data (start + desc.nameOffset.toNat) data.length =
        some (data.drop (start + desc.nameOffset.toNat)) := by
      unfold Bytes.slice
      rw [if_pos ⟨hstart, Nat.le_refl _⟩, ← List.length_drop, List.take_length]
    rw [hslice]
    show (match List.findIdx? _ (data.drop _) with | some _ => _ | none => _) =
      lift (match List.findIdx? _ (data.drop _) with | some _ => _ | none => _)
    split
    · rename_i stop hstop
      have hlt := (List.findIdx?_eq_some_iff_getElem.mp hstop).1
      rw [List.length_drop] at hlt
      rw [slice_eq_ok.mpr ⟨⟨Nat.le_add_right _ stop, by omega⟩, rfl⟩, Nat.add_sub_cancel_left]
      rfl
    · rfl
  · have hslice : Bytes.slice data (start + desc.nameOffset.toNat) data.length = none :=
      if_neg fun h => hstart h.1
    rw [hslice]
    rfl

end

end Checked

/-! ## Where the plain reader gets through -/

section

variable {data : Bytes} {rowCount count start : Nat} {desc : ColumnDescriptor}

theorem decodeUtf8_eq_ok {bytes : Bytes} {s : String} :
    decodeUtf8 bytes = .ok s ↔ fromUtf8 bytes = some s := by
  unfold decodeUtf8
  split
  · rename_i decoded hdecoded
    rw [hdecoded, Except.ok.injEq, Option.some.injEq]
  · rename_i hdecoded
    rw [hdecoded]
    exact ⟨nofun, nofun⟩

theorem decodeUtf8_ne_outOfBounds (bytes : Bytes) : decodeUtf8 bytes ≠ .error .outOfBounds := by
  unfold decodeUtf8
  split
  · exact nofun
  · exact nofun

theorem readName_eq_ok {name : String} :
    readName data start desc = .ok name ↔ start + desc.nameOffset.toNat ≤ data.length ∧
      ∃ stop, ((data.drop (start + desc.nameOffset.toNat)).findIdx? fun b => b == 0) = some stop ∧
        fromUtf8 ((data.drop (start + desc.nameOffset.toNat)).take stop) = some name := by
  unfold readName Bytes.slice
  dsimp only
  by_cases hstart : start + desc.nameOffset.toNat ≤ data.length
  · rw [if_pos ⟨hstart, Nat.le_refl _⟩, ← List.length_drop, List.take_length, and_iff_right hstart]
    show (match List.findIdx? _ (data.drop _) with | some _ => _ | none => _) = _ ↔ _
    split
    · rename_i stop hstop
      rw [decodeUtf8_eq_ok]
      refine ⟨fun h => ⟨stop, hstop, h⟩, fun ⟨other, hother, h⟩ => ?_⟩
      rw [hstop] at hother
      exact Option.some.inj hother ▸ h
    · rename_i hstop
      refine ⟨nofun, fun ⟨stop, hother, _⟩ => ?_⟩
      rw [hstop] at hother
      cases hother
  · rw [if_neg fun h => hstart h.1]
    exact ⟨nofun, fun h => absurd h.1 hstart⟩

theorem exists_readName_iff :
    (∃ name, readName data start desc = .ok name) ↔ NameReads data (start + desc.nameOffset.toNat) := by
  simp only [readName_eq_ok, NameReads, Option.isSome_iff_exists]
  exact ⟨fun ⟨name, hstart, stop, hstop, hname⟩ => ⟨hstart, stop, hstop, name, hname⟩,
    fun ⟨hstart, stop, hstop, name, hname⟩ => ⟨name, hstart, stop, hstop, hname⟩⟩

theorem readName_ne_outOfBounds_iff :
    readName data start desc ≠ .error .outOfBounds ↔ start + desc.nameOffset.toNat ≤ data.length := by
  unfold readName Bytes.slice
  dsimp only
  by_cases hstart : start + desc.nameOffset.toNat ≤ data.length
  · rw [if_pos ⟨hstart, Nat.le_refl _⟩]
    refine ⟨fun _ => hstart, fun _ => ?_⟩
    show (match List.findIdx? _ _ with | some _ => _ | none => _) ≠ _
    split
    · exact decodeUtf8_ne_outOfBounds _
    · exact nofun
  · rw [if_neg fun h => hstart h.1]
    exact ⟨fun h => absurd rfl h, fun h => absurd h hstart⟩

theorem exists_readWordColumn_iff {α : Type} {fromBits : UInt64 → α} :
    (∃ values, readWordColumn fromBits data count = .ok values) ↔ count * 8 ≤ data.length := by
  unfold readWordColumn
  split
  · exact ⟨nofun, fun h => by omega⟩
  · exact ⟨fun _ => by omega, fun _ => ⟨_, rfl⟩⟩

theorem readWordColumn_ne_outOfBounds {α : Type} (fromBits : UInt64 → α) :
    readWordColumn fromBits data count ≠ .error .outOfBounds := by
  unfold readWordColumn
  split
  · exact nofun
  · exact nofun

/-- The string of one row, as `read_string_column` decodes it. -/
def readString (column : Bytes) (count row : Nat) : Except (Fault ShapeError) String :=
  let pool := column.drop (count * StringEntry.SIZE)
  let entry := StringEntry.read (column.drop (row * StringEntry.SIZE))
  let strStart := entry.offset.toNat
  let strEnd := strStart + entry.length.toNat
  if pool.length < strEnd then insufficientData strEnd pool.length
  else decodeUtf8 ((pool.drop strStart).take (strEnd - strStart))

theorem readStringColumn_eq_mapM (h : count * StringEntry.SIZE ≤ data.length) :
    readStringColumn data count = (List.range count).mapM (readString data count) :=
  if_neg (Nat.not_lt.mpr h)

theorem readString_eq_ok {row : Nat} {s : String} :
    readString data count row = .ok s ↔
      let entry := StringEntry.read (data.drop (row * StringEntry.SIZE))
      let pool := data.drop (count * StringEntry.SIZE)
      entry.offset.toNat + entry.length.toNat ≤ pool.length ∧
        fromUtf8 ((pool.drop entry.offset.toNat).take entry.length.toNat) = some s := by
  unfold readString
  dsimp only
  rw [Nat.add_sub_cancel_left]
  split
  · exact ⟨nofun, fun h => by omega⟩
  · rename_i hinside
    rw [decodeUtf8_eq_ok, and_iff_right (Nat.not_lt.mp hinside)]

theorem readString_ne_outOfBounds (row : Nat) : readString data count row ≠ .error .outOfBounds := by
  unfold readString
  dsimp only
  split
  · exact nofun
  · exact decodeUtf8_ne_outOfBounds _

theorem exists_readStringColumn_iff :
    (∃ values, readStringColumn data count = .ok values) ↔
      count * StringEntry.SIZE ≤ data.length ∧ ∀ row < count, StringReads data count row := by
  by_cases h : count * StringEntry.SIZE ≤ data.length
  · rw [readStringColumn_eq_mapM h, Fallible.exists_mapM_eq_ok, and_iff_right h]
    refine forall_congr' fun row => ?_
    rw [List.mem_range]
    refine imp_congr_right fun _ => ?_
    simp only [readString_eq_ok, StringReads, Option.isSome_iff_exists, exists_and_left]
  · refine ⟨fun ⟨values, hvalues⟩ => ?_, fun hreads => absurd hreads.1 h⟩
    unfold readStringColumn at hvalues
    rw [if_pos (Nat.not_le.mp h)] at hvalues
    cases hvalues

theorem readStringColumn_ne_outOfBounds : readStringColumn data count ≠ .error .outOfBounds := by
  by_cases h : count * StringEntry.SIZE ≤ data.length
  · rw [readStringColumn_eq_mapM h]
    intro hfault
    obtain ⟨row, -, hrow⟩ := Fallible.mapM_eq_error hfault
    exact readString_ne_outOfBounds row hrow
  · unfold readStringColumn
    rw [if_pos (Nat.not_le.mp h)]
    exact nofun

theorem exists_readArray_iff {type : ColumnType} :
    (∃ array, readArray data count type = .ok array) ↔ ArrayReads data count type := by
  cases type with
  | float64 => exact (Fallible.exists_map_eq_ok _).trans exists_readWordColumn_iff
  | int64 => exact (Fallible.exists_map_eq_ok _).trans exists_readWordColumn_iff
  | string => exact (Fallible.exists_map_eq_ok _).trans exists_readStringColumn_iff
  | bool =>
    refine (Fallible.exists_map_eq_ok _).trans ?_
    unfold readBoolColumn
    split
    · rename_i hshort
      exact ⟨nofun, fun h => absurd hshort (Nat.not_lt.mpr h)⟩
    · rename_i hlong
      exact ⟨fun _ => Nat.not_lt.mp hlong, fun _ => ⟨_, rfl⟩⟩
  | timestamp => exact (Fallible.exists_map_eq_ok _).trans exists_readWordColumn_iff

theorem readArray_ne_outOfBounds (type : ColumnType) : readArray data count type ≠ .error .outOfBounds := by
  cases type with
  | float64 => exact Fallible.map_ne_error _ (readWordColumn_ne_outOfBounds _)
  | int64 => exact Fallible.map_ne_error _ (readWordColumn_ne_outOfBounds _)
  | string => exact Fallible.map_ne_error _ readStringColumn_ne_outOfBounds
  | bool =>
    refine Fallible.map_ne_error _ ?_
    unfold readBoolColumn
    split
    · exact nofun
    · exact nofun
  | timestamp => exact Fallible.map_ne_error _ (readWordColumn_ne_outOfBounds _)

end

/-! ## Where the checked reader is safe -/

namespace Checked

open Trap

section

variable {data : Bytes} {rowCount start : Nat} {desc : ColumnDescriptor}

theorem slice_bytes (h : desc.dataOffset.toNat + desc.dataLen.toNat ≤ data.length) :
    Bytes.slice data desc.dataOffset.toNat (desc.dataOffset.toNat + desc.dataLen.toNat) = some
      (desc.bytes data) := by
  unfold Bytes.slice
  rw [if_pos ⟨Nat.le_add_right _ _, h⟩, Nat.add_sub_cancel_left]
  rfl

variable (name : String)

/-- A column whose bytes are there fails only with the reader's own errors. -/
theorem readColumn_eq_of_inside {type : ColumnType} (htype : desc.columnType = some type)
    (hend : desc.dataOffset.toNat + desc.dataLen.toNat < 2 ^ 64)
    (hinside : desc.dataOffset.toNat + desc.dataLen.toNat ≤ data.length) :
    readColumn data rowCount desc (.ok name) =
      (readArray (desc.bytes data) rowCount type).map fun array =>
        ({ name, dataType := array.dataType, nullable := desc.isNullable }, array) := by
  have hadd : (Trap.add desc.dataOffset.toNat desc.dataLen.toNat : Call Nat) =
      .ok (desc.dataOffset.toNat + desc.dataLen.toNat) := if_pos hend
  unfold readColumn
  rw [htype]
  dsimp only
  rw [hadd]
  show (Trap.slice data _ _ >>= _) = _
  rw [slice_eq_lift, slice_bytes hinside]
  show (readArray (desc.bytes data) rowCount type >>= _) = _
  cases readArray (desc.bytes data) rowCount type <;> rfl

theorem safe_readColumn_iff :
    Safe (readColumn data rowCount desc (.ok name)) ↔
      ∀ type, desc.columnType = some type → ColumnInRange data rowCount desc type := by
  -- a type that the reader does not know is refused before anything is sliced
  cases htype : desc.columnType with
  | none =>
    unfold readColumn
    rw [htype]
    exact ⟨fun _ => nofun, fun _ => safe_error _⟩
  | some type =>
    have hone : (∀ other, some type = some other → ColumnInRange data rowCount desc other) ↔
        ColumnInRange data rowCount desc type :=
      ⟨fun h => h type rfl, fun h other hother => Option.some.inj hother ▸ h⟩
    rw [hone]
    -- the end of the column is computed in 64 bits before the slice is checked
    by_cases hend : desc.dataOffset.toNat + desc.dataLen.toNat < 2 ^ 64
    · by_cases hinside : desc.dataOffset.toNat + desc.dataLen.toNat ≤ data.length
      · rw [readColumn_eq_of_inside name htype hend hinside, safe_map_iff]
        -- the reader of words multiplies the rows by eight
        by_cases hrows : type ≠ .bool → rowCount * 8 < 2 ^ 64
        · rw [readArray_eq _ hrows, safe_lift_iff]
          exact ⟨fun _ => ⟨hend, hinside, hrows⟩, fun _ => readArray_ne_outOfBounds type⟩
        · have hfails := Classical.not_imp.mp hrows
          rw [readArray_overflow _ hfails.1 hfails.2]
          exact ⟨fun h => absurd rfl h.2, fun h => absurd h.rowsFit hrows⟩
      · have hslice : Bytes.slice data desc.dataOffset.toNat
            (desc.dataOffset.toNat + desc.dataLen.toNat) = none :=
          if_neg fun h => hinside h.2
        have htrap : readColumn data rowCount desc (.ok name) = .error .outOfRange := by
          unfold readColumn
          rw [htype]
          dsimp only
          rw [show (Trap.add _ _ : Call Nat) = .ok _ from if_pos hend]
          show (Trap.slice data _ _ >>= _) = _
          rw [slice_eq_lift, hslice]
          rfl
        rw [htrap]
        exact ⟨fun h => absurd rfl h.1, fun h => absurd h.inside hinside⟩
    · have htrap : readColumn data rowCount desc (.ok name) = .error .overflow := by
        unfold readColumn
        rw [htype]
        dsimp only
        rw [show (Trap.add _ _ : Call Nat) = .error .overflow from if_neg hend]
        rfl
      rw [htrap]
      exact ⟨fun h => absurd rfl h.2, fun h => absurd h.endFits hend⟩

theorem exists_readColumn_iff :
    (∃ column, readColumn data rowCount desc (.ok name) = .ok column) ↔ ColumnReads data rowCount desc := by
  constructor
  · rintro ⟨column, hcolumn⟩
    have hsafe : Safe (readColumn data rowCount desc (.ok name)) := hcolumn ▸ safe_ok column
    cases htype : desc.columnType with
    | none =>
      unfold readColumn at hcolumn
      rw [htype] at hcolumn
      cases hcolumn
    | some type =>
      have hrange := (safe_readColumn_iff name).mp hsafe type htype
      rw [readColumn_eq_of_inside name htype hrange.endFits hrange.inside,
        readArray_eq _ hrange.rowsFit] at hcolumn
      obtain ⟨array, harray⟩ := (Fallible.exists_map_eq_ok _).mp ⟨column, hcolumn⟩
      exact ⟨type, htype, hrange, exists_readArray_iff.mp ⟨array, lift_eq_ok.mp harray⟩⟩
  · rintro ⟨type, htype, hrange, hreads⟩
    obtain ⟨array, harray⟩ := exists_readArray_iff.mpr hreads
    rw [readColumn_eq_of_inside name htype hrange.endFits hrange.inside,
      readArray_eq _ hrange.rowsFit, harray]
    exact ⟨_, rfl⟩

/-! ### The whole reader -/

variable {header : BinaryDataHeader}

variable (tryNew : List Field → List ArrayRef → Except String DataTable)

/-- The reader behind the header: one name for each descriptor, and the columns with their names. -/
theorem readBinaryToDatatable_eq (hheader : BinaryDataHeader.fromBytes data = .ok header)
    (hlong : header.descEnd ≤ data.length) :
    readBinaryToDatatable tryNew data =
      (readDescriptors data header.columnCount.toNat).mapM (readName data header.descEnd) >>= fun names =>
        ((readDescriptors data header.columnCount.toNat).zip names).mapM
            (fun d => readColumn data header.rowCount.toNat d.1 (.ok d.2)) >>= fun columns =>
          lift ((tryNew (columns.map Prod.fst) (columns.map Prod.snd)).mapError fun e =>
            .error { message := "Failed to build DataTable: " ++ e }) := by
  -- the table of descriptors lies inside the file, so reading it never fails
  have hdescriptors : (List.range header.columnCount.toNat).mapM (readDescriptor data) =
      .ok (readDescriptors data header.columnCount.toNat) := by
    refine Fallible.mapM_eq_ok_map fun i hi => readDescriptor_eq ?_
    have hle := Nat.mul_le_mul_right ColumnDescriptor.SIZE (Nat.succ_le_of_lt (List.mem_range.mp hi))
    unfold BinaryDataHeader.descEnd at hlong
    rw [Nat.succ_mul] at hle
    omega
  unfold readBinaryToDatatable
  rw [hheader]
  show (if data.length < header.descEnd then _ else _) = _
  rw [if_neg (Nat.not_lt.mpr hlong), hdescriptors]
  show ((readDescriptors data header.columnCount.toNat).mapM (readName data header.descEnd) >>= _) = _
  cases hnames : (readDescriptors data header.columnCount.toNat).mapM (readName data header.descEnd) with
  | error trap => rfl
  | ok names =>
    -- the index into the names is checked by the code, and there is a name for every column
    have hlength := (Fallible.mapM_eq_ok.mp hnames).length_eq
    have hcolumns := mapM_zipIdx_index hlength.symm (readColumn data header.rowCount.toNat)
    show (((readDescriptors data header.columnCount.toNat).zipIdx.mapM fun d =>
      readColumn data header.rowCount.toNat d.1 (Trap.index names d.2)) >>= _) = _
    rw [hcolumns]
    rfl

theorem safe_readNames_iff :
    Safe ((readDescriptors data header.columnCount.toNat).mapM (readName data header.descEnd)) ↔
      ∀ i < header.columnCount.toNat, (∀ j < i, NameReads data (header.nameStart data j)) →
        header.nameStart data i ≤ data.length := by
  unfold readDescriptors
  rw [List.mapM_map, safe_mapM_range_iff]
  simp only [Function.comp_def, readName_eq, lift_eq_ok, safe_lift_iff, exists_readName_iff,
    readName_ne_outOfBounds_iff]
  rfl

theorem exists_readNames_iff :
    (∃ names, (readDescriptors data header.columnCount.toNat).mapM (readName data header.descEnd) =
      .ok names) ↔
      ∀ i < header.columnCount.toNat, NameReads data (header.nameStart data i) := by
  unfold readDescriptors
  rw [List.mapM_map, Fallible.exists_mapM_eq_ok]
  simp only [Function.comp_def, readName_eq, lift_eq_ok, exists_readName_iff, List.mem_range]
  rfl

/-- The columns are read in order, whatever their names are. -/
theorem safe_readColumns_iff {descriptors : List ColumnDescriptor} {names : List String}
    (hlength : names.length = descriptors.length) :
    Safe ((descriptors.zip names).mapM fun d => readColumn data rowCount d.1 (.ok d.2)) ↔
      Safe (descriptors.mapM fun desc => readColumn data rowCount desc (.ok "")) := by
  rw [safe_mapM_iff_forM, safe_mapM_iff_forM]
  induction descriptors generalizing names with
  | nil => rfl
  | cons desc descriptors ih =>
    cases names with
    | nil => cases hlength
    | cons name names =>
      refine safe_bind_congr ?_ ?_ fun _ _ => ih (Nat.succ.inj hlength)
      · rw [safe_map_iff, safe_map_iff, safe_readColumn_iff, safe_readColumn_iff]
      · rw [Fallible.exists_map_eq_ok, Fallible.exists_map_eq_ok, exists_readColumn_iff,
          exists_readColumn_iff]

theorem safe_readBinaryToDatatable_iff (data : Bytes) :
    Safe (readBinaryToDatatable tryNew data) ↔ TableInRange data := by
  cases hheader : BinaryDataHeader.fromBytes data with
  | error e =>
    unfold readBinaryToDatatable TableInRange
    rw [hheader]
    exact ⟨fun _ => nofun, fun _ => safe_error _⟩
  | ok header =>
    have hone : TableInRange data ↔ (header.descEnd ≤ data.length → _) :=
      ⟨fun h => h header hheader, fun h other hother => Except.ok.inj (hheader.symm.trans hother) ▸ h⟩
    rw [hone]
    -- a header that promises more descriptors than there are bytes is refused
    by_cases hlong : header.descEnd ≤ data.length
    · rw [readBinaryToDatatable_eq tryNew hheader hlong, safe_bind_iff]
      -- what Arrow does with the columns can fail but not trap
      have hlast : ∀ columns : List (Field × ArrayRef), Safe (lift ((tryNew (columns.map Prod.fst)
          (columns.map Prod.snd)).mapError fun e => .error
            { message := "Failed to build DataTable: " ++ e })) := by
        intro columns
        cases tryNew (columns.map Prod.fst) (columns.map Prod.snd) with
        | ok table => exact safe_ok table
        | error e => exact safe_error _
      -- column by column: the ones before it were read when the reader comes to it
      have hcolumns : ∀ names, (readDescriptors data header.columnCount.toNat).mapM
          (readName data header.descEnd) =
          .ok names → (Safe (((readDescriptors data header.columnCount.toNat).zip names).mapM
            (fun d => readColumn data header.rowCount.toNat d.1 (.ok d.2)) >>= fun columns =>
              lift ((tryNew (columns.map Prod.fst) (columns.map Prod.snd)).mapError fun e =>
                .error { message := "Failed to build DataTable: " ++ e })) ↔
            ∀ i < header.columnCount.toNat,
              (∀ j < i, ColumnReads data header.rowCount.toNat (descriptorAt data j)) →
              ∀ type, (descriptorAt data i).columnType = some type →
                ColumnInRange data header.rowCount.toNat (descriptorAt data i) type) := by
        intro names hnames
        rw [safe_bind_iff, and_iff_left fun columns _ => hlast columns,
          safe_readColumns_iff (Fallible.mapM_eq_ok.mp hnames).length_eq.symm]
        unfold readDescriptors
        rw [List.mapM_map, safe_mapM_range_iff]
        simp only [Function.comp_def, exists_readColumn_iff, safe_readColumn_iff]
        rfl
      rw [safe_readNames_iff]
      refine (and_congr_right fun _ => ?_).trans (imp_iff_right hlong).symm
      constructor
      · intro h hreads
        obtain ⟨names, hnames⟩ := exists_readNames_iff.mpr hreads
        exact (hcolumns names hnames).mp (h names hnames)
      · intro h names hnames
        exact (hcolumns names hnames).mpr (h (exists_readNames_iff.mp ⟨names, hnames⟩))
    · unfold readBinaryToDatatable
      rw [hheader]
      show Safe (if data.length < header.descEnd then _ else _) ↔ _
      rw [if_pos (Nat.not_le.mp hlong)]
      exact ⟨fun _ h => absurd h hlong, fun _ => safe_error _⟩

/-! ### Agreement with the plain reader -/

/-- The checked reader does what the plain one does, or overflows. -/
def Agrees {α : Type} (call : Call α) (plain : Except (Fault ShapeError) α) : Prop :=
  call = .error .overflow ∨ call = lift plain

theorem Agrees.bind {α β : Type} {call : Call α} {plain : Except (Fault ShapeError) α} {next : α → Call β}
    {plainNext : α → Except (Fault ShapeError) β} (h : Agrees call plain)
    (hnext : ∀ a, Agrees (next a) (plainNext a)) :
    Agrees (call >>= next) (plain >>= plainNext) := by
  rcases h with rfl | rfl
  · exact Or.inl rfl
  · cases plain with
    | error fault => exact Or.inr rfl
    | ok a => exact hnext a

theorem agrees_mapM {α β : Type} {f : α → Call β} {g : α → Except (Fault ShapeError) β}
    (h : ∀ a, Agrees (f a) (g a)) (items : List α) : Agrees (items.mapM f) (items.mapM g) := by
  induction items with
  | nil => exact Or.inr rfl
  | cons first items ih =>
    rw [List.mapM_cons, List.mapM_cons]
    exact (h first).bind fun b => ih.bind fun bs => Or.inr rfl

theorem agrees_readColumn :
    Agrees (readColumn data rowCount desc (.ok name)) (Columnar.readColumn data rowCount desc name) := by
  unfold readColumn Columnar.readColumn
  cases desc.columnType with
  | none => exact Or.inr rfl
  | some type =>
    dsimp only
    by_cases hend : desc.dataOffset.toNat + desc.dataLen.toNat < 2 ^ 64
    · rw [show (Trap.add _ _ : Call Nat) = .ok _ from if_pos hend]
      refine Agrees.bind (Or.inr (slice_eq_lift _ _ _)) fun column => ?_
      show Agrees (readArray column rowCount type >>= _) _
      refine Agrees.bind ?_ fun array => Or.inr rfl
      by_cases hrows : type ≠ .bool → rowCount * 8 < 2 ^ 64
      · exact Or.inr (readArray_eq column hrows)
      · have hfails := Classical.not_imp.mp hrows
        exact Or.inl (readArray_overflow column hfails.1 hfails.2)
    · rw [show (Trap.add _ _ : Call Nat) = .error .overflow from if_neg hend]
      exact Or.inl rfl

theorem agrees_readBinaryToDatatable (data : Bytes) :
    Agrees (readBinaryToDatatable tryNew data) (Columnar.readBinaryToDatatable tryNew data) := by
  cases hheader : BinaryDataHeader.fromBytes data with
  | error e =>
    unfold readBinaryToDatatable Columnar.readBinaryToDatatable
    rw [hheader]
    exact Or.inr rfl
  | ok header =>
    by_cases hlong : header.descEnd ≤ data.length
    · rw [readBinaryToDatatable_eq tryNew hheader hlong]
      unfold Columnar.readBinaryToDatatable
      rw [hheader]
      show Agrees _ (if data.length < header.descEnd then _ else _)
      rw [if_neg (Nat.not_lt.mpr hlong)]
      refine (agrees_mapM (fun desc => Or.inr (readName_eq _ _ desc)) _).bind fun names => ?_
      exact (agrees_mapM (fun d : ColumnDescriptor × String => agrees_readColumn d.2) _).bind
        fun columns => Or.inr rfl
    · unfold readBinaryToDatatable Columnar.readBinaryToDatatable
      rw [hheader]
      show Agrees (if data.length < header.descEnd then _ else _)
        (if data.length < header.descEnd then _ else _)
      rw [if_pos (Nat.not_le.mp hlong), if_pos (Nat.not_le.mp hlong)]
      exact Or.inr rfl

theorem Agrees.eq_ok {α : Type} {call : Call α} {plain : Except (Fault ShapeError) α} {a : α}
    (h : Agrees call plain) (hok : call = .ok a) : plain = .ok a := by
  rcases h with rfl | rfl
  · cases hok
  · exact lift_eq_ok.mp hok

end

end Checked

/-! ## Where the values come from -/

/-- The values of a column of words at `start`, one behind the other. -/
def WordsAt {α : Type} (fromBits : UInt64 → α) (data : Bytes) (start : Nat) (values : List α) : Prop :=
  ∀ row value, values[row]? = some value →
    start + row * 8 + 8 ≤ data.length ∧ value = fromBits (.ofNat (field data (start + row * 8) 8))

/-- The strings of a column at `start`: the entry of each row, and behind the `count` entries the
text it leads to. -/
def StringsAt (data : Bytes) (start count : Nat) (values : List String) : Prop :=
  ∀ row value, values[row]? = some value →
    let entry := StringEntry.read (data.drop (start + row * StringEntry.SIZE))
    let text := start + count * StringEntry.SIZE + entry.offset.toNat
    start + row * StringEntry.SIZE + StringEntry.SIZE ≤ data.length ∧ text + entry.length.toNat ≤
      data.length ∧
      fromUtf8 ((data.drop text).take entry.length.toNat) = some value

def BoolsAt (data : Bytes) (start : Nat) (values : List Bool) : Prop :=
  ∀ row value, values[row]? = some value → ∃ byte, data[start + row]? = some byte ∧ value = (byte != 0)

def ValuesAt (data : Bytes) (start count : Nat) : ArrayRef → Prop
  | .float64 values => WordsAt id data start values
  | .int64 values => WordsAt UInt64.toInt64 data start values
  | .utf8 values => StringsAt data start count values
  | .boolean values => BoolsAt data start values
  | .timestampMicrosecond values => WordsAt UInt64.toInt64 data start values

/-- Every descriptor, name and value of the table stands inside the data. -/
structure DecodedFrom (data : Bytes) (header : BinaryDataHeader) (table : DataTable) : Prop where
  headerReads : BinaryDataHeader.fromBytes data = .ok header
  descriptors : header.descEnd ≤ data.length
  schemaLength : table.schema.length = header.columnCount.toNat
  columnsLength : table.columns.length = header.columnCount.toNat
  names : ∀ i entry, table.schema[i]? = some entry → ∃ stop, header.nameStart data i + stop < data.length ∧
    fromUtf8 ((data.drop (header.nameStart data i)).take stop) = some entry.name ∧
    entry.nullable = (descriptorAt data i).isNullable
  values : ∀ i array, table.columns[i]? = some array → array.len = header.rowCount.toNat ∧
    ValuesAt data (descriptorAt data i).dataOffset.toNat header.rowCount.toNat array

section

variable {data : Bytes} {rowCount count start length : Nat} {desc : ColumnDescriptor}

theorem field_slice (data : Bytes) {start length skip width : Nat} (h : skip + width ≤ length) :
    field ((data.drop start).take length) skip width = field data (start + skip) width := by
  rw [field_take h, field_drop]

theorem getElem?_map_range {α : Type} {f : Nat → α} {n i : Nat} {a : α} :
    ((List.range n).map f)[i]? = some a ↔ i < n ∧ f i = a := by
  rw [List.getElem?_eq_some_iff]
  simp only [List.length_map, List.length_range, List.getElem_map, List.getElem_range, exists_prop]

theorem wordsAt_of_read {α : Type} {fromBits : UInt64 → α} {values : List α}
    (hinside : start + length ≤ data.length)
    (h : readWordColumn fromBits ((data.drop start).take length) count = .ok values) :
    values.length = count ∧ WordsAt fromBits data start values := by
  unfold readWordColumn at h
  split at h
  · cases h
  · rename_i hlong
    obtain rfl := Except.ok.inj h
    rw [List.length_take, List.length_drop] at hlong
    refine ⟨by rw [List.length_map, List.length_range], fun row value hvalue => ?_⟩
    obtain ⟨hrow, rfl⟩ := getElem?_map_range.mp hvalue
    refine ⟨by omega, ?_⟩
    rw [field_slice data (by omega)]

theorem StringEntry.read_slice (data : Bytes) {start length skip : Nat} (h : skip + SIZE ≤ length) :
    read (((data.drop start).take length).drop skip) = read (data.drop (start + skip)) := by
  have hfield : ∀ from' width, from' + width ≤ SIZE →
      field (((data.drop start).take length).drop skip) from' width = field
        (data.drop (start + skip)) from' width := by
    intro from' width hle
    rw [← field_drop, field_slice data (by omega), ← field_drop, Nat.add_assoc]
  unfold read
  rw [hfield 0 4 (by decide), hfield 4 4 (by decide)]

theorem stringsAt_of_read {values : List String} (hinside : start + length ≤ data.length)
    (h : readStringColumn ((data.drop start).take length) count = .ok values) :
    values.length = count ∧ StringsAt data start count values := by
  have hlength : ((data.drop start).take length).length = length := by
    rw [List.length_take, List.length_drop]
    omega
  have hlong : count * StringEntry.SIZE ≤ length := hlength ▸ (exists_readStringColumn_iff.mp ⟨values, h⟩).1
  rw [readStringColumn_eq_mapM (hlength.symm ▸ hlong), Fallible.mapM_eq_ok] at h
  refine ⟨by rw [← h.length_eq, List.length_range], fun row value hvalue => ?_⟩
  obtain ⟨i, hi, hread⟩ := Fallible.forall₂_getElem?_right h hvalue
  obtain ⟨hrow, rfl⟩ := List.getElem?_eq_some_iff.mp hi
  rw [List.length_range] at hrow
  rw [List.getElem_range] at hread
  have hfits : row * StringEntry.SIZE + StringEntry.SIZE ≤ length := by
    have hle := Nat.mul_le_mul_right StringEntry.SIZE (Nat.succ_le_of_lt hrow)
    rw [Nat.succ_mul] at hle
    omega
  obtain ⟨hpool, htext⟩ := readString_eq_ok.mp hread
  rw [StringEntry.read_slice data hfits] at hpool htext
  generalize StringEntry.read (data.drop (start + row * StringEntry.SIZE)) = entry at hpool htext ⊢
  rw [List.length_drop, hlength] at hpool
  rw [List.drop_drop, List.drop_take, List.drop_drop, List.take_take, Nat.min_eq_left (by omega),
    ← Nat.add_assoc] at htext
  exact ⟨by omega, by omega, htext⟩

theorem boolsAt_of_read {values : List Bool}
    (h : readBoolColumn ((data.drop start).take length) count = .ok values) :
    values.length = count ∧ BoolsAt data start values := by
  unfold readBoolColumn at h
  split at h
  · cases h
  · rename_i hlong
    obtain rfl := Except.ok.inj h
    have hcount := Nat.not_lt.mp hlong
    refine ⟨by rw [List.length_map, List.length_take, Nat.min_eq_left hcount], fun row value hvalue => ?_⟩
    rw [List.getElem?_map, Option.map_eq_some_iff] at hvalue
    obtain ⟨byte, hbyte, rfl⟩ := hvalue
    obtain ⟨hrow, hget⟩ := List.getElem?_eq_some_iff.mp hbyte
    rw [List.getElem_take, List.getElem_take, List.getElem_drop] at hget
    exact ⟨byte, List.getElem?_eq_some_iff.mpr ⟨_, hget⟩, rfl⟩

theorem valuesAt_of_read {type : ColumnType} {array : ArrayRef}
    (hinside : desc.dataOffset.toNat + desc.dataLen.toNat ≤ data.length)
    (h : readArray (desc.bytes data) count type = .ok array) :
    array.len = count ∧ ValuesAt data desc.dataOffset.toNat count array := by
  cases type with
  | float64 =>
    obtain ⟨values, hvalues, rfl⟩ := Fallible.map_eq_ok.mp h
    exact wordsAt_of_read hinside hvalues
  | int64 =>
    obtain ⟨values, hvalues, rfl⟩ := Fallible.map_eq_ok.mp h
    exact wordsAt_of_read hinside hvalues
  | string =>
    obtain ⟨values, hvalues, rfl⟩ := Fallible.map_eq_ok.mp h
    exact stringsAt_of_read hinside hvalues
  | bool =>
    obtain ⟨values, hvalues, rfl⟩ := Fallible.map_eq_ok.mp h
    exact boolsAt_of_read hvalues
  | timestamp =>
    obtain ⟨values, hvalues, rfl⟩ := Fallible.map_eq_ok.mp h
    exact wordsAt_of_read hinside hvalues

theorem column_of_read {name : String} {column : Field × ArrayRef}
    (h : readColumn data rowCount desc name = .ok column) :
    column.1.name = name ∧ column.1.nullable = desc.isNullable ∧ column.2.len = rowCount ∧
      ValuesAt data desc.dataOffset.toNat rowCount column.2 := by
  unfold readColumn at h
  split at h
  · cases h
  · rename_i type htype
    obtain ⟨bytes, hbytes, h⟩ := Fallible.bind_eq_ok.mp h
    obtain ⟨array, harray, h⟩ := Fallible.bind_eq_ok.mp h
    obtain rfl := Except.ok.inj h
    by_cases hinside : desc.dataOffset.toNat + desc.dataLen.toNat ≤ data.length
    · rw [Checked.slice_bytes hinside] at hbytes
      obtain rfl := Except.ok.inj hbytes
      exact ⟨rfl, rfl, valuesAt_of_read hinside harray⟩
    · rw [show Bytes.slice data _ _ = none from if_neg fun h => hinside h.2] at hbytes
      cases hbytes

/-- The table that is read comes from the bytes. -/
theorem decodedFrom_of_read {tryNew : List Field → List ArrayRef → Except String DataTable}
    (htryNew : TryNewSpec tryNew) {table : DataTable}
    (h : readBinaryToDatatable tryNew data = .ok table) :
    ∃ header, DecodedFrom data header table := by
  unfold readBinaryToDatatable at h
  obtain ⟨header, hheader, h⟩ := Fallible.bind_eq_ok.mp h
  dsimp only at h
  split at h
  · cases h
  · rename_i hlong
    obtain ⟨names, hnames, h⟩ := Fallible.bind_eq_ok.mp h
    obtain ⟨columns, hcolumns, h⟩ := Fallible.bind_eq_ok.mp h
    obtain rfl := htryNew.keeps (Fallible.mapError_eq_ok.mp h)
    have hnames := Fallible.mapM_eq_ok.mp hnames
    have hcolumns := Fallible.mapM_eq_ok.mp hcolumns
    -- What the `i`-th column was read from.
    have hcolumn : ∀ i column, columns[i]? = some column → ∃ name,
        readName data header.descEnd (descriptorAt data i) = .ok name ∧
        readColumn data header.rowCount.toNat (descriptorAt data i) name = .ok column := by
      intro i column hi
      obtain ⟨d, hd, hread⟩ := Fallible.forall₂_getElem?_right hcolumns hi
      obtain ⟨hdesc, hname⟩ := List.getElem?_zip_eq_some.mp hd
      obtain ⟨desc, hdesc', hreadName⟩ := Fallible.forall₂_getElem?_right hnames hname
      rw [hdesc] at hdesc'
      obtain rfl := Option.some.inj hdesc'
      have hat : descriptorAt data i = d.1 := (getElem?_map_range.mp hdesc).2
      rw [hat]
      exact ⟨d.2, hreadName, hread⟩
    have hlength : columns.length = header.columnCount.toNat := by
      rw [← hcolumns.length_eq, List.length_zip, ← hnames.length_eq, Nat.min_self, readDescriptors,
        List.length_map, List.length_range]
    refine ⟨header, Fallible.mapError_eq_ok.mp hheader, Nat.not_lt.mp hlong,
      by rw [List.length_map, hlength],
      by rw [List.length_map, hlength], fun i entry hentry => ?_, fun i array harray => ?_⟩
    · rw [List.getElem?_map, Option.map_eq_some_iff] at hentry
      obtain ⟨column, hi, rfl⟩ := hentry
      obtain ⟨name, hname, hread⟩ := hcolumn i column hi
      obtain ⟨hstart, stop, hstop, hdecoded⟩ := readName_eq_ok.mp hname
      obtain ⟨hsame, hnullable, -⟩ := column_of_read hread
      have hlt := (List.findIdx?_eq_some_iff_getElem.mp hstop).1
      rw [List.length_drop] at hlt
      refine ⟨stop, ?_, by rw [hsame]; exact hdecoded, hnullable⟩
      show header.descEnd + _ + stop < _
      omega
    · rw [List.getElem?_map, Option.map_eq_some_iff] at harray
      obtain ⟨column, hi, rfl⟩ := harray
      obtain ⟨name, -, hread⟩ := hcolumn i column hi
      exact (column_of_read hread).2.2

end

/-- The reader returns without a trap, and with values from inside the bytes, exactly where the
table is in range. -/
theorem read_total_iff_in_range {tryNew : List Field → List ArrayRef → Except String DataTable}
    (htryNew : TryNewSpec tryNew) (data : Bytes) :
    (Trap.Safe (Checked.readBinaryToDatatable tryNew data) ∧
      ∀ table, Checked.readBinaryToDatatable tryNew data = .ok table → ∃ header,
        DecodedFrom data header table) ↔
    TableInRange data := by
  rw [Checked.safe_readBinaryToDatatable_iff, and_iff_left]
  intro table htable
  exact decodedFrom_of_read htryNew ((Checked.agrees_readBinaryToDatatable tryNew data).eq_ok htable)

/-- One column with an empty name behind the descriptor. -/
def oneColumn (rows : UInt64) (nameOffset : UInt16) (type : ColumnType)
    (dataOffset dataLen : UInt64) : Bytes :=
  (BinaryDataHeader.new 1 rows false false).toBytes ++
    ((ColumnDescriptor.new nameOffset type dataOffset dataLen false).toBytes ++ [0])

theorem tableInRange_oneColumn : TableInRange (oneColumn 1 0 .int64 0 8) := by
  intro header hheader _
  obtain rfl : BinaryDataHeader.new 1 1 false false = header := Except.ok.inj hheader
  have hone : ∀ i, i < (BinaryDataHeader.new 1 1 false false).columnCount.toNat → i = 0 :=
    fun i hi => Nat.lt_one_iff.mp hi
  constructor
  · intro i hi _
    rw [hone i hi]
    decide
  · intro _ i hi _ type _
    rw [hone i hi]
    exact ⟨by decide, by decide, fun _ => by decide⟩

/-- A column that is the first word of the header. -/
theorem header_word_reads :
    Trap.Safe (Checked.readBinaryToDatatable recordBatchTryNew (oneColumn 1 0 .int64 0 8)) ∧
      ∀ table, Checked.readBinaryToDatatable recordBatchTryNew (oneColumn 1 0 .int64 0 8) = .ok table →
        ∃ header, DecodedFrom (oneColumn 1 0 .int64 0 8) header table :=
  (read_total_iff_in_range recordBatchTryNew_spec _).mpr tableInRange_oneColumn

section

set_option maxRecDepth 4000

theorem readBinaryToDatatable_name_behind :
    Checked.readBinaryToDatatable recordBatchTryNew (oneColumn 0 1000 .int64 0 0) = .error .outOfRange :=
  rfl

theorem readBinaryToDatatable_column_behind :
    Checked.readBinaryToDatatable recordBatchTryNew (oneColumn 0 0 .int64 1000 8) = .error .outOfRange :=
  rfl

theorem readBinaryToDatatable_end_overflows :
    Checked.readBinaryToDatatable recordBatchTryNew (oneColumn 0 0 .int64 0xFFFFFFFFFFFFFFFF 1) =
      .error .overflow :=
  rfl

theorem readBinaryToDatatable_rows_overflow :
    Checked.readBinaryToDatatable recordBatchTryNew (oneColumn 0x2000000000000000 0 .int64 0 0) =
      .error .overflow :=
  rfl

end

/-- A name and a column that start behind the data, an end of a column that overflows, and rows
whose size does: the reader traps on each. -/
theorem offsets_trap :
    List.Forall
      (fun data => ¬(Trap.Safe (Checked.readBinaryToDatatable recordBatchTryNew data) ∧
        ∀ table, Checked.readBinaryToDatatable recordBatchTryNew data = .ok table →
          ∃ header, DecodedFrom data header table))
      [oneColumn 0 1000 .int64 0 0, oneColumn 0 0 .int64 1000 8, oneColumn 0 0 .int64 0xFFFFFFFFFFFFFFFF 1,
        oneColumn 0x2000000000000000 0 .int64 0 0] := by
  rw [List.forall_iff_forall_mem]
  rintro data hdata ⟨hsafe, -⟩
  simp only [List.mem_cons, List.not_mem_nil, or_false] at hdata
  rcases hdata with rfl | rfl | rfl | rfl
  · exact hsafe.1 readBinaryToDatatable_name_behind
  · exact hsafe.1 readBinaryToDatatable_column_behind
  · exact hsafe.2 readBinaryToDatatable_end_overflows
  · exact hsafe.2 readBinaryToDatatable_rows_overflow

end ShapeLang.Columnar
