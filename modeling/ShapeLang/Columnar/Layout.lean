import ShapeLang.Columnar.Format
import ShapeLang.Lib.Fallible

/-!
# What the builder writes

`build` fills a zeroed buffer from front to back. `image` is the buffer it ends with, written down as the
concatenation of its parts, and `build_eq` says that every table of fewer than `2 ^ 16` columns ends there.
-/

namespace ShapeLang.Columnar

open ShapeLang.Lib ShapeLang.Lib.Bytes

/-! ## Headers and descriptors read back -/

namespace BinaryDataHeader

@[simp] theorem length_toBytes (h : BinaryDataHeader) : h.toBytes.length = SIZE := by
  simp only [toBytes, List.length_append, length_le]
  rfl

theorem fromBytes_toBytes {h : BinaryDataHeader} (hvalid : h.validate = .ok ()) (rest : Bytes) :
    fromBytes (h.toBytes ++ rest) = .ok h := by
  have hlong : ¬(h.toBytes ++ rest).length < SIZE := by
    rw [List.length_append, length_toBytes]
    omega
  -- the fields of the header, each behind the ones written before it
  have hmagic : UInt32.ofNat (field (h.toBytes ++ rest) 0 4) = h.magic := by
    rw [toBytes, List.append_assoc, field_le]
    exact UInt32.toNat_inj.mp (by simp)
  have hversion : UInt8.ofNat (field (h.toBytes ++ rest) 4 1) = h.version := by
    simp only [toBytes, List.append_assoc, field_skip (show 4 ≤ 4 by omega), field_le, Nat.sub_self]
    exact UInt8.toNat_inj.mp (by simp)
  have hflags : UInt8.ofNat (field (h.toBytes ++ rest) 5 1) = h.flags := by
    simp only [toBytes, List.append_assoc, field_skip (show 4 ≤ 5 by omega), Nat.reduceSub,
      field_skip (show 1 ≤ 1 by omega), field_le]
    exact UInt8.toNat_inj.mp (by simp)
  have hcolumns : UInt16.ofNat (field (h.toBytes ++ rest) 6 2) = h.columnCount := by
    simp only [toBytes, List.append_assoc, field_skip (show 4 ≤ 6 by omega), Nat.reduceSub,
      field_skip (show 1 ≤ 2 by omega), field_skip (show 1 ≤ 1 by omega), field_le]
    exact UInt16.toNat_inj.mp (by simp)
  have hrows : UInt64.ofNat (field (h.toBytes ++ rest) 8 8) = h.rowCount := by
    simp only [toBytes, List.append_assoc, field_skip (show 4 ≤ 8 by omega), Nat.reduceSub,
      field_skip (show 1 ≤ 4 by omega), field_skip (show 1 ≤ 3 by omega), field_skip (show 2 ≤ 2 by omega),
      field_le]
    exact UInt64.toNat_inj.mp (by simp)
  rw [fromBytes, if_neg hlong, hmagic, hversion, hflags, hcolumns, hrows]
  show Except.map (fun _ => h) h.validate = _
  rw [hvalid]
  rfl

theorem validate_new (columnCount : UInt16) (rowCount : UInt64) (hasTimestamps isSorted : Bool) :
    (new columnCount rowCount hasTimestamps isSorted).validate = .ok () := rfl

end BinaryDataHeader

namespace ColumnDescriptor

@[simp] theorem length_toBytes (d : ColumnDescriptor) : d.toBytes.length = SIZE := by
  simp only [toBytes, List.length_append, length_le]
  rfl

theorem read_toBytes (d : ColumnDescriptor) (rest : Bytes) : read (d.toBytes ++ rest) = d := by
  have hname : UInt16.ofNat (field (d.toBytes ++ rest) 0 2) = d.nameOffset := by
    rw [toBytes, List.append_assoc, field_le]
    exact UInt16.toNat_inj.mp (by simp)
  have htype : UInt8.ofNat (field (d.toBytes ++ rest) 2 1) = d.dataType := by
    simp only [toBytes, List.append_assoc, field_skip (show 2 ≤ 2 by omega), field_le, Nat.sub_self]
    exact UInt8.toNat_inj.mp (by simp)
  have hflags : UInt8.ofNat (field (d.toBytes ++ rest) 3 1) = d.flags := by
    simp only [toBytes, List.append_assoc, field_skip (show 2 ≤ 3 by omega), Nat.reduceSub,
      field_skip (show 1 ≤ 1 by omega), field_le]
    exact UInt8.toNat_inj.mp (by simp)
  have hoffset : UInt64.ofNat (field (d.toBytes ++ rest) 4 8) = d.dataOffset := by
    simp only [toBytes, List.append_assoc, field_skip (show 2 ≤ 4 by omega), Nat.reduceSub,
      field_skip (show 1 ≤ 2 by omega), field_skip (show 1 ≤ 1 by omega), field_le]
    exact UInt64.toNat_inj.mp (by simp)
  have hlen : UInt64.ofNat (field (d.toBytes ++ rest) 12 8) = d.dataLen := by
    simp only [toBytes, List.append_assoc, field_skip (show 2 ≤ 12 by omega), Nat.reduceSub,
      field_skip (show 1 ≤ 10 by omega), field_skip (show 1 ≤ 9 by omega), field_skip (show 8 ≤ 8 by omega),
      field_le]
    exact UInt64.toNat_inj.mp (by simp)
  rw [read, hname, htype, hflags, hoffset, hlen]

end ColumnDescriptor

theorem ColumnType.fromU8_toU8 (t : ColumnType) : fromU8 t.toU8 = some t := by
  cases t <;> rfl

/-! ## The data section -/

/-- The bytes of a column in the data section. -/
def ColumnData.bytes : ColumnData → Bytes
  | .float64 v => (v.map wordBytes).flatten
  | .int64 v => (v.map fun x => wordBytes x.toUInt64).flatten
  | .timestamp v => (v.map fun x => wordBytes x.toUInt64).flatten
  | .string v => ((stringEntries v 0).map StringEntry.toBytes).flatten ++ (v.map asBytes).flatten
  | .bool v => (v.map fun b => [if b then 1 else 0]).flatten

/-- The columns from offset `current` on, each aligned. -/
def dataSection : List ColumnData → Nat → Bytes
  | [], _ => []
  | col :: rest, current =>
      zeros (alignPadding current DATA_ALIGNMENT) ++ col.bytes ++
        dataSection rest (alignUp current DATA_ALIGNMENT + col.size)

theorem length_wordBytes (w : UInt64) : (wordBytes w).length = 8 :=
  length_le 8 _

theorem length_stringEntry (e : StringEntry) : e.toBytes.length = StringEntry.SIZE := by
  rw [StringEntry.toBytes, List.length_append, length_le, length_le]
  rfl

variable (v : List String)

theorem length_stringEntries (pool : UInt32) :
    (stringEntries v pool).length = v.length := by
  induction v generalizing pool with
  | nil => rfl
  | cons s v ih => rw [stringEntries, List.length_cons, ih, List.length_cons]

theorem length_entryBytes :
    ((stringEntries v 0).map StringEntry.toBytes).flatten.length = v.length * StringEntry.SIZE := by
  rw [length_flatten_map length_stringEntry, length_stringEntries]

theorem length_pool :
    (v.map asBytes).flatten.length = (v.map fun s => (asBytes s).length).sum := by
  rw [List.length_flatten, List.map_map]
  rfl

theorem ColumnData.length_bytes (col : ColumnData) : col.bytes.length = col.size := by
  cases col with
  | float64 v => exact length_flatten_map length_wordBytes v
  | int64 v => exact length_flatten_map (fun x : Int64 => length_wordBytes x.toUInt64) v
  | timestamp v => exact length_flatten_map (fun x : Int64 => length_wordBytes x.toUInt64) v
  | string v =>
    rw [ColumnData.bytes, List.length_append, length_entryBytes, length_pool]
    rfl
  | bool v =>
    rw [ColumnData.bytes, length_flatten_map (fun b : Bool => (rfl : [if b then 1 else 0].length = 1)),
      Nat.mul_one]
    rfl

variable {written : Bytes}

theorem writeColumn_zeros {offset gap rest n : Nat} (col : ColumnData)
    (hoffset : offset = written.length + gap) (hn : n = gap + (col.size + rest)) :
    writeColumn (written ++ zeros n) offset col = some
      (written ++ zeros gap ++ col.bytes ++ zeros rest) := by
  rw [← col.length_bytes] at hn
  cases col with
  | float64 v => exact overwrite_zeros hoffset hn
  | int64 v => exact overwrite_zeros hoffset hn
  | timestamp v => exact overwrite_zeros hoffset hn
  | bool v => exact overwriteAll_zeros hoffset hn
  | string v =>
    -- the entries first, then the pool right behind them
    rw [ColumnData.bytes, List.length_append, Nat.add_assoc] at hn
    have hentries := overwriteAll_zeros hoffset hn
    have hpool : offset + v.length * StringEntry.SIZE =
        (written ++ zeros gap ++ ((stringEntries v 0).map StringEntry.toBytes).flatten).length + 0 := by
      simp only [List.length_append, length_entryBytes, length_zeros]
      omega
    have hwritten := overwriteAll_zeros hpool (Nat.zero_add ((v.map asBytes).flatten.length + rest)).symm
    rw [writeColumn, hentries]
    show overwriteAll (v.map asBytes) (offset + v.length * StringEntry.SIZE) _ = _
    rw [hwritten, ColumnData.bytes]
    simp [zeros, List.append_assoc]

variable (cols : List ColumnData) (current : Nat)

theorem columnOffsets_total :
    (columnOffsets cols current).2 = current + (dataSection cols current).length := by
  induction cols generalizing current with
  | nil => rfl
  | cons col cols ih =>
    show (columnOffsets cols _).2 = _
    rw [ih, dataSection, List.length_append, List.length_append, length_zeros, col.length_bytes, alignUp]
    omega

theorem length_columnOffsets :
    (columnOffsets cols current).1.length = cols.length := by
  induction cols generalizing current with
  | nil => rfl
  | cons col cols ih =>
    show ((columnOffsets cols _).1.length + 1) = _
    rw [ih, List.length_cons]

theorem writeColumns_zeros {start current : Nat} (hwritten : written.length = start + current) :
    writeColumns start (cols.zip (columnOffsets cols current).1)
        (written ++ zeros (dataSection cols current).length) =
      some (written ++ dataSection cols current) := by
  induction cols generalizing current written with
  | nil => rfl
  | cons col cols ih =>
    -- the buffer starts as zeros of the whole length, and each column overwrites its part of them
    have hoffset : start + alignUp current DATA_ALIGNMENT =
        written.length + alignPadding current DATA_ALIGNMENT := by
      rw [hwritten, alignUp, Nat.add_assoc]
    have hn : (dataSection (col :: cols) current).length =
        alignPadding current DATA_ALIGNMENT +
          (col.size + (dataSection cols (alignUp current DATA_ALIGNMENT + col.size)).length) := by
      rw [dataSection, List.length_append, List.length_append, length_zeros, col.length_bytes,
        Nat.add_assoc]
    have hlength : (written ++ zeros (alignPadding current DATA_ALIGNMENT) ++ col.bytes).length =
        start + (alignUp current DATA_ALIGNMENT + col.size) := by
      rw [List.length_append, List.length_append, length_zeros, col.length_bytes, ← hoffset, Nat.add_assoc]
    have hfirst := writeColumn_zeros col hoffset hn
    show (writeColumn _ (start + alignUp current DATA_ALIGNMENT) col >>= fun buffer =>
      writeColumns start (cols.zip (columnOffsets cols _).1) buffer) = _
    rw [hfirst]
    show writeColumns start _ _ = _
    rw [ih hlength, dataSection]
    simp only [List.append_assoc]

/-! ## The whole buffer -/

namespace BinaryDataBuilder

variable (b : BinaryDataBuilder)

def names : List String := b.columns.map Prod.fst

def data : List ColumnData := b.columns.map Prod.snd

def header (rows : UInt64) : BinaryDataHeader :=
  .new (.ofNat b.columns.length) rows b.hasTimestamps b.isSorted

def descriptors : List ColumnDescriptor :=
  List.zipWith (fun col at' => descriptorOf col at'.1 at'.2) b.data
    ((nameOffsets b.names 0).zip (columnOffsets b.data 0).1)

/-- What stands before the padding of the data section. -/
def metadata (rows : UInt64) : Bytes :=
  (b.header rows).toBytes ++ (b.descriptors.map ColumnDescriptor.toBytes).flatten ++ stringTable b.names

def image (rows : UInt64) : Bytes :=
  b.metadata rows ++ zeros (alignPadding (b.metadata rows).length DATA_ALIGNMENT) ++ dataSection b.data 0

end BinaryDataBuilder

theorem length_nameOffsets (names : List String) (len : Nat) :
    (nameOffsets names len).length = names.length := by
  induction names generalizing len with
  | nil => rfl
  | cons name names ih => rw [nameOffsets, List.length_cons, ih, List.length_cons]

namespace BinaryDataBuilder

variable {b : BinaryDataBuilder}

theorem length_descriptors : b.descriptors.length = b.columns.length := by
  rw [descriptors, List.length_zipWith, List.length_zip, length_nameOffsets, length_columnOffsets,
    names, data, List.length_map, List.length_map, Nat.min_self, Nat.min_self]

variable (rows : UInt64)

theorem length_metadata :
    (b.metadata rows).length =
      BinaryDataHeader.SIZE + b.columns.length * ColumnDescriptor.SIZE + (stringTable b.names).length := by
  rw [metadata, List.length_append, List.length_append, BinaryDataHeader.length_toBytes,
    length_flatten_map ColumnDescriptor.length_toBytes, length_descriptors]

/-- The size `build` allocates, by the parts that are written one after the other. -/
theorem total_size :
    alignUp (BinaryDataHeader.SIZE + b.columns.length * ColumnDescriptor.SIZE +
      (stringTable b.names).length)
        DATA_ALIGNMENT + (columnOffsets b.data 0).2 =
      (b.header rows).toBytes.length + ((b.descriptors.map ColumnDescriptor.toBytes).flatten.length +
        ((stringTable b.names).length +
          (alignPadding (b.metadata rows).length DATA_ALIGNMENT + (dataSection b.data 0).length))) := by
  have hdescs : (b.descriptors.map ColumnDescriptor.toBytes).flatten.length =
      b.columns.length * ColumnDescriptor.SIZE := by
    rw [length_flatten_map ColumnDescriptor.length_toBytes, length_descriptors]
  rw [columnOffsets_total, alignUp, hdescs, BinaryDataHeader.length_toBytes, length_metadata]
  omega

theorem build_eq {rows : UInt64} (hrows : b.validate = .ok rows) (hcount : b.columns.length < 2 ^ 16) :
    b.build = .ok (b.image rows) := by
  have hcast : (UInt16.ofNat b.columns.length).toNat = b.columns.length := UInt16.toNat_ofNat_of_lt' hcount
  have hdescs : BinaryDataHeader.SIZE = (b.header rows).toBytes.length :=
    (BinaryDataHeader.length_toBytes _).symm
  have htable : BinaryDataHeader.SIZE + b.data.length * ColumnDescriptor.SIZE =
      ((b.header rows).toBytes ++ (b.descriptors.map ColumnDescriptor.toBytes).flatten).length := by
    rw [List.length_append, length_flatten_map ColumnDescriptor.length_toBytes, length_descriptors,
      ← hdescs, data, List.length_map]
  have hstart : (b.metadata rows ++ zeros (alignPadding (b.metadata rows).length DATA_ALIGNMENT)).length =
      alignUp (b.metadata rows).length DATA_ALIGNMENT + 0 := by
    rw [List.length_append, length_zeros, alignUp, Nat.add_zero]
  -- the four writes, in the order of the source
  let padding := alignPadding (b.metadata rows).length DATA_ALIGNMENT
  have h₁ := overwrite_front (b.header rows).toBytes
    ((b.descriptors.map ColumnDescriptor.toBytes).flatten.length + ((stringTable b.names).length +
      (padding + (dataSection b.data 0).length)))
  have h₂ := overwriteAll_next hdescs (b.descriptors.map ColumnDescriptor.toBytes)
    ((stringTable b.names).length + (padding + (dataSection b.data 0).length))
  have h₃ := overwrite_next htable (stringTable b.names) (padding + (dataSection b.data 0).length)
  have h₄ := writeColumns_zeros b.data hstart
  rw [← total_size] at h₁
  rw [List.append_assoc (b.metadata rows), ← zeros_add] at h₄
  rw [build, hrows]
  simp only [Except.mapError, hcast]
  show (inBounds
    (overwrite (zeros (alignUp (BinaryDataHeader.SIZE + b.columns.length * ColumnDescriptor.SIZE +
    (stringTable b.names).length) DATA_ALIGNMENT + (columnOffsets b.data 0).2)) 0
      (b.header rows).toBytes) >>=
    fun buffer => _) = _
  rw [h₁]
  show (inBounds (overwriteAll (b.descriptors.map ColumnDescriptor.toBytes) BinaryDataHeader.SIZE _) >>=
    fun buffer => _) = _
  rw [h₂]
  show (inBounds (overwrite _ (BinaryDataHeader.SIZE + b.data.length * ColumnDescriptor.SIZE)
    (stringTable b.names)) >>= fun buffer => _) = _
  rw [h₃]
  show inBounds (writeColumns (alignUp (BinaryDataHeader.SIZE + b.columns.length * ColumnDescriptor.SIZE +
    (stringTable b.names).length) DATA_ALIGNMENT) (b.data.zip (columnOffsets b.data 0).1)
    (b.metadata rows ++ zeros (padding + (dataSection b.data 0).length))) = _
  rw [← length_metadata rows, h₄]
  rfl

theorem image_split :
    ∃ tail, b.image rows = (b.header rows).toBytes ++
      ((b.descriptors.map ColumnDescriptor.toBytes).flatten ++ (stringTable b.names ++ tail)) := by
  refine ⟨zeros (alignPadding (b.metadata rows).length DATA_ALIGNMENT) ++ dataSection b.data 0, ?_⟩
  rw [image]
  conv_lhs => rw [metadata]
  simp only [List.append_assoc, metadata]

end BinaryDataBuilder

end ShapeLang.Columnar
