import ShapeLang.Columnar.Layout

/-!
# Reading back what the builder wrote

The builder counts a column's offset from the start of the data section, the reader from the start of the
buffer. The names and types come back for every table whose offsets fit their fields; the values are read
from the header on, so that a table with rows comes back only when its data happens to spell the header.
-/

namespace ShapeLang.Columnar

open ShapeLang.Lib ShapeLang.Lib.Bytes

/-! ## Arrow -/

/-- What Arrow documents of `RecordBatch::try_new`: a batch of at least one column, with the types of its
schema and one length, is made of exactly these columns. -/
structure TryNewSpec (tryNew : List Field → List ArrayRef → Except String DataTable) : Prop where
  accepts : ∀ {fields arrays} {rows : Nat}, arrays ≠ [] →
    fields.map Field.dataType = arrays.map ArrayRef.dataType → (∀ a ∈ arrays, a.len = rows) →
    tryNew fields arrays = .ok ⟨fields, arrays⟩
  keeps : ∀ {fields arrays table}, tryNew fields arrays = .ok table → table = ⟨fields, arrays⟩
  rejects_empty : ∀ {fields table}, tryNew fields [] ≠ .ok table

/-- The checks of `RecordBatch::try_new` on arrays without nulls. -/
def recordBatchTryNew (fields : List Field) (arrays : List ArrayRef) : Except String DataTable :=
  match arrays with
  | [] => .error "must either specify a row count or at least one column"
  | first :: _ =>
      if fields.map Field.dataType ≠ arrays.map ArrayRef.dataType then
        .error "column types must match schema types"
      else if ∀ a ∈ arrays, a.len = first.len then .ok ⟨fields, arrays⟩
      else .error "all columns in a record batch must have the same length"

theorem recordBatchTryNew_spec : TryNewSpec recordBatchTryNew where
  accepts := by
    intro fields arrays rows hne htypes hlen
    cases arrays with
    | nil => exact absurd rfl hne
    | cons first arrays =>
      have hall : ∀ a ∈ first :: arrays, a.len = first.len := fun a ha => by
        rw [hlen a ha, hlen first List.mem_cons_self]
      rw [recordBatchTryNew, if_neg (not_not_intro htypes), if_pos hall]
  keeps := by
    intro fields arrays table h
    cases arrays with
    | nil => cases h
    | cons first arrays =>
      by_cases htypes : fields.map Field.dataType = (first :: arrays).map ArrayRef.dataType
      · rw [recordBatchTryNew, if_neg (not_not_intro htypes)] at h
        by_cases hall : ∀ a ∈ first :: arrays, a.len = first.len
        · rw [if_pos hall] at h
          exact (Except.ok.inj h).symm
        · rw [if_neg hall] at h
          cases h
      · rw [recordBatchTryNew, if_pos htypes] at h
        cases h
  rejects_empty := by
    intro fields table h
    cases h

/-! ## The property -/

/-- The column as an Arrow array. -/
def ColumnData.toArray : ColumnData → ArrayRef
  | .float64 v => .float64 v
  | .int64 v => .int64 v
  | .string v => .utf8 v
  | .bool v => .boolean v
  | .timestamp v => .timestampMicrosecond v

/-- The same columns in the same order, with their names, types and values. -/
structure DataTable.Holds (table : DataTable) (columns : List (String × ColumnData)) : Prop where
  names : table.schema.map Field.name = columns.map Prod.fst
  types : table.schema.map Field.dataType = columns.map fun c => c.2.toArray.dataType
  values : table.columns = columns.map fun c => c.2.toArray

def BinaryDataBuilder.RoundTrips (tryNew : List Field → List ArrayRef → Except String DataTable)
    (b : BinaryDataBuilder) : Prop :=
  ∃ buffer table, b.build = .ok buffer ∧ readBinaryToDatatable tryNew buffer = .ok table ∧
    table.Holds b.columns

/-- Every name starts where a `u16` reaches and none contains a null byte. -/
structure NamesFit (names : List String) : Prop where
  offsets : ∀ before name after, names = before ++ name :: after → (stringTable before).length < 2 ^ 16
  no_null : ∀ name ∈ names, (0 : UInt8) ∉ asBytes name

/-! ## Names -/

theorem fromUtf8_asBytes (s : String) : fromUtf8 (asBytes s) = some s := by
  have hbytes : (⟨(asBytes s).toArray⟩ : ByteArray) = s.toByteArray := by
    rw [asBytes, Array.toArray_toList]
  rw [fromUtf8, hbytes, String.fromUTF8?, dif_pos s.isValidUTF8]
  rfl

theorem stringTable_append (before after : List String) :
    stringTable (before ++ after) = stringTable before ++ stringTable after := by
  rw [stringTable, List.map_append, List.flatten_append, stringTable, stringTable]

theorem stringTable_cons (name : String) (rest : List String) :
    stringTable (name :: rest) = asBytes name ++ 0 :: stringTable rest := by
  rw [stringTable, List.map_cons, List.flatten_cons, List.append_assoc]
  rfl

theorem findIdx?_null {bytes : Bytes} (h : (0 : UInt8) ∉ bytes) (rest : Bytes) :
    (bytes ++ 0 :: rest).findIdx? (fun b => b == 0) = some bytes.length := by
  induction bytes with
  | nil => rfl
  | cons x bytes ih =>
    have hx : (x == 0) = false := by
      rw [beq_eq_false_iff_ne]
      rintro rfl
      exact h List.mem_cons_self
    rw [List.cons_append, List.findIdx?_cons, hx, ih fun hmem => h (List.mem_cons_of_mem _ hmem)]
    rfl

variable {before after : List String} {name : String} {names : List String}

theorem readName_eq {front tail : Bytes} {desc : ColumnDescriptor} (hfit : NamesFit names)
    (hsplit : names = before ++ name :: after)
    (hoffset : desc.nameOffset = .ofNat (stringTable before).length) :
    readName (front ++ stringTable names ++ tail) front.length desc = .ok name := by
  have hnull : (0 : UInt8) ∉ asBytes name := hfit.no_null name (by rw [hsplit]; simp)
  have hnat : desc.nameOffset.toNat = (stringTable before).length := by
    rw [hoffset, UInt16.toNat_ofNat_of_lt' (hfit.offsets before name after hsplit)]
  have hdata : front ++ stringTable names ++ tail =
      front ++ stringTable before ++ (asBytes name ++ 0 :: (stringTable after ++ tail)) ++ [] := by
    rw [hsplit, stringTable_append, stringTable_cons]
    simp only [List.append_assoc, List.cons_append, List.append_nil]
  have hslice : slice (front ++ stringTable names ++ tail) (front.length + desc.nameOffset.toNat)
      (front ++ stringTable names ++ tail).length =
        some (asBytes name ++ 0 :: (stringTable after ++ tail)) := by
    rw [hdata]
    apply slice_append
    · rw [hnat, List.length_append]
    · rw [hnat, List.append_nil, List.length_append, List.length_append]
  rw [readName, hslice]
  dsimp only [inBounds, bind, Except.bind]
  rw [findIdx?_null hnull]
  show decodeUtf8 _ = _
  rw [List.take_left, decodeUtf8, fromUtf8_asBytes]

/-! ## Tables without rows -/

/-- The descriptor that belongs to a column of an empty table. -/
def Describes (names : List String) (c : String × ColumnData) (d : ColumnDescriptor) : Prop :=
  ∃ before after, names = before ++ c.1 :: after ∧
    d = descriptorOf c.2 (.ofNat (stringTable before).length) 0

theorem ColumnData.size_of_len_zero {col : ColumnData} (h : col.len = 0) : col.size = 0 := by
  cases col with
  | float64 v => rw [List.eq_nil_of_length_eq_zero h]; rfl
  | int64 v => rw [List.eq_nil_of_length_eq_zero h]; rfl
  | string v => rw [List.eq_nil_of_length_eq_zero h]; rfl
  | bool v => rw [List.eq_nil_of_length_eq_zero h]; rfl
  | timestamp v => rw [List.eq_nil_of_length_eq_zero h]; rfl

-- The running lengths of both passes: `before` holds the names already placed, the columns take no room.
variable {columns : List (String × ColumnData)}

theorem describes_from (hempty : ∀ c ∈ columns, c.2.len = 0) (before : List String) :
    List.Forall₂ (Describes (before ++ columns.map Prod.fst)) columns
      (List.zipWith (fun col at' => descriptorOf col at'.1 at'.2) (columns.map Prod.snd)
        ((nameOffsets (columns.map Prod.fst) (stringTable before).length).zip
          (columnOffsets (columns.map Prod.snd) 0).1)) := by
  -- the table of names grows by one name, and the columns, all empty, stay at offset 0
  induction columns generalizing before with
  | nil => exact .nil
  | cons c columns ih =>
    have hsize : c.2.size = 0 := ColumnData.size_of_len_zero (hempty c List.mem_cons_self)
    have hnames : before ++ (c :: columns).map Prod.fst = before ++ [c.1] ++ columns.map Prod.fst := by
      rw [List.map_cons, List.append_assoc]
      rfl
    have hlen : (stringTable (before ++ [c.1])).length =
        (stringTable before).length + (asBytes c.1).length + 1 := by
      rw [stringTable_append, stringTable_cons]
      simp only [List.length_append, List.length_cons]
      rfl
    have hrest := ih (fun x hx => hempty x (List.mem_cons_of_mem _ hx)) (before ++ [c.1])
    refine .cons ⟨before, columns.map Prod.fst, rfl, rfl⟩ ?_
    rw [hnames]
    rw [hlen] at hrest
    show List.Forall₂ _ columns (List.zipWith _ _
      ((nameOffsets _ _).zip
        (columnOffsets (columns.map Prod.snd) (alignUp 0 DATA_ALIGNMENT + c.2.size)).1))
    rw [hsize]
    exact hrest

variable {b : BinaryDataBuilder}

theorem BinaryDataBuilder.describes (hempty : ∀ c ∈ b.columns, c.2.len = 0) :
    List.Forall₂ (Describes b.names) b.columns b.descriptors :=
  describes_from hempty []

variable {data : Bytes}

theorem readColumn_eq_ok {colData : Bytes} {rows : Nat} {d : ColumnDescriptor} {t : ColumnType}
    (htype : d.columnType = some t)
    (hslice : slice data d.dataOffset.toNat (d.dataOffset.toNat + d.dataLen.toNat) = some colData)
    {r : Field × ArrayRef} :
    readColumn data rows d name = .ok r ↔
      ∃ array, readArray colData rows t = .ok array ∧
        r = ({ name, dataType := array.dataType, nullable := d.isNullable }, array) := by
  rw [readColumn, htype]
  show (inBounds (slice data d.dataOffset.toNat (d.dataOffset.toNat + d.dataLen.toNat)) >>= fun colData =>
    readArray colData rows t >>= fun array =>
      Except.ok (({ name, dataType := array.dataType, nullable := d.isNullable } : Field), array)) = _ ↔ _
  rw [hslice]
  show (readArray colData rows t >>= fun array => _) = _ ↔ _
  rw [Fallible.bind_eq_ok]
  constructor
  · rintro ⟨array, harray, hr⟩
    exact ⟨array, harray, (Except.ok.inj hr).symm⟩
  · rintro ⟨array, harray, rfl⟩
    exact ⟨array, harray, rfl⟩

theorem readArray_empty {col : ColumnData} (hlen : col.len = 0) :
    readArray [] 0 col.columnType = .ok col.toArray := by
  cases col with
  | float64 v => rw [List.eq_nil_of_length_eq_zero hlen]; rfl
  | int64 v => rw [List.eq_nil_of_length_eq_zero hlen]; rfl
  | string v => rw [List.eq_nil_of_length_eq_zero hlen]; rfl
  | bool v => rw [List.eq_nil_of_length_eq_zero hlen]; rfl
  | timestamp v => rw [List.eq_nil_of_length_eq_zero hlen]; rfl

variable (col : ColumnData) (nameOffset : UInt16) (dataOffset : Nat)

theorem descriptorOf_columnType :
    (descriptorOf col nameOffset dataOffset).columnType = some col.columnType :=
  ColumnType.fromU8_toU8 _

theorem descriptorOf_isNullable :
    (descriptorOf col nameOffset dataOffset).isNullable = false := by
  show ((0 : UInt8) &&& 0x01 != 0) = false
  decide

/-- The field of a column in the schema. -/
def fieldOf (c : String × ColumnData) : Field :=
  { name := c.1, dataType := c.2.toArray.dataType, nullable := false }

variable {c : String × ColumnData}

/-- A column without rows reads as itself wherever its descriptor points. -/
theorem readColumn_empty {d : ColumnDescriptor} (hd : Describes names c d) (hlen : c.2.len = 0)
    (data : Bytes) :
    readColumn data 0 d c.1 = .ok (fieldOf c, c.2.toArray) := by
  obtain ⟨before, after, -, rfl⟩ := hd
  have hslice : slice data 0 0 = some [] := by
    rw [slice, if_pos ⟨Nat.le_refl 0, Nat.zero_le _⟩, Nat.sub_self, List.take_zero]
  have hlenBytes : (descriptorOf c.2 (.ofNat (stringTable before).length) 0).dataLen.toNat = 0 := by
    show (UInt64.ofNat c.2.size).toNat = 0
    rw [ColumnData.size_of_len_zero hlen]
    rfl
  refine (readColumn_eq_ok (descriptorOf_columnType _ _ _) ?_).mpr ⟨c.2.toArray, readArray_empty hlen, ?_⟩
  · rw [hlenBytes]
    exact hslice
  · rw [descriptorOf_isNullable, fieldOf]

/-! ## Reading an image -/

variable (rows : UInt64)

theorem readDescriptors_image :
    readDescriptors (b.image rows) b.columns.length = b.descriptors := by
  obtain ⟨tail, himage⟩ := BinaryDataBuilder.image_split (b := b) rows
  have hdrop : ∀ i, (b.image rows).drop (BinaryDataHeader.SIZE + i * ColumnDescriptor.SIZE) =
      ((b.descriptors.map ColumnDescriptor.toBytes).flatten ++ (stringTable b.names ++ tail)).drop
        (i * ColumnDescriptor.SIZE) := by
    intro i
    rw [himage, ← List.drop_drop, List.drop_left' (BinaryDataHeader.length_toBytes _)]
  have hread := map_range_flatten b.descriptors ColumnDescriptor.length_toBytes
      ColumnDescriptor.read_toBytes
    (stringTable b.names ++ tail)
  rw [BinaryDataBuilder.length_descriptors] at hread
  simp only [readDescriptors, hdrop]
  exact hread

variable {tryNew : List Field → List ArrayRef → Except String DataTable}

/-- The header of the image reads back, and the descriptors are all there. -/
theorem read_image (hcount : b.columns.length < 2 ^ 16) :
    readBinaryToDatatable tryNew (b.image rows) = (do
      let names ← b.descriptors.mapM (readName (b.image rows)
        (BinaryDataHeader.SIZE + b.columns.length * ColumnDescriptor.SIZE))
      let columns ← (b.descriptors.zip names).mapM fun d => readColumn (b.image rows) rows.toNat d.1 d.2
      (tryNew (columns.map Prod.fst) (columns.map Prod.snd)).mapError fun e =>
        .error { message := "Failed to build DataTable: " ++ e }) := by
  obtain ⟨tail, himage⟩ := BinaryDataBuilder.image_split (b := b) rows
  have hcast : (b.header rows).columnCount.toNat = b.columns.length := UInt16.toNat_ofNat_of_lt' hcount
  have hheader : BinaryDataHeader.fromBytes (b.image rows) = .ok (b.header rows) := by
    rw [himage]
    exact BinaryDataHeader.fromBytes_toBytes (BinaryDataHeader.validate_new _ _ _ _) _
  have hlong : ¬(b.image rows).length < BinaryDataHeader.SIZE + b.columns.length *
      ColumnDescriptor.SIZE := by
    rw [himage, List.length_append, List.length_append, BinaryDataHeader.length_toBytes,
      length_flatten_map ColumnDescriptor.length_toBytes, BinaryDataBuilder.length_descriptors]
    omega
  rw [readBinaryToDatatable, hheader]
  show (if (b.image rows).length < BinaryDataHeader.SIZE + (b.header rows).columnCount.toNat *
    ColumnDescriptor.SIZE
    then _ else _) = _
  rw [hcast, if_neg hlong, readDescriptors_image]
  rfl

theorem validate_empty (hempty : ∀ c ∈ b.columns, c.2.len = 0) :
    b.validate = .ok 0 := by
  rw [BinaryDataBuilder.validate]
  cases hcolumns : b.columns with
  | nil => rfl
  | cons first rest =>
    rw [hcolumns] at hempty
    have hfirst : first.2.len = 0 := hempty _ List.mem_cons_self
    have hnone : rest.find? (fun c => c.2.len ≠ first.2.len) = none := by
      rw [List.find?_eq_none]
      intro c hc
      rw [hempty c (List.mem_cons_of_mem _ hc), hfirst]
      decide
    dsimp only
    rw [hnone, hfirst]
    rfl

theorem readNames_image (hempty : ∀ c ∈ b.columns, c.2.len = 0) (hfit : NamesFit b.names) :
    b.descriptors.mapM (readName (b.image rows)
      (BinaryDataHeader.SIZE + b.columns.length * ColumnDescriptor.SIZE)) = .ok b.names := by
  obtain ⟨tail, himage⟩ := BinaryDataBuilder.image_split (b := b) rows
  let front := (b.header rows).toBytes ++ (b.descriptors.map ColumnDescriptor.toBytes).flatten
  have hfront : BinaryDataHeader.SIZE + b.columns.length * ColumnDescriptor.SIZE = front.length := by
    rw [List.length_append, BinaryDataHeader.length_toBytes,
      length_flatten_map ColumnDescriptor.length_toBytes, BinaryDataBuilder.length_descriptors]
  have himage' : b.image rows = front ++ stringTable b.names ++ tail := by
    rw [himage]
    simp only [front, List.append_assoc]
  rw [Fallible.mapM_eq_ok, BinaryDataBuilder.names, List.forall₂_map_right_iff]
  refine (BinaryDataBuilder.describes hempty).flip.imp ?_
  rintro d c ⟨before, after, hsplit, rfl⟩
  rw [hfront, himage']
  exact readName_eq hfit hsplit rfl

theorem readColumns_image (data : Bytes) (hempty : ∀ c ∈ b.columns, c.2.len = 0) :
    ((b.descriptors.zip b.names).mapM fun d => readColumn data 0 d.1 d.2) =
      .ok (b.columns.map fun c => (fieldOf c, c.2.toArray)) := by
  rw [Fallible.mapM_eq_ok, List.forall₂_map_right_iff]
  have hdescs := BinaryDataBuilder.describes hempty
  rw [BinaryDataBuilder.names]
  generalize b.names = names at hdescs
  generalize b.descriptors = descs at hdescs ⊢
  generalize b.columns = columns at hempty hdescs ⊢
  induction hdescs with
  | nil => exact .nil
  | cons hd _ ih =>
    refine .cons (readColumn_empty hd (hempty _ List.mem_cons_self) data) (ih ?_)
    exact fun c hc => hempty c (List.mem_cons_of_mem _ hc)

theorem ColumnData.len_toArray : col.toArray.len = col.len := by
  cases col <;> rfl

theorem read_build_of_no_rows (htryNew : TryNewSpec tryNew) (hcolumns : b.columns ≠ [])
    (hcount : b.columns.length < 2 ^ 16) (hempty : ∀ c ∈ b.columns, c.2.len = 0)
    (hfit : NamesFit b.names) :
    b.RoundTrips tryNew := by
  let table : DataTable := ⟨b.columns.map fieldOf, b.columns.map fun c => c.2.toArray⟩
  have hbuild : b.build = .ok (b.image 0) := BinaryDataBuilder.build_eq (validate_empty hempty) hcount
  have hnew : tryNew (b.columns.map fieldOf) (b.columns.map fun c => c.2.toArray) = .ok table := by
    apply htryNew.accepts
    · simpa using hcolumns
    · rw [List.map_map, List.map_map]
      rfl
    · intro a ha
      obtain ⟨c, hc, rfl⟩ := List.mem_map.mp ha
      rw [ColumnData.len_toArray, hempty c hc]
  -- the header, the names and the columns are read one after the other
  have hread : readBinaryToDatatable tryNew (b.image 0) = .ok table := by
    rw [read_image 0 hcount, readNames_image 0 hempty hfit]
    show (((b.descriptors.zip b.names).mapM fun d => readColumn (b.image 0) 0 d.1 d.2) >>=
      fun columns => _) = _
    rw [readColumns_image (b.image 0) hempty]
    show Except.mapError _ (tryNew (List.map _ (List.map _ _)) (List.map _ (List.map _ _))) = _
    rw [List.map_map, List.map_map]
    exact Fallible.mapError_eq_ok.mpr hnew
  refine ⟨b.image 0, table, hbuild, hread, ?_, ?_, rfl⟩
  · show (b.columns.map fieldOf).map Field.name = _
    rw [List.map_map]
    rfl
  · show (b.columns.map fieldOf).map Field.dataType = _
    rw [List.map_map]
    rfl

/-! ## Tables with rows -/

/-- The magic number, version, flags and column count, as one word. -/
def BinaryDataBuilder.headerWord (b : BinaryDataBuilder) (rows : UInt64) : UInt64 :=
  .ofNat (field (b.header rows).toBytes 0 8)

/-- The first value of the column is what the header reads as at the column's type. A string entry read from
the header points behind a pool of `BINARY_MAGIC` bytes. -/
def ColumnData.SpellsHeader (word : UInt64) : ColumnData → Prop
  | .float64 v => v.head? = some word
  | .int64 v => v.head? = some word.toInt64
  | .timestamp v => v.head? = some word.toInt64
  | .bool v => v.head? = some true
  | .string v => BINARY_MAGIC.toNat ≤ (v.map fun s => (asBytes s).length).sum

theorem head?_map_range {α : Type} (f : Nat → α) {n : Nat} (hn : n ≠ 0) :
    ((List.range n).map f).head? = some (f 0) := by
  cases n with
  | zero => exact absurd rfl hn
  | succ n => rw [List.range_succ_eq_map, List.map_cons, List.head?_cons]

variable {count : Nat}

theorem readWordColumn_head {α : Type} {fromBits : UInt64 → α} {values : List α}
    (h : readWordColumn fromBits data count = .ok values) (hcount : count ≠ 0) :
    values.head? = some (fromBits (.ofNat (field data 0 8))) := by
  unfold readWordColumn at h
  split at h
  · cases h
  · rw [← Except.ok.inj h, head?_map_range _ hcount, Nat.zero_mul]

theorem readStringColumn_pool {values : List String} (h : readStringColumn data count = .ok values)
    (hcount : count ≠ 0) :
    (UInt32.ofNat (field data 0 4)).toNat ≤ data.length - count * StringEntry.SIZE := by
  simp only [readStringColumn] at h
  split at h
  · cases h
  · obtain ⟨s, hs⟩ := Fallible.exists_mapM_eq_ok.mp ⟨values, h⟩ 0 (by rw [List.mem_range]; omega)
    split at hs
    · cases hs
    · next hpool =>
      have hentry : (StringEntry.read (data.drop (0 * StringEntry.SIZE))).offset = .ofNat
          (field data 0 4) := by
        rw [Nat.zero_mul, List.drop_zero, StringEntry.read]
      rw [hentry, List.length_drop] at hpool
      omega

theorem readBoolColumn_head {values : List Bool} (h : readBoolColumn data count = .ok values)
    (hcount : count ≠ 0) :
    values.head? = data.head?.map fun b => b != 0 := by
  unfold readBoolColumn at h
  split at h
  · cases h
  · rw [← Except.ok.inj h, List.head?_map, List.head?_take, if_neg hcount]

theorem head?_header {h : BinaryDataHeader} (hvalid : h.magic = BINARY_MAGIC) (rest : Bytes) :
    (h.toBytes ++ rest).head? = some 0x4C := by
  rw [BinaryDataHeader.toBytes, hvalid]
  rfl

/-- The first column is read from the header on, so its first value is the header's. -/
theorem spellsHeader_of_readArray {h : BinaryDataHeader} {rest : Bytes} {col : ColumnData} {rows : Nat}
    (hread : readArray ((h.toBytes ++ rest).take col.size) rows col.columnType = .ok col.toArray)
    (hfits : col.size ≤ (h.toBytes ++ rest).length) (hrows : rows = col.len) (hpos : rows ≠ 0)
    (hvalid : h.magic = BINARY_MAGIC) : col.SpellsHeader (.ofNat (field h.toBytes 0 8)) := by
  have hfield : ∀ {width}, width ≤ 8 → width ≤ col.size →
      field ((h.toBytes ++ rest).take col.size) 0 width = field h.toBytes 0 width := by
    intro width hwidth hsize
    have hsize' : 0 + width ≤ col.size := by omega
    have hfront : 0 + width ≤ h.toBytes.length := by
      rw [BinaryDataHeader.length_toBytes, BinaryDataHeader.SIZE]
      omega
    rw [field_take hsize', field_append hfront]
  -- a column of eight-byte words starts with the first word of the header
  have hword : ∀ {α : Type} {fromBits : UInt64 → α} {values : List α}, col.size = rows * 8 →
      readWordColumn fromBits ((h.toBytes ++ rest).take col.size) rows = .ok values →
      values.head? = some (fromBits (.ofNat (field h.toBytes 0 8))) := by
    intro α fromBits values hsize hvalues
    rw [readWordColumn_head hvalues hpos, hfield (Nat.le_refl 8) (by omega)]
  cases col with
  | float64 v =>
    obtain ⟨values, hvalues, heq⟩ := Fallible.map_eq_ok.mp hread
    obtain rfl := ArrayRef.float64.inj heq
    have hsize : (ColumnData.float64 values).size = rows * 8 := by
      rw [hrows, ColumnData.len, ColumnData.size]
    rw [readF64Column] at hvalues
    have hhead := hword hsize hvalues
    rw [id_eq] at hhead
    rw [ColumnData.SpellsHeader]
    exact hhead
  | int64 v =>
    obtain ⟨values, hvalues, heq⟩ := Fallible.map_eq_ok.mp hread
    obtain rfl := ArrayRef.int64.inj heq
    have hsize : (ColumnData.int64 values).size = rows * 8 := by rw [hrows, ColumnData.len, ColumnData.size]
    rw [readI64Column] at hvalues
    have hhead := hword hsize hvalues
    rw [ColumnData.SpellsHeader]
    exact hhead
  | timestamp v =>
    obtain ⟨values, hvalues, heq⟩ := Fallible.map_eq_ok.mp hread
    obtain rfl := ArrayRef.timestampMicrosecond.inj heq
    have hsize : (ColumnData.timestamp values).size = rows * 8 := by
      rw [hrows, ColumnData.len, ColumnData.size]
    rw [readI64Column] at hvalues
    have hhead := hword hsize hvalues
    rw [ColumnData.SpellsHeader]
    exact hhead
  -- a column of bits starts with the header's first byte, the low byte of the magic
  | bool v =>
    obtain ⟨values, hvalues, heq⟩ := Fallible.map_eq_ok.mp hread
    obtain rfl := ArrayRef.boolean.inj heq
    have hsize : (ColumnData.bool values).size ≠ 0 := by
      rw [ColumnData.size]
      rw [ColumnData.len] at hrows
      omega
    rw [ColumnData.SpellsHeader, readBoolColumn_head hvalues hpos, List.head?_take, if_neg hsize,
      head?_header hvalid]
    rfl
  -- a text column starts with an entry, whose offset would be the magic number: the pool is that
  -- long
  | string v =>
    obtain ⟨values, hvalues, heq⟩ := Fallible.map_eq_ok.mp hread
    have hpool := readStringColumn_pool hvalues hpos
    have hsize : (ColumnData.string v).size =
        rows * StringEntry.SIZE + (v.map fun s => (asBytes s).length).sum := by
      rw [hrows]
      rfl
    have hmagic : UInt32.ofNat (field h.toBytes 0 4) = BINARY_MAGIC := by
      rw [BinaryDataHeader.toBytes, field_le, ← hvalid]
      exact UInt32.toNat_inj.mp (by simp)
    rw [hfield (by omega) (by rw [hsize, StringEntry.SIZE]; omega), hmagic, List.length_take,
      Nat.min_eq_left hfits, hsize] at hpool
    show BINARY_MAGIC.toNat ≤ _
    omega

theorem BinaryDataBuilder.descriptors_head (hcolumns : b.columns = c :: columns) :
    ∃ descs, b.descriptors = descriptorOf c.2 0 0 :: descs := by
  rw [descriptors, data, names, hcolumns]
  exact ⟨_, rfl⟩

theorem validate_first {rows : UInt64} (hrows : b.validate = .ok rows)
    (hcolumns : b.columns = c :: columns) :
    rows = .ofNat c.2.len ∧ ∀ x ∈ b.columns, x.2.len = c.2.len := by
  rw [BinaryDataBuilder.validate, hcolumns] at hrows
  rw [hcolumns]
  dsimp only at hrows
  cases hfind : columns.find? fun x => x.2.len ≠ c.2.len with
  | some x =>
    rw [hfind] at hrows
    cases hrows
  | none =>
    rw [hfind] at hrows
    refine ⟨(Except.ok.inj hrows).symm, fun x hx => ?_⟩
    rcases List.mem_cons.mp hx with rfl | hx
    · rfl
    · simpa using List.find?_eq_none.mp hfind x hx

theorem ColumnData.len_le_size : col.len ≤ col.size := by
  cases col with
  | float64 v => rw [len, size]; omega
  | int64 v => rw [len, size]; omega
  | timestamp v => rw [len, size]; omega
  | string v => rw [len, size, StringEntry.SIZE]; omega
  | bool v => rw [len, size]

theorem size_le_image (hcolumns : b.columns = c :: columns) :
    c.2.size ≤ (b.image rows).length := by
  have hdata : b.data = c.2 :: columns.map Prod.snd := by
    rw [BinaryDataBuilder.data, hcolumns, List.map_cons]
  rw [BinaryDataBuilder.image, hdata, dataSection]
  simp only [List.length_append, c.2.length_bytes]
  omega

/-- What the reader finds for the first column: the buffer from its first byte on. -/
theorem readArray_first {rows : UInt64} (hcolumns : b.columns = c :: columns) (hsize : c.2.size < 2 ^ 64)
    {r : Field × ArrayRef} (h : readColumn (b.image rows) rows.toNat (descriptorOf c.2 0 0) name = .ok r) :
    readArray ((b.image rows).take c.2.size) rows.toNat c.2.columnType = .ok r.2 := by
  have hlen : (descriptorOf c.2 0 0).dataLen.toNat = c.2.size := UInt64.toNat_ofNat_of_lt' hsize
  have hslice : slice (b.image rows) 0 (0 + (descriptorOf c.2 0 0).dataLen.toNat) =
      some ((b.image rows).take c.2.size) := by
    rw [hlen, slice, Nat.zero_add, if_pos ⟨Nat.zero_le _, size_le_image rows hcolumns⟩, List.drop_zero,
      Nat.sub_zero]
  obtain ⟨array, harray, rfl⟩ := (readColumn_eq_ok (descriptorOf_columnType c.2 0 0) hslice).mp h
  exact harray

/-- What a table with rows that comes back looks like. `usize` bounds the size of a column. -/
theorem spellsHeader_of_roundTrips (htryNew : TryNewSpec tryNew) {rows : UInt64}
    (hrows : b.validate = .ok rows) (hcount : b.columns.length < 2 ^ 16)
    (hcolumns : b.columns = c :: columns) (hsize : c.2.size < 2 ^ 64) (hpos : c.2.len ≠ 0)
    (h : b.RoundTrips tryNew) : c.2.SpellsHeader (b.headerWord rows) := by
  obtain ⟨buffer, table, hbuild, hread, hholds⟩ := h
  obtain ⟨tail, himage⟩ := BinaryDataBuilder.image_split (b := b) rows
  obtain ⟨descs, hdescs⟩ := BinaryDataBuilder.descriptors_head hcolumns
  rw [BinaryDataBuilder.build_eq hrows hcount] at hbuild
  obtain rfl := Except.ok.inj hbuild
  rw [read_image rows hcount] at hread
  obtain ⟨names, hnames, hread⟩ := Fallible.bind_eq_ok.mp hread
  obtain ⟨arrays, harrays, hread⟩ := Fallible.bind_eq_ok.mp hread
  have htable := htryNew.keeps (Fallible.mapError_eq_ok.mp hread)
  have hvalues : arrays.map Prod.snd = c.2.toArray :: columns.map fun c => c.2.toArray := by
    have hcolumns' := hholds.values
    rw [htable, hcolumns, List.map_cons] at hcolumns'
    exact hcolumns'
  -- the first descriptor, its name and its array
  rw [hdescs, Fallible.mapM_eq_ok] at hnames
  cases hnames with
  | cons hname hnames =>
    rw [hdescs, List.zip_cons_cons, Fallible.mapM_eq_ok] at harrays
    cases harrays with
    | cons harray harrays =>
      have hfirst := readArray_first hcolumns hsize harray
      rw [(List.cons.inj hvalues).1] at hfirst
      have hlen : rows.toNat = c.2.len := by
        rw [(validate_first hrows hcolumns).1]
        exact UInt64.toNat_ofNat_of_lt' (Nat.lt_of_le_of_lt c.2.len_le_size hsize)
      have hfits := size_le_image rows hcolumns
      rw [himage] at hfirst hfits
      exact spellsHeader_of_readArray hfirst hfits hlen (by omega) rfl

theorem not_roundTrips_of_no_columns (htryNew : TryNewSpec tryNew) (hcolumns : b.columns = []) :
    ¬b.RoundTrips tryNew := by
  rintro ⟨buffer, table, hbuild, hread, -⟩
  have hrows : b.validate = .ok 0 := by rw [BinaryDataBuilder.validate, hcolumns]
  have hcount : b.columns.length < 2 ^ 16 := by
    rw [hcolumns]
    decide
  have hdescs : b.descriptors = [] := List.eq_nil_of_length_eq_zero (by
    rw [BinaryDataBuilder.length_descriptors, hcolumns]
    rfl)
  rw [BinaryDataBuilder.build_eq hrows hcount] at hbuild
  obtain rfl := Except.ok.inj hbuild
  rw [read_image 0 hcount, hdescs] at hread
  exact htryNew.rejects_empty (Fallible.mapError_eq_ok.mp hread)

/-- A table without rows comes back, and of the tables with rows only one whose first column begins
with what the header reads as. -/
theorem read_build {tryNew : List Field → List ArrayRef → Except String DataTable}
    (htryNew : TryNewSpec tryNew) (b : BinaryDataBuilder) :
    (b.columns ≠ [] → b.columns.length < 2 ^ 16 → (∀ c ∈ b.columns, c.2.len = 0) → NamesFit b.names →
      b.RoundTrips tryNew) ∧
    (∀ rows, b.validate = .ok rows → b.columns.length < 2 ^ 16 → (∀ c ∈ b.columns, c.2.size < 2 ^ 64) →
      b.RoundTrips tryNew → ∃ c columns, b.columns = c :: columns ∧
        ((∀ x ∈ b.columns, x.2.len = 0) ∨ c.2.SpellsHeader (b.headerWord rows))) := by
  refine ⟨fun hcolumns hcount hempty hfit => read_build_of_no_rows htryNew hcolumns hcount hempty hfit, ?_⟩
  intro rows hrows hcount hsize h
  match hcolumns : b.columns with
  | [] => exact absurd h (not_roundTrips_of_no_columns htryNew hcolumns)
  | c :: columns =>
    refine ⟨c, columns, rfl, ?_⟩
    by_cases hpos : c.2.len = 0
    · refine Or.inl fun x hx => ?_
      rw [← hcolumns] at hx
      rw [(validate_first hrows hcolumns).2 x hx, hpos]
    · have hc : c ∈ b.columns := by
        rw [hcolumns]
        exact List.mem_cons_self
      exact Or.inr (spellsHeader_of_roundTrips htryNew hrows hcount hcolumns (hsize c hc) hpos h)

theorem offset_lt_length (hsplit : names = before ++ name :: after) :
    (stringTable before).length < (stringTable names).length := by
  rw [hsplit, stringTable_append, stringTable_cons]
  simp only [List.length_append, List.length_cons]
  omega

/-- A plugin's answer without rows: three columns come back. -/
theorem read_build_header_only :
    let b := BinaryDataBuilder.new.addTimestamps [] |>.addF64Column "open" [] |>.addStringColumn "venue" []
    b.RoundTrips recordBatchTryNew := by
  refine (read_build recordBatchTryNew_spec _).1 (by decide) (by decide) (by decide) ⟨?_, by decide +kernel⟩
  intro before name after hsplit
  have htable : (stringTable ["timestamp", "open", "venue"]).length = 21 := by decide +kernel
  have hlt := offset_lt_length hsplit
  exact Nat.lt_trans hlt (htable ▸ by decide)

/-- One `i64` column `x` with the value `1` does not come back: the value read is the header's. -/
theorem written_value_not_read :
    ¬∀ (tryNew : List Field → List ArrayRef → Except String DataTable) (b : BinaryDataBuilder)
      (rows : UInt64),
      TryNewSpec tryNew → b.validate = .ok rows → b.RoundTrips tryNew := by
  intro h
  have hround := h recordBatchTryNew (BinaryDataBuilder.new.addI64Column "x" [1]) 1
      recordBatchTryNew_spec rfl
  have hcolumns : (BinaryDataBuilder.new.addI64Column "x" [1]).columns = [("x", .int64 [1])] := rfl
  have hrows : (BinaryDataBuilder.new.addI64Column "x" [1]).validate = .ok 1 := rfl
  have hhead := spellsHeader_of_roundTrips recordBatchTryNew_spec hrows (by decide) hcolumns
      (by decide) (by decide)
    hround
  rw [ColumnData.SpellsHeader] at hhead
  revert hhead
  decide +kernel

end ShapeLang.Columnar
