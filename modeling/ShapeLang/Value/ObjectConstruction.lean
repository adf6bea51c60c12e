import ShapeLang.Value.TypedObject

/-!
# ShapeLang — building and merging typed objects

The two ways the VM builds a typed object: `op_new_typed_object`
(`crates/shape-vm/src/executor/objects/object_creation.rs`) from the values on its stack, and the merges
`op_typed_merge_object` and `op_merge_object` (`object_operations.rs`) from two objects. Both push slot
after slot and set bit `1u64 << index` of the mask for a field that owns a share.

What the mask says in the end is read off the list of fields alone: bit `i` is set exactly if some
*marked* field stands at an index congruent to `i` modulo 64. From there the exact condition under which
an object owns its heap fields follows.
-/

namespace ShapeLang.Value

/-! ## From a popped value to a field -/

/-- `FieldType` (`crates/shape-runtime/src/type_schema/field_types.rs`). -/
inductive FieldType where
  | f64 | i64 | bool | string | timestamp
  | array (elem : FieldType)
  | object (name : String)
  | decimal
  | any
  | i8 | u8 | i16 | u16 | i32 | u32 | u64
  | option (inner : FieldType)
  | hashMap (key value : FieldType)
  | set (elem : FieldType)
  deriving DecidableEq, Repr

/-- `FieldType::width_integer_native_kind`. -/
def FieldType.widthIntegerNativeKind : FieldType → Option NativeKind
  | .i8 => some .int8
  | .u8 => some .uint8
  | .i16 => some .int16
  | .u16 => some .uint16
  | .i32 => some .int32
  | .u32 => some .uint32
  | .u64 => some .uint64
  | _ => none

/-- `IntWidth::truncate` at the width of the field type: mask, then sign-extend. -/
def FieldType.truncate (ft : FieldType) (value : Word) : Word :=
  match ft with
  | .i8 => (value.setWidth 8).signExtend 64
  | .u8 => (value.setWidth 8).setWidth 64
  | .i16 => (value.setWidth 16).signExtend 64
  | .u16 => (value.setWidth 16).setWidth 64
  | .i32 => (value.setWidth 32).signExtend 64
  | .u32 => (value.setWidth 32).setWidth 64
  | _ => value

/-- `(bits as i64) as f64`, as bits. -/
def intToFloatBits (bits : Word) : Word := (Int64.ofBitVec bits).toFloat.toBits.toBitVec

/-- `f64::from_bits(bits) as i64`, as bits. -/
def floatToIntBits (bits : Word) : Word := (Float.ofBits (UInt64.ofBitVec bits)).toInt64.toBitVec

/-- `f64::from_bits(bits) != 0.0`. -/
def floatIsNonzero (bits : Word) : Bool := Float.ofBits (UInt64.ofBitVec bits) != 0.0

/-- The bits of `1.0_f64`. -/
def floatOne : Word := 0x3ff0000000000000

def ofBool (b : Bool) : Word := if b then 1 else 0

section Construction

-- What the heap holds for a decimal, read as an `f64`: `arc.to_f64().unwrap_or(0.0)`, as bits.
variable (decimalToF64 : Word → Word)

/-- `kinded_to_slot`: the slot, whether it owns a share, and the kind it was resolved to. -/
def kindedToSlot (bits : Word) (kind : NativeKind) (fieldType : Option FieldType) :
    Word × Bool × NativeKind :=
  if fieldType = some .f64 ∨ fieldType = some .decimal then
    -- Stored inline as a float, whatever was popped; a decimal's share is released here.
    let n := match kind with
      | .float64 => bits
      | .int64 => intToFloatBits bits
      | .bool => if bits ≠ 0 then floatOne else 0
      | .ptr .decimal => if bits ≠ 0 then decimalToF64 bits else 0
      | _ => 0
    (n, false, .float64)
  else if kind.isHeap then (bits, true, kind)
  else match fieldType.bind FieldType.widthIntegerNativeKind, fieldType with
    | some resolved, some ft =>
      let raw := match kind with
        | .int64 => bits
        | .float64 => floatToIntBits bits
        | .bool => ofBool (bits ≠ 0)
        | .int8 | .int16 | .int32 | .uint8 | .uint16 | .uint32 | .uint64 => bits
        | _ => 0
      (ft.truncate raw, false, resolved)
    | _, some .i64 | _, some .timestamp =>
      let i := match kind with
        | .int64 => bits
        | .float64 => floatToIntBits bits
        | .bool => ofBool (bits ≠ 0)
        | _ => 0
      (i, false, .int64)
    | _, some .bool =>
      let b := match kind with
        | .bool => bits ≠ 0
        | .int64 => bits ≠ 0
        | .float64 => floatIsNonzero bits
        | _ => false
      (ofBool b, false, .bool)
    | _, _ => (bits, false, kind)

/-! ## The accumulators -/

/-- `1u64 << i`. A release build uses the low six bits of the count only. -/
def maskBit (i : Nat) : Word := 1#64 <<< (i % 64)

/-- The accumulators of the construction loops: the slots, their kinds, the mask, and the shares that
`clone_with_kind` took while merging. -/
structure Builder where
  slots : List Word := []
  kinds : List NativeKind := []
  mask : Word := 0
  cloned : List (Word × NativeKind) := []
  deriving Repr

/-- One round of the loop of `op_new_typed_object`. The index of the field is the number of fields pushed
before it. -/
def Builder.pushResolved (b : Builder) (field : Word × Bool × NativeKind) : Builder :=
  { b with
    slots := b.slots ++ [field.1]
    kinds := b.kinds ++ [field.2.2]
    mask := if field.2.1 then b.mask ||| maskBit b.slots.length else b.mask }

/-- `TypedObjectStorage::_new` on the accumulators. -/
def Builder.finish (b : Builder) (schemaId : Word) : TypedObjectStorage Word :=
  { schemaId, slots := b.slots, heapMask := b.mask, fieldKinds := b.kinds }

/-- The fields of `op_new_typed_object`, resolved against the schema's field types. `popped` is in
declared order (popped last to first, then reversed). -/
def resolvedFields (fieldTypes : Option (List FieldType)) (popped : List (Word × NativeKind)) :
    List (Word × Bool × NativeKind) :=
  popped.zipIdx.map fun f =>
    kindedToSlot decimalToF64 f.1.1 f.1.2 (fieldTypes.bind (·[f.2]?))

/-- `op_new_typed_object`, from the popped fields on. -/
def opNewTypedObject (schemaId : Word) (fieldTypes : Option (List FieldType))
    (popped : List (Word × NativeKind)) : TypedObjectStorage Word :=
  ((resolvedFields decimalToF64 fieldTypes popped).foldl Builder.pushResolved {}).finish schemaId

/-- `clone_with_kind`: the share it takes, if any. -/
def cloneWithKind (bits : Word) (kind : NativeKind) : Option (Word × NativeKind) :=
  if bits = 0 then none else if kind.holdsShare then some (bits, kind) else none

/-- One round of `append_kept_slots`. An index past the source's slots is skipped. -/
def appendKeptSlot (src : TypedObjectStorage Word) (b : Builder) (origIdx : Nat) : Builder :=
  match src.slots[origIdx]?, src.fieldKinds[origIdx]? with
  | some bits, some kind =>
    let owned := src.heapMask &&& maskBit origIdx ≠ 0
    { slots := b.slots ++ [bits]
      kinds := b.kinds ++ [kind]
      mask := if owned then b.mask ||| maskBit b.slots.length else b.mask
      cloned := if owned then b.cloned ++ (cloneWithKind bits kind).toList else b.cloned }
  | _, _ => b

/-- `append_kept_slots`. -/
def appendKeptSlots (src : TypedObjectStorage Word) (indices : List Nat) (b : Builder) : Builder :=
  indices.foldl (appendKeptSlot src) b

/-- The accumulators after `left`'s kept slots and then `right`'s. -/
def mergedBuilder (left : TypedObjectStorage Word) (leftIndices : List Nat)
    (right : TypedObjectStorage Word) (rightIndices : List Nat) : Builder :=
  appendKeptSlots right rightIndices (appendKeptSlots left leftIndices {})

/-- The indices `op_typed_merge_object` keeps of an operand: a byte count caps them, and so does the
number of slots. -/
def concatIndices (o : TypedObjectStorage Word) (size : Nat) : List Nat :=
  List.range (min o.slots.length (size / 8))

/-- The indices `op_merge_object` keeps of its left operand: the fields the right schema has no name
for. -/
def keepLeftIndices (leftNames rightNames : List String) : List Nat :=
  leftNames.zipIdx.filterMap fun f => if f.1 ∈ rightNames then none else some f.2

/-- How an object came to be: from popped values, or by one of the two merges. -/
inductive Construction where
  | new (schemaId : Word) (fieldTypes : Option (List FieldType)) (popped : List (Word × NativeKind))
  /-- `op_typed_merge_object` with its byte counts. -/
  | concat (schemaId : Word) (left right : Construction) (leftSize rightSize : Nat)
  /-- `op_merge_object`, with the field names of the two schemas. -/
  | named (schemaId : Word) (left right : Construction) (leftNames rightNames : List String)

/-- The object a construction yields. -/
def Construction.build : Construction → TypedObjectStorage Word
  | .new schemaId fieldTypes popped => opNewTypedObject decimalToF64 schemaId fieldTypes popped
  | .concat schemaId left right leftSize rightSize =>
    (mergedBuilder left.build (concatIndices left.build leftSize) right.build
      (concatIndices right.build rightSize)).finish schemaId
  | .named schemaId left right leftNames rightNames =>
    (mergedBuilder left.build (keepLeftIndices leftNames rightNames) right.build
      (List.range (min rightNames.length right.build.slots.length))).finish schemaId

/-! ## What the mask says -/

/-- A field of an object under construction, with the flag that sent its bit into the mask. -/
structure MarkedField where
  bits : Word
  kind : NativeKind
  marked : Bool
  deriving DecidableEq, Repr

/-- Some marked field stands at an index congruent to `i` modulo 64. -/
def markedAt (fields : List MarkedField) (i : Nat) : Bool :=
  fields.zipIdx.any fun f => f.1.marked && f.2 % 64 == i % 64

/-- The fields a merge keeps. It marks a field if the *mask* of the source has the bit of its index, and
that bit may be due to another field. -/
def keptFields (fields : List MarkedField) (indices : List Nat) : List MarkedField :=
  indices.filterMap fun i => fields[i]?.map fun f => { f with marked := markedAt fields i }

/-- The fields of a construction, in order. -/
def Construction.fields : Construction → List MarkedField
  | .new _ fieldTypes popped =>
    (resolvedFields decimalToF64 fieldTypes popped).map fun f => ⟨f.1, f.2.2, f.2.1⟩
  | .concat _ left right leftSize rightSize =>
    keptFields left.fields (List.range (min left.fields.length (leftSize / 8))) ++
      keptFields right.fields (List.range (min right.fields.length (rightSize / 8)))
  | .named _ left right leftNames rightNames =>
    keptFields left.fields (keepLeftIndices leftNames rightNames) ++
      keptFields right.fields (List.range (min rightNames.length right.fields.length))

variable (i : Nat)

theorem markedAt_append_singleton (fields : List MarkedField) (f : MarkedField) (i : Nat) :
    markedAt (fields ++ [f]) i =
      (markedAt fields i || (f.marked && fields.length % 64 == i % 64)) := by
  simp [markedAt, List.zipIdx_append]

variable {fields : List MarkedField}

theorem markedAt_iff {i : Nat} :
    markedAt fields i ↔ ∃ j f, fields[j]? = some f ∧ f.marked ∧ j % 64 = i % 64 := by
  simp only [markedAt, List.any_eq_true, Bool.and_eq_true, beq_iff_eq]
  constructor
  · rintro ⟨⟨f, j⟩, hf, hmarked, hj⟩
    exact ⟨j, f, List.mem_zipIdx_iff_getElem?.mp hf, hmarked, hj⟩
  · rintro ⟨j, f, hf, hmarked, hj⟩
    exact ⟨(f, j), List.mem_zipIdx_iff_getElem?.mpr hf, hmarked, hj⟩

theorem markedAt_mod (fields : List MarkedField) (i : Nat) :
    markedAt fields (i % 64) = markedAt fields i := by
  simp [markedAt]

theorem getLsbD_maskBit (j : Nat) : (maskBit j).getLsbD i = decide (j % 64 = i) := by
  have hj : j % 64 < 64 := Nat.mod_lt j (by decide)
  rw [maskBit, ← BitVec.twoPow_eq, BitVec.getLsbD_twoPow]
  simp [hj]

/-- The test `mask & (1u64 << i) != 0`. -/
theorem and_maskBit_ne_zero_iff (mask : Word) (i : Nat) :
    mask &&& maskBit i ≠ 0 ↔ mask.getLsbD (i % 64) = true := by
  have hi : i % 64 < 64 := Nat.mod_lt i (by decide)
  constructor
  · intro hne
    by_contra hbit
    apply hne
    apply BitVec.eq_of_getLsbD_eq
    intro j hj
    rw [BitVec.getLsbD_and, getLsbD_maskBit]
    by_cases hij : i % 64 = j
    · subst hij
      simp [Bool.eq_false_iff.mpr hbit]
    · simp [hij]
  · intro hbit hzero
    have hand : (mask &&& maskBit i).getLsbD (i % 64) = true := by
      rw [BitVec.getLsbD_and, getLsbD_maskBit, hbit]
      simp
    rw [hzero] at hand
    simp at hand

/-- The accumulators hold `fields`. -/
structure Builder.Holds (b : Builder) (fields : List MarkedField) : Prop where
  slots_eq : b.slots = fields.map (·.bits)
  kinds_eq : b.kinds = fields.map (·.kind)
  mask_eq : ∀ i < 64, b.mask.getLsbD i = markedAt fields i

theorem Builder.holds_empty : ({} : Builder).Holds [] := by
  refine ⟨rfl, rfl, ?_⟩
  intro i hi
  simp [markedAt]

variable {b : Builder}

theorem Builder.Holds.push {b' : Builder} (h : b.Holds fields) (f : MarkedField)
    (hslots : b'.slots = b.slots ++ [f.bits]) (hkinds : b'.kinds = b.kinds ++ [f.kind])
    (hmask : b'.mask = if f.marked then b.mask ||| maskBit b.slots.length else b.mask) :
    b'.Holds (fields ++ [f]) := by
  refine ⟨?_, ?_, ?_⟩
  · rw [hslots, h.slots_eq, List.map_append, List.map_singleton]
  · rw [hkinds, h.kinds_eq, List.map_append, List.map_singleton]
  · intro i hi
    have hlength : b.slots.length = fields.length := by rw [h.slots_eq, List.length_map]
    rw [hmask, markedAt_append_singleton, ← h.mask_eq i hi, Nat.mod_eq_of_lt hi]
    by_cases hmarked : f.marked
    · rw [if_pos hmarked, BitVec.getLsbD_or, getLsbD_maskBit, hlength]
      simp [hmarked, beq_eq_decide]
    · rw [if_neg hmarked]
      simp [hmarked]

/-- The loop of `op_new_typed_object` pushes the resolved fields, each marked by its kind. -/
theorem Builder.Holds.foldl_pushResolved (h : b.Holds fields) (resolved : List (Word × Bool × NativeKind)) :
    (resolved.foldl Builder.pushResolved b).Holds
      (fields ++ resolved.map fun f => ⟨f.1, f.2.2, f.2.1⟩) := by
  induction resolved generalizing b fields with
  | nil => simpa using h
  | cons f resolved ih =>
    have hstep : (b.pushResolved f).Holds (fields ++ [⟨f.1, f.2.2, f.2.1⟩]) := h.push _ rfl rfl rfl
    rw [List.foldl_cons, List.map_cons, List.append_cons]
    exact ih hstep

/-- An object holds `fields`. -/
structure TypedObjectStorage.Holds (o : TypedObjectStorage Word) (fields : List MarkedField) : Prop where
  slots_eq : o.slots = fields.map (·.bits)
  fieldKinds_eq : o.fieldKinds = fields.map (·.kind)
  heapMask_eq : ∀ i < 64, o.heapMask.getLsbD i = markedAt fields i

variable {src : TypedObjectStorage Word} {sources : List MarkedField}

/-- The test of `append_kept_slots` asks for a mark somewhere in the field's residue class. -/
theorem TypedObjectStorage.Holds.owned_iff (h : src.Holds sources) (i : Nat) :
    (src.heapMask &&& maskBit i ≠ 0) ↔ markedAt sources i = true := by
  rw [and_maskBit_ne_zero_iff, h.heapMask_eq _ (Nat.mod_lt i (by decide)), markedAt_mod]

theorem Builder.Holds.finish (h : b.Holds fields) (schemaId : Word) : (b.finish schemaId).Holds fields :=
  ⟨h.slots_eq, h.kinds_eq, h.mask_eq⟩

theorem Builder.Holds.appendKeptSlot (h : b.Holds fields) (hsrc : src.Holds sources) (i : Nat) :
    (Value.appendKeptSlot src b i).Holds (fields ++ keptFields sources [i]) := by
  rw [Value.appendKeptSlot, hsrc.slots_eq, hsrc.fieldKinds_eq, List.getElem?_map, List.getElem?_map]
  cases hf : sources[i]? with
  | none => simpa [keptFields, hf] using h
  | some f =>
    have hkept : keptFields sources [i] = [{ f with marked := markedAt sources i }] := by
      simp [keptFields, hf]
    rw [hkept]
    refine h.push _ rfl rfl ?_
    simp only [Option.map_some]
    exact if_congr (hsrc.owned_iff i) rfl rfl

/-- `append_kept_slots` pushes the kept fields. -/
theorem Builder.Holds.appendKeptSlots (h : b.Holds fields) (hsrc : src.Holds sources) (indices : List Nat) :
    (Value.appendKeptSlots src indices b).Holds (fields ++ keptFields sources indices) := by
  induction indices generalizing b fields with
  | nil => simpa [Value.appendKeptSlots, keptFields] using h
  | cons i indices ih =>
    have hcons : keptFields sources (i :: indices) = keptFields sources [i] ++
        keptFields sources indices := by
      unfold keptFields
      rw [← List.filterMap_append]
      rfl
    rw [hcons, ← List.append_assoc]
    exact ih (h.appendKeptSlot hsrc i)

theorem TypedObjectStorage.Holds.merged {left right : TypedObjectStorage Word}
    {leftFields rightFields : List MarkedField} (hleft : left.Holds leftFields)
    (hright : right.Holds rightFields) (leftIndices rightIndices : List Nat) :
    (mergedBuilder left leftIndices right rightIndices).Holds
      (keptFields leftFields leftIndices ++ keptFields rightFields rightIndices) := by
  have hfirst := Builder.holds_empty.appendKeptSlots hleft leftIndices
  exact hfirst.appendKeptSlots hright rightIndices

/-! ## The shares of a merge -/

/-- The share that a merge takes for a field it keeps. -/
def MarkedField.cloned (f : MarkedField) : Option (Word × NativeKind) :=
  if f.marked then cloneWithKind f.bits f.kind else none

theorem cloned_appendKeptSlots (hsrc : src.Holds sources) (indices : List Nat) (b : Builder) :
    (Value.appendKeptSlots src indices b).cloned =
      b.cloned ++ (keptFields sources indices).filterMap MarkedField.cloned := by
  induction indices generalizing b with
  | nil => simp [Value.appendKeptSlots, keptFields]
  | cons i indices ih =>
    have hnext := ih (Value.appendKeptSlot src b i)
    have hhere : (Value.appendKeptSlot src b i).cloned =
        b.cloned ++ (keptFields sources [i]).filterMap MarkedField.cloned := by
      rw [Value.appendKeptSlot, hsrc.slots_eq, hsrc.fieldKinds_eq, List.getElem?_map, List.getElem?_map]
      cases hf : sources[i]? with
      | none => simp [keptFields, hf]
      | some f =>
        simp only [keptFields, hf, List.filterMap_cons, List.filterMap_nil, Option.map_some,
          MarkedField.cloned, hsrc.owned_iff i]
        cases markedAt sources i <;> cases cloneWithKind f.bits f.kind <;> simp
    have hcons : keptFields sources (i :: indices) = keptFields sources [i] ++
        keptFields sources indices := by
      unfold keptFields
      rw [← List.filterMap_append]
      rfl
    rw [hcons, List.filterMap_append, ← List.append_assoc, ← hhere]
    exact hnext

theorem filterMap_releaseOneField (mask : Word) (i : Nat) (rest : List MarkedField)
    (hfits : i + rest.length ≤ 64)
    (hmask : ∀ j f, rest[j]? = some f → mask.getLsbD (i + j) = f.marked) :
    (heapChildEdgesFrom mask i (rest.map fun f => (f.bits, f.kind))).filterMap releaseOneField =
      rest.filterMap MarkedField.cloned := by
  induction rest generalizing i with
  | nil => rfl
  | cons f rest ih =>
    rw [List.length_cons] at hfits
    have hrest := ih (i + 1) (by omega) fun j g hg => by
      rw [Nat.add_right_comm]
      exact hmask (j + 1) g hg
    have hbit : mask.getLsbD i = f.marked := hmask 0 f rfl
    rw [List.map_cons, heapChildEdgesFrom, if_neg (by omega), hbit, List.filterMap_cons (a := f),
      MarkedField.cloned, cloneWithKind]
    cases f.marked with
    | false => exact hrest
    | true =>
      by_cases hzero : f.bits = 0
      · simp [hzero, hrest]
      · rw [if_neg (by simp), if_neg hzero, if_pos rfl, if_neg hzero, List.filterMap_cons,
          releaseOneField, hrest]

/-- An object of at most 64 fields gives back the shares of its marked fields. -/
theorem TypedObjectStorage.Holds.dropFields_eq (h : src.Holds sources) (hfits : sources.length ≤ 64) :
    src.dropFields = sources.filterMap MarkedField.cloned := by
  have hzip : src.slots.zip src.fieldKinds = sources.map fun f => (f.bits, f.kind) := by
    rw [h.slots_eq, h.fieldKinds_eq, List.zip_map']
  rw [TypedObjectStorage.dropFields, TypedObjectStorage.heapChildEdges, hzip]
  refine filterMap_releaseOneField _ 0 sources (by omega) fun j f hf => ?_
  have hj : j < sources.length := (List.getElem?_eq_some_iff.mp hf).1
  rw [Nat.zero_add, h.heapMask_eq j (by omega), Bool.eq_iff_iff, markedAt_iff]
  constructor
  · rintro ⟨k, g, hg, hmarked, hmod⟩
    have hk : k < sources.length := (List.getElem?_eq_some_iff.mp hg).1
    obtain rfl : k = j := by omega
    rw [hf] at hg
    rw [Option.some.inj hg]
    exact hmarked
  · exact fun hmarked => ⟨j, f, hf, hmarked, rfl⟩

/-- What a merge clones is what the merged object gives back when it dies, while its fields fit the mask. -/
theorem dropFields_merged {left right : TypedObjectStorage Word} {leftFields rightFields : List MarkedField}
    (hleft : left.Holds leftFields) (hright : right.Holds rightFields) (leftIndices rightIndices : List Nat)
    (hfits : (keptFields leftFields leftIndices ++ keptFields rightFields rightIndices).length ≤ 64)
    (schemaId : Word) :
    ((mergedBuilder left leftIndices right rightIndices).finish schemaId).dropFields =
      (mergedBuilder left leftIndices right rightIndices).cloned := by
  rw [((hleft.merged hright leftIndices rightIndices).finish schemaId).dropFields_eq hfits, mergedBuilder,
    cloned_appendKeptSlots hright, cloned_appendKeptSlots hleft, List.filterMap_append]
  rfl

/-- **The object of a construction holds the construction's fields.** -/
theorem Construction.build_holds (c : Construction) :
    (c.build decimalToF64).Holds (c.fields decimalToF64) := by
  induction c with
  | new schemaId fieldTypes popped =>
    exact (Builder.holds_empty.foldl_pushResolved _).finish schemaId
  | concat schemaId left right leftSize rightSize ihl ihr =>
    have hl : (left.build decimalToF64).slots.length = (left.fields decimalToF64).length := by
      rw [ihl.slots_eq, List.length_map]
    have hr : (right.build decimalToF64).slots.length = (right.fields decimalToF64).length := by
      rw [ihr.slots_eq, List.length_map]
    rw [Construction.build, Construction.fields, concatIndices, concatIndices, hl, hr]
    exact (ihl.merged ihr _ _).finish schemaId
  | named schemaId left right leftNames rightNames ihl ihr =>
    have hr : (right.build decimalToF64).slots.length = (right.fields decimalToF64).length := by
      rw [ihr.slots_eq, List.length_map]
    rw [Construction.build, Construction.fields, hr]
    exact (ihl.merged ihr _ _).finish schemaId

/-! ## When an object owns its heap fields -/

theorem FieldType.isHeap_of_widthIntegerNativeKind {ft : FieldType} {kind : NativeKind}
    (h : ft.widthIntegerNativeKind = some kind) : kind.isHeap = false := by
  cases ft <;> simp only [FieldType.widthIntegerNativeKind, reduceCtorEq, Option.some.injEq] at h <;>
    subst h <;> rfl

/-- `kinded_to_slot` flags a slot exactly if the kind it resolved to is a heap kind. -/
theorem kindedToSlot_isHeap (bits : Word) (kind : NativeKind) (fieldType : Option FieldType) :
    (kindedToSlot decimalToF64 bits kind fieldType).2.1 =
      (kindedToSlot decimalToF64 bits kind fieldType).2.2.isHeap := by
  unfold kindedToSlot
  split
  · rfl
  · split
    · rename_i hheap
      exact hheap.symm
    · rename_i hheap
      have hscalar : kind.isHeap = false := by simpa using hheap
      split
      · rename_i hresolved
        exact (FieldType.isHeap_of_widthIntegerNativeKind hresolved).symm
      · rfl
      · rfl
      · rfl
      · exact hscalar.symm

/-- Every heap field of a construction is marked. The converse fails for a merge: a field may be marked
through the bit of another one. -/
theorem Construction.marked_of_isHeap (c : Construction) :
    ∀ f ∈ c.fields decimalToF64, f.kind.isHeap → f.marked := by
  have hkept : ∀ (sources : List MarkedField) (indices : List Nat),
      (∀ f ∈ sources, f.kind.isHeap → f.marked) →
      ∀ f ∈ keptFields sources indices, f.kind.isHeap → f.marked := by
    intro sources indices hsources f hf hheap
    obtain ⟨i, -, hi⟩ := List.mem_filterMap.mp hf
    obtain ⟨g, hg, rfl⟩ := Option.map_eq_some_iff.mp hi
    exact markedAt_iff.mpr ⟨i, g, hg, hsources g (List.mem_of_getElem? hg) hheap, rfl⟩
  induction c with
  | new schemaId fieldTypes popped =>
    intro f hf hheap
    obtain ⟨resolved, hresolved, rfl⟩ := List.mem_map.mp hf
    obtain ⟨p, -, rfl⟩ := List.mem_map.mp hresolved
    rw [kindedToSlot_isHeap]
    exact hheap
  | concat schemaId left right leftSize rightSize ihl ihr =>
    intro f hf
    rcases List.mem_append.mp hf with hf | hf
    · exact hkept _ _ ihl f hf
    · exact hkept _ _ ihr f hf
  | named schemaId left right leftNames rightNames ihl ihr =>
    intro f hf
    rcases List.mem_append.mp hf with hf | hf
    · exact hkept _ _ ihl f hf
    · exact hkept _ _ ihr f hf

/-- The fields fit into a 64-bit mask: every heap field that is not null is among the first 64, and no
scalar field among them shares its bit with a marked field. -/
structure Fits (fields : List MarkedField) : Prop where
  inRange : ∀ (i : Nat) (f : MarkedField), fields[i]? = some f → f.kind.isHeap → f.bits ≠ 0 → i < 64
  noClash : ∀ (i : Nat) (f : MarkedField), fields[i]? = some f → i < 64 → f.bits ≠ 0 →
    markedAt fields i → f.kind.isHeap

/-- **An object owns exactly its heap fields if and only if its fields fit the mask.** -/
theorem Construction.ownsHeapFields_iff_fits (c : Construction) :
    (c.build decimalToF64).OwnsHeapFields ↔ Fits (c.fields decimalToF64) := by
  have hholds := c.build_holds decimalToF64
  rw [TypedObjectStorage.ownsHeapFields_iff, hholds.slots_eq, hholds.fieldKinds_eq]
  constructor
  · intro h
    have hat : ∀ i f, (c.fields decimalToF64)[i]? = some f → f.bits ≠ 0 →
        (c.build decimalToF64).heapMask.getLsbD i = f.kind.isHeap := by
      intro i f hf
      exact h i f.bits f.kind (by simp [hf]) (by simp [hf])
    refine ⟨?_, ?_⟩
    · intro i f hf hheap hbits
      have hbit := hat i f hf hbits
      rw [hheap] at hbit
      exact BitVec.lt_of_getLsbD hbit
    · intro i f hf hi hbits hmarked
      rw [← hat i f hf hbits, hholds.heapMask_eq i hi]
      exact hmarked
  · intro h i bits kind hslot hkind hbits
    rw [List.getElem?_map] at hslot hkind
    obtain ⟨f, hf, rfl⟩ := Option.map_eq_some_iff.mp hslot
    obtain rfl : f.kind = kind := by simpa [hf] using hkind
    by_cases hi : i < 64
    · rw [hholds.heapMask_eq i hi]
      by_cases hheap : f.kind.isHeap = true
      · have hmarked := c.marked_of_isHeap decimalToF64 f (List.mem_of_getElem? hf) hheap
        rw [hheap]
        exact markedAt_iff.mpr ⟨i, f, hf, hmarked, rfl⟩
      · rw [Bool.eq_false_iff.mpr hheap, Bool.eq_false_iff]
        intro hmarked
        exact hheap (h.noClash i f hf hi hbits hmarked)
    · rw [BitVec.getLsbD_of_ge _ i (by omega), eq_comm, Bool.eq_false_iff]
      intro hheap
      exact hi (h.inRange i f hf hheap hbits)

end Construction

/-- Sixty-five fields: a number first, a string last, nothing between. -/
def sixtyFiveFields : List (Word × NativeKind) :=
  (7, .int64) :: List.replicate 63 (0, .int64) ++ [(4096, .string)]

/-- The string of field 64 is recorded in the bit of field 0: the object hands out the number 7 as its
only edge and never gives the string back. -/
theorem field_64_not_owned :
    ¬ ∀ c : Construction, (c.build fun _ => 0).OwnsHeapFields := by
  intro h
  have howns := h (.new 0 none sixtyFiveFields)
  have hedges : ((Construction.new 0 none sixtyFiveFields).build fun _ => 0).heapChildEdges =
      [(0, 7, .int64)] := by
    decide +kernel
  have hscalar := howns.no_scalar (0, 7, .int64) (by rw [hedges]; exact List.mem_singleton.mpr rfl)
  exact absurd hscalar (by decide)

end ShapeLang.Value
