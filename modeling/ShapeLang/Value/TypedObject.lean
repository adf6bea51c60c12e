import ShapeLang.Value.Kinds

/-!
# ShapeLang — typed objects and the heap mask

A typed object (`TypedObjectStorage`, `crates/shape-value/src/heap_value.rs`) keeps its fields in slots,
a kind beside each slot, and one 64-bit word, the *heap mask*, whose bit `i` says that slot `i` owns a
share of something on the heap. When the object dies, `drop_fields` gives back exactly the shares the
mask names (`for_each_heap_child_edge`); the cycle collector traces the same edges.

The mask is built with `1u64 << i` in three places: for a new object (`op_new_typed_object`), and for the
two merges (`append_kept_slots`). None of them limits the number of fields. In a release build the shift
takes its count modulo 64, so field 64 is recorded in the bit of field 0.
-/

namespace ShapeLang.Value

/-- The bits of a slot, as the VM keeps them. -/
abbrev Word := BitVec 64

instance : LawfulBEq Word := inferInstance

/-- The kinds whose slots own a share (`is_heap` of `kinded_to_slot`, `is_heap_bearing` of the
collector, `snapshot_field_is_heap_like` of the snapshot). -/
def NativeKind.isHeap : NativeKind → Bool
  | .string | .stringV2 | .decimalV2 | .ptr _ => true
  | _ => false

/-- The kinds for which `clone_with_kind` takes a share and `release_one_field` gives one back, in a
release build. Some heap kinds hold a plain number and do neither. -/
def NativeKind.holdsShare : NativeKind → Bool
  | .string | .stringV2 | .decimalV2 => true
  | .ptr .future | .ptr .moduleFn | .ptr .char | .ptr .nativeScalar => false
  | .ptr _ => true
  | _ => false

/-- `TypedObjectStorage`. The type of a slot's bits is left open: it is a plain word in the VM, and a
word that remembers where it came from in the snapshot's restore. -/
structure TypedObjectStorage (β : Type*) where
  schemaId : Word
  slots : List β
  heapMask : Word
  fieldKinds : List NativeKind
  deriving DecidableEq, Repr

/-- A heap edge of an object: the field's index, its bits and its kind. -/
abbrev Edge (β : Type*) := Nat × β × NativeKind

/-! ## What an object gives back when it dies -/

section Edges

variable {β : Type*} [Zero β] [DecidableEq β]

/-- The loop of `for_each_heap_child_edge`, from field `i` on. -/
def heapChildEdgesFrom (heapMask : Word) : Nat → List (β × NativeKind) → List (Edge β)
  | _, [] => []
  | i, (bits, kind) :: fields =>
    -- The source breaks here: "bits beyond 63 cannot be addressed today".
    if 64 ≤ i then []
    else if heapMask.getLsbD i = false then heapChildEdgesFrom heapMask (i + 1) fields
    else if bits = 0 then heapChildEdgesFrom heapMask (i + 1) fields
    else (i, bits, kind) :: heapChildEdgesFrom heapMask (i + 1) fields

/-- `for_each_heap_child_edge`: the edges, over the prefix where slots and kinds both exist. -/
def TypedObjectStorage.heapChildEdges (o : TypedObjectStorage β) : List (Edge β) :=
  heapChildEdgesFrom o.heapMask 0 (o.slots.zip o.fieldKinds)

/-- `release_one_field`: the share it gives back, if any. -/
def releaseOneField (e : Edge β) : Option (β × NativeKind) :=
  if e.2.2.holdsShare then some e.2 else none

/-- `drop_fields`: the shares given back when the object dies. -/
def TypedObjectStorage.dropFields (o : TypedObjectStorage β) : List (β × NativeKind) :=
  o.heapChildEdges.filterMap releaseOneField

/-- The fields that own a share by their kind and are not null, in order. -/
def TypedObjectStorage.heapFields (o : TypedObjectStorage β) : List (Edge β) :=
  (o.slots.zip o.fieldKinds).zipIdx.filterMap fun f =>
    if f.1.2.isHeap ∧ f.1.1 ≠ 0 then some (f.2, f.1.1, f.1.2) else none

/-- An object owns exactly its heap fields: they are its edges, each one is given back once when the
object dies, and no scalar field is handed out as a pointer. -/
structure TypedObjectStorage.OwnsHeapFields (o : TypedObjectStorage β) : Prop where
  edges_eq : o.heapChildEdges = o.heapFields
  released_once : o.dropFields = o.heapFields.filterMap releaseOneField
  distinct : (o.heapChildEdges.map (·.1)).Nodup
  no_scalar : ∀ e ∈ o.heapChildEdges, e.2.2.isHeap

/-! ## Ownership, field by field -/

/-- The loop's break is invisible: a 64-bit mask has no bit past 63 anyway. -/
theorem heapChildEdgesFrom_eq (heapMask : Word) (i : Nat) (fields : List (β × NativeKind)) :
    heapChildEdgesFrom heapMask i fields =
      ((fields.zipIdx i).filter fun f => heapMask.getLsbD f.2 && f.1.1 ≠ 0).map
        fun f => (f.2, f.1) := by
  induction fields generalizing i with
  | nil => rfl
  | cons field fields ih =>
    obtain ⟨bits, kind⟩ := field
    rw [heapChildEdgesFrom, List.zipIdx_cons, ih]
    by_cases hi : 64 ≤ i
    · have hnone : ∀ f ∈ fields.zipIdx (i + 1), heapMask.getLsbD f.2 = false := by
        intro f hf
        have hle := List.le_snd_of_mem_zipIdx hf
        exact BitVec.getLsbD_of_ge heapMask f.2 (by omega)
      have hhere : heapMask.getLsbD i = false := BitVec.getLsbD_of_ge heapMask i hi
      rw [if_pos hi, List.filter_cons_of_neg (by simp [hhere])]
      rw [List.filter_eq_nil_iff.mpr]
      · rfl
      · intro f hf
        simp [hnone f hf]
    · rw [if_neg hi]
      by_cases hbit : heapMask.getLsbD i = false
      · simp [hbit]
      · by_cases hbits : bits = 0
        · simp [hbit, hbits]
        · simp [hbit, hbits]

variable (o : TypedObjectStorage β)

theorem TypedObjectStorage.heapChildEdges_eq :
    o.heapChildEdges =
      ((o.slots.zip o.fieldKinds).zipIdx.filter fun f => o.heapMask.getLsbD f.2 && f.1.1 ≠ 0).map
        fun f => (f.2, f.1) :=
  heapChildEdgesFrom_eq o.heapMask 0 (o.slots.zip o.fieldKinds)

theorem TypedObjectStorage.heapFields_eq :
    o.heapFields =
      ((o.slots.zip o.fieldKinds).zipIdx.filter fun f => f.1.2.isHeap && f.1.1 ≠ 0).map
        fun f => (f.2, f.1) := by
  unfold TypedObjectStorage.heapFields
  induction (o.slots.zip o.fieldKinds).zipIdx with
  | nil => rfl
  | cons f fields ih =>
    by_cases hf : f.1.2.isHeap ∧ f.1.1 ≠ 0
    · rw [List.filterMap_cons, if_pos hf, List.filter_cons_of_pos (by simpa using hf), List.map_cons, ih]
    · rw [List.filterMap_cons, if_neg hf, List.filter_cons_of_neg (by simpa using hf), ih]

/-- The indices of the edges are those of distinct fields. -/
theorem TypedObjectStorage.heapChildEdges_nodup :
    (o.heapChildEdges.map (·.1)).Nodup := by
  rw [o.heapChildEdges_eq, List.map_map]
  have hfst : ((fun e : Edge β => e.1) ∘ fun f : (β × NativeKind) × Nat => (f.2, f.1)) = Prod.snd := rfl
  rw [hfst]
  refine List.Nodup.sublist (List.Sublist.map _ List.filter_sublist) ?_
  rw [List.zipIdx_map_snd]
  exact List.nodup_range'

/-- **Ownership is agreement of the mask with the kinds**: at every field that is not null, the mask's
bit says what the kind says. -/
theorem TypedObjectStorage.ownsHeapFields_iff :
    o.OwnsHeapFields ↔
      ∀ i bits kind, o.slots[i]? = some bits → o.fieldKinds[i]? = some kind → bits ≠ 0 →
        o.heapMask.getLsbD i = kind.isHeap := by
  have hmem : ∀ i bits kind, o.slots[i]? = some bits → o.fieldKinds[i]? = some kind →
      ((bits, kind), i) ∈ (o.slots.zip o.fieldKinds).zipIdx := by
    intro i bits kind hslot hkind
    rw [List.mem_zipIdx_iff_getElem?, List.getElem?_zip_eq_some]
    exact ⟨hslot, hkind⟩
  constructor
  · intro h i bits kind hslot hkind hbits
    -- a field is found again by its position
    have hinj : Function.Injective fun f : (β × NativeKind) × Nat => (f.2, f.1) := by
      rintro ⟨a, n⟩ ⟨b, m⟩ hab
      simp only [Prod.mk.injEq] at hab ⊢
      exact ⟨hab.2, hab.1⟩
    have hedges := h.edges_eq
    rw [o.heapChildEdges_eq, o.heapFields_eq] at hedges
    have hiff : ((bits, kind), i) ∈ (o.slots.zip o.fieldKinds).zipIdx.filter _ ↔
        ((bits, kind), i) ∈ (o.slots.zip o.fieldKinds).zipIdx.filter _ :=
      iff_of_eq (congrArg (((bits, kind), i) ∈ ·) (List.map_injective_iff.mpr hinj hedges))
    have hat := hmem i bits kind hslot hkind
    simp only [List.mem_filter, hat, true_and, hbits, ne_eq, not_false_eq_true, decide_true,
      Bool.and_true] at hiff
    exact Bool.eq_iff_iff.mpr hiff
  · intro h
    have hedges : o.heapChildEdges = o.heapFields := by
      rw [o.heapChildEdges_eq, o.heapFields_eq]
      congr 1
      refine List.filter_congr fun f hf => ?_
      obtain ⟨⟨bits, kind⟩, i⟩ := f
      rw [List.mem_zipIdx_iff_getElem?, List.getElem?_zip_eq_some] at hf
      by_cases hbits : bits = 0
      · simp [hbits]
      -- where the slot is not null the mask and the kind agree
      · rw [h i bits kind hf.1 hf.2 hbits]
    refine ⟨hedges, ?_, o.heapChildEdges_nodup, ?_⟩
    · rw [TypedObjectStorage.dropFields, hedges]
    · intro e he
      rw [hedges, o.heapFields_eq] at he
      obtain ⟨f, hf, rfl⟩ := List.mem_map.mp he
      have hheap := (List.mem_filter.mp hf).2
      simp only [Bool.and_eq_true] at hheap
      exact hheap.1

end Edges

end ShapeLang.Value
