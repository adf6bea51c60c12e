import ShapeLang.Lib.Fallible
import ShapeLang.Lib.ObjectGraph
import ShapeLang.Value.TypedObject

/-!
# ShapeLang — the deep clone of a typed object

`clone p` keeps both `p` and the clone. `deep_clone_typed_object`
(`crates/shape-vm/src/executor/objects/object_operations.rs`) allocates a new storage and fills it slot by
slot: a slot outside the heap mask is copied, a nested struct is cloned in turn, an array is copied by
`clone_array` (`v2_array_detect.rs`), and everything else is shared with the source.

The comment above it asks for "an INDEPENDENT object so that mutating one does not observe in the other".
Two things stand in the way. The recursion keeps no record of what it has cloned, so it does not come back
from a struct that lies on a cycle. And `clone_array` copies the elements as they are: the structs and
arrays an array holds belong to the source and to the clone.

  * `deepClone_spec` — what a clone that returns has built, whatever the source holds;
  * `independentCopy_iff` — the clone is an independent copy exactly when no struct on the way down
    lies on a cycle and nothing that is shared leads to a struct or to an array.
-/

namespace ShapeLang.Executor.Objects

open ShapeLang.Value

/-! ## The heap -/

/-- `V2ElemType`. -/
inductive V2ElemType where
  | f64 | i64 | i32 | bool | i8 | u8 | i16 | u16 | u32 | f32 | char
  | string | decimal | typedObject | traitObject | typedArray | callable | content
  deriving DecidableEq, Repr

/-- What an address holds. The elements of an array stand with the kind they are read as: it is the same for
all of them but in an array of callables. An array whose element byte `V2ElemType::from_byte` does not know
has no element type. Of all else (strings, maps, closures, trait objects) only the contents matter here. -/
inductive HeapObject where
  | typedObject (o : TypedObjectStorage Nat)
  | typedArray (elemType : Option V2ElemType) (elems : List (Nat × NativeKind))
  | other (contents : List (Nat × NativeKind))
  deriving DecidableEq, Repr

/-- The objects by address, and the first address not yet given out. -/
structure Heap where
  objects : Nat → Option HeapObject
  next : Nat

def Heap.alloc (H : Heap) (x : HeapObject) : Nat × Heap :=
  (H.next, { objects := Function.update H.objects H.next (some x), next := H.next + 1 })

/-- The object a value refers to. -/
def referent (value : Nat × NativeKind) : Option Nat :=
  if value.2.holdsShare ∧ value.1 ≠ 0 then some value.1 else none

def HeapObject.values : HeapObject → List (Nat × NativeKind)
  | .typedObject o => o.slots.zip o.fieldKinds
  | .typedArray _ elems => elems
  | .other contents => contents

def HeapObject.refs (x : HeapObject) : List Nat := x.values.filterMap referent

/-- The objects that can be written to. -/
def HeapObject.Mutable : HeapObject → Prop
  | .typedObject _ | .typedArray _ _ => True
  | .other _ => False

def Heap.cell (H : Heap) (a k : Nat) : Option Nat := (H.objects a).bind fun x => x.refs[k]?

abbrev Heap.Reach (H : Heap) : Nat → Nat → Prop := ObjectGraph.Reach H.cell

def Heap.Mutable (H : Heap) (a : Nat) : Prop := ∃ x, H.objects a = some x ∧ x.Mutable

/-- What the VM's constructors promise of the heap: an address in use has been given out, what is referred
to is there, and a value of struct kind is the address of a struct. -/
structure Heap.Sound (H : Heap) : Prop where
  allocated : ∀ a x, H.objects a = some x → a < H.next
  live : ∀ a x b, H.objects a = some x → b ∈ x.refs → ∃ y, H.objects b = some y
  kinds : ∀ a o, H.objects a = some (.typedObject o) → o.fieldKinds.length = o.slots.length
  structs : ∀ a x b, H.objects a = some x → (b, NativeKind.ptr .typedObject) ∈ x.values → b ≠ 0 →
    ∃ o, H.objects b = some (.typedObject o)

/-! ## The clone -/

inductive CloneError where
  /-- The recursion has used up the stack. -/
  | stackOverflow
  /-- A slot of the heap mask without a kind: `slot`, `schema` and the length of the kind track. -/
  | missingKind (slot : Nat) (schema : Word) (len : Nat)
  /-- The address of no struct, which the source does not check. -/
  | notAStruct
  deriving DecidableEq, Repr

/-- `as_v2_typed_array`, for a value of array kind. -/
def asV2TypedArray (H : Heap) (bits : Nat) : Option (V2ElemType × List (Nat × NativeKind)) :=
  match H.objects bits with
  | some (.typedArray (some elemType) elems) => some (elemType, elems)
  | _ => none

/-- `clone_array`: every arm copies the elements as they are, and retains those on the heap. -/
def cloneArray (H : Heap) (elemType : V2ElemType) (elems : List (Nat × NativeKind)) : Nat × Heap :=
  H.alloc (.typedArray (some elemType) elems)

/-- One round of the loop of `deep_clone_typed_object`, over the clone of a nested struct. -/
def cloneSlot (clone : Heap → Nat → Except CloneError (Nat × Heap)) (o : TypedObjectStorage Nat)
    (i bits : Nat) (H : Heap) : Except CloneError (Nat × Heap) :=
  if ¬ (i < 64 ∧ o.heapMask.getLsbD i) ∨ bits = 0 then .ok (bits, H)
  else
    match o.fieldKinds[i]? with
    | none => .error (.missingKind i o.schemaId o.fieldKinds.length)
    | some (.ptr .typedObject) => clone H bits
    | some (.ptr .typedArray) =>
      match asV2TypedArray H bits with
      | some (elemType, elems) => .ok (cloneArray H elemType elems)
      | none => .ok (bits, H)
    | some _ => .ok (bits, H)

/-- The loop, from slot `i` on. -/
def cloneSlots (clone : Heap → Nat → Except CloneError (Nat × Heap)) (o : TypedObjectStorage Nat) :
    Nat → List Nat → Heap → Except CloneError (List Nat × Heap)
  | _, [], H => .ok ([], H)
  | i, bits :: slots, H => do
    let (b, H) ← cloneSlot clone o i bits H
    let (bs, H) ← cloneSlots clone o (i + 1) slots H
    .ok (b :: bs, H)

/-- `deep_clone_typed_object`, with `depth` frames left on the stack. -/
def deepClone : Nat → Heap → Nat → Except CloneError (Nat × Heap)
  | 0, _, _ => .error .stackOverflow
  | depth + 1, H, a =>
    match H.objects a with
    | some (.typedObject o) => do
      let (slots, H) ← cloneSlots (deepClone depth) o 0 o.slots H
      .ok (H.alloc (.typedObject { o with slots }))
    | _ => .error .notAStruct

/-! ## What is asked of it -/

mutual

/-- `c` is a struct equal to `a` in every field. -/
inductive Equal (H : Heap) : Nat → Nat → Prop
  | intro {a c : Nat} {o o' : TypedObjectStorage Nat}
      (source : H.objects a = some (.typedObject o)) (copy : H.objects c = some (.typedObject o'))
      (schemaId : o'.schemaId = o.schemaId) (heapMask : o'.heapMask = o.heapMask)
      (fieldKinds : o'.fieldKinds = o.fieldKinds) (length : o'.slots.length = o.slots.length)
      (fields : ∀ (i bits bits' : Nat), o.slots[i]? = some bits → o'.slots[i]? = some bits' →
        EqualField H bits bits') : Equal H a c

/-- The same bits, two structs equal in every field, or two arrays with the same elements. -/
inductive EqualField (H : Heap) : Nat → Nat → Prop
  | bits (b : Nat) : EqualField H b b
  | struct {b b' : Nat} (h : Equal H b b') : EqualField H b b'
  | array {b b' : Nat} {elemType : Option V2ElemType} {elems : List (Nat × NativeKind)}
      (source : H.objects b = some (.typedArray elemType elems))
      (copy : H.objects b' = some (.typedArray elemType elems)) : EqualField H b b'

end

/-- What is written over an object that can be written to. -/
def Heap.write (H : Heap) (d : Nat) (x : HeapObject) : Heap :=
  { H with objects := Function.update H.objects d (some x) }

/-- No write through one is visible through the other. -/
def Heap.Unseen (H : Heap) (a c : Nat) : Prop :=
  ∀ d, H.Mutable d → H.Reach a d → ∀ x e, H.Reach c e → (H.write d x).objects e = H.objects e

/-- The clone `c` in `H'` of the struct `a` of `H`. -/
structure IndependentCopy (H : Heap) (a : Nat) (H' : Heap) (c : Nat) : Prop where
  kept : ∀ d x, H.objects d = some x → H'.objects d = some x
  equal : Equal H' a c
  apart : ∀ d, H'.Mutable d → H'.Reach c d → ¬ H'.Reach a d
  unseen : H'.Unseen a c ∧ H'.Unseen c a

/-! ## The three fates of a slot -/

/-- Slot `i` is in the heap mask, not null, and of this kind. -/
def LiveAs (o : TypedObjectStorage Nat) (i bits : Nat) (kind : NativeKind) : Prop :=
  (i < 64 ∧ o.heapMask.getLsbD i) ∧ bits ≠ 0 ∧ o.fieldKinds[i]? = some kind

/-- Slot `i` holds an array that `clone_array` copies. -/
def ArrayAt (H : Heap) (o : TypedObjectStorage Nat) (i bits : Nat) (elemType : V2ElemType)
    (elems : List (Nat × NativeKind)) : Prop :=
  LiveAs o i bits (.ptr .typedArray) ∧ asV2TypedArray H bits = some (elemType, elems)

/-- The slot is copied as it is. -/
def Plain (H : Heap) (o : TypedObjectStorage Nat) (i bits : Nat) : Prop :=
  ¬ LiveAs o i bits (.ptr .typedObject) ∧ ∀ elemType elems, ¬ ArrayAt H o i bits elemType elems

/-- The clone of `d` clones the struct `b` in turn. -/
def Nested (H : Heap) (d b : Nat) : Prop :=
  ∃ o i, H.objects d = some (.typedObject o) ∧ o.slots[i]? = some b ∧ LiveAs o i b (.ptr .typedObject)

/-- The clone of `d` refers to `b`, as `d` does or as an array of `d` does. -/
inductive Shares (H : Heap) : Nat → Nat → Prop
  | field {d b i : Nat} {o : TypedObjectStorage Nat} {kind : NativeKind}
      (source : H.objects d = some (.typedObject o)) (slot : o.slots[i]? = some b)
      (kind_eq : o.fieldKinds[i]? = some kind) (refers : referent (b, kind) = some b)
      (plain : Plain H o i b) : Shares H d b
  | element {d b i bits : Nat} {o : TypedObjectStorage Nat} {elemType : V2ElemType}
      {elems : List (Nat × NativeKind)} {value : Nat × NativeKind}
      (source : H.objects d = some (.typedObject o)) (slot : o.slots[i]? = some bits)
      (array : ArrayAt H o i bits elemType elems) (mem : value ∈ elems)
      (refers : referent value = some b) : Shares H d b

/-- The structs that the clone of `a` goes through. -/
abbrev Below (H : Heap) : Nat → Nat → Prop := Relation.ReflTransGen (Nested H)

/-- No struct on the way down lies on a cycle, and nothing shared leads to what can be written to. -/
structure Clonable (H : Heap) (a : Nat) : Prop where
  acyclic : ∀ d, Below H a d → ¬ Relation.TransGen (Nested H) d d
  unshared : ∀ d b e, Below H a d → Shares H d b → H.Reach b e → ¬ H.Mutable e

/-! ## What a clone has built -/

/-- The objects that are there stay as they are. -/
def Heap.Keeps (H H' : Heap) : Prop := ∀ d x, H.objects d = some x → H'.objects d = some x

theorem Heap.Keeps.refl (H : Heap) : H.Keeps H := fun _ _ h => h

theorem Heap.Keeps.trans {H H' H'' : Heap} (h : H.Keeps H') (h' : H'.Keeps H'') : H.Keeps H'' :=
  fun d x hd => h' d x (h d x hd)

/-- `c` in `H'` is what the clone makes of the struct `a` of `H`, slot by slot. -/
inductive Built (H H' : Heap) : Nat → Nat → Prop
  | intro {a c : Nat} {o : TypedObjectStorage Nat} {slots : List Nat}
      (source : H.objects a = some (.typedObject o))
      (copy : H'.objects c = some (.typedObject { o with slots })) (fresh : H.next ≤ c)
      (length : slots.length = o.slots.length)
      (struct : ∀ i bits bits', o.slots[i]? = some bits → slots[i]? = some bits' →
        LiveAs o i bits (.ptr .typedObject) → Built H H' bits bits')
      (array : ∀ i bits bits' elemType elems, o.slots[i]? = some bits → slots[i]? = some bits' →
        ArrayAt H o i bits elemType elems →
          H.next ≤ bits' ∧ H'.objects bits' = some (.typedArray (some elemType) elems))
      (plain : ∀ i bits bits', o.slots[i]? = some bits → slots[i]? = some bits' → Plain H o i bits →
        bits' = bits) : Built H H' a c

theorem Built.mono {H H' H'' : Heap} {a c : Nat} (hkeeps : H'.Keeps H'') (h : Built H H' a c) :
    Built H H'' a c := by
  induction h with
  | intro source copy fresh length _ array plain ih =>
    refine .intro source (hkeeps _ _ copy) fresh length ih ?_ plain
    intro i bits bits' elemType elems hbits hbits' harray
    have hcopied := array i bits bits' elemType elems hbits hbits' harray
    exact ⟨hcopied.1, hkeeps _ _ hcopied.2⟩

/-- What a slot has become. -/
structure SlotBuilt (H H' : Heap) (o : TypedObjectStorage Nat) (i bits bits' : Nat) : Prop where
  struct : LiveAs o i bits (.ptr .typedObject) → Built H H' bits bits'
  array : ∀ elemType elems, ArrayAt H o i bits elemType elems →
    H.next ≤ bits' ∧ H'.objects bits' = some (.typedArray (some elemType) elems)
  plain : Plain H o i bits → bits' = bits

theorem SlotBuilt.mono {H H' H'' : Heap} {o : TypedObjectStorage Nat} {i bits bits' : Nat}
    (hkeeps : H'.Keeps H'') (h : SlotBuilt H H' o i bits bits') : SlotBuilt H H'' o i bits bits' :=
  ⟨fun hlive => (h.struct hlive).mono hkeeps,
    fun elemType elems harray =>
      ⟨(h.array elemType elems harray).1, hkeeps _ _ (h.array elemType elems harray).2⟩,
    h.plain⟩

/-- The heap in the course of the clone of `r`: nothing old has changed, and what is new refers to what is
new and to what is shared. -/
structure Cloning (H : Heap) (r : Nat) (H' : Heap) : Prop where
  keeps : H.Keeps H'
  next_le : H.next ≤ H'.next
  allocated : ∀ d x, H'.objects d = some x → d < H'.next
  fresh : ∀ d x b, H'.objects d = some x → H.objects d = none → b ∈ x.refs →
    H.objects b = none ∨ ∃ e, Below H r e ∧ Shares H e b

theorem Cloning.start {H : Heap} (hsound : H.Sound) (r : Nat) : Cloning H r H := by
  refine ⟨.refl H, le_rfl, hsound.allocated, ?_⟩
  intro d x b hd hnone
  rw [hnone] at hd
  exact absurd hd (by simp)

/-! ### Allocation -/

section Alloc

variable {H H' : Heap} {r : Nat} {x : HeapObject}

theorem Heap.alloc_self (H : Heap) (x : HeapObject) : (H.alloc x).2.objects (H.alloc x).1 = some x := by
  simp [Heap.alloc]

theorem Heap.alloc_of_ne {d : Nat} (hd : d ≠ H.next) (x : HeapObject) :
    (H.alloc x).2.objects d = H.objects d := by
  simp [Heap.alloc, hd]

theorem Heap.alloc_eq_some {d : Nat} {y : HeapObject} (h : (H.alloc x).2.objects d = some y) :
    (d = H.next ∧ y = x) ∨ H.objects d = some y := by
  by_cases hd : d = H.next
  · subst hd
    have hy : some x = some y := (H.alloc_self x).symm.trans h
    exact Or.inl ⟨rfl, (Option.some.inj hy).symm⟩
  · exact Or.inr ((Heap.alloc_of_ne hd x).symm.trans h)

theorem Cloning.keeps_alloc (h : Cloning H r H') (x : HeapObject) : H'.Keeps (H'.alloc x).2 := by
  intro d y hd
  have hne : d ≠ H'.next := (h.allocated d y hd).ne
  exact (Heap.alloc_of_ne hne x).trans hd

theorem Heap.Sound.unused (hsound : H.Sound) {d : Nat} (h : H.next ≤ d) : H.objects d = none := by
  by_contra hne
  obtain ⟨y, hy⟩ := Option.ne_none_iff_exists'.mp hne
  have hlt := hsound.allocated d y hy
  omega

theorem Cloning.alloc (h : Cloning H r H')
    (hx : ∀ b ∈ x.refs, H.objects b = none ∨ ∃ e, Below H r e ∧ Shares H e b) :
    Cloning H r (H'.alloc x).2 := by
  refine ⟨h.keeps.trans (h.keeps_alloc x), Nat.le_succ_of_le h.next_le, ?_, ?_⟩
  · intro d y hd
    show d < H'.next + 1
    rcases Heap.alloc_eq_some hd with ⟨rfl, -⟩ | hold
    · omega
    · exact Nat.lt_succ_of_lt (h.allocated d y hold)
  · intro d y b hd hnone hb
    rcases Heap.alloc_eq_some hd with ⟨-, rfl⟩ | hold
    · exact hx b hb
    · exact h.fresh d y b hold hnone hb

end Alloc

/-! ### One slot, all slots, one struct -/

section Spec

variable {H H' H'' : Heap} {r a c i bits bits' : Nat} {o : TypedObjectStorage Nat}
variable {clone : Heap → Nat → Except CloneError (Nat × Heap)}

variable {b : Nat}

theorem referent_eq_some {value : Nat × NativeKind} :
    referent value = some b ↔ value.2.holdsShare ∧ value.1 ≠ 0 ∧ value.1 = b := by
  unfold referent
  split
  · rename_i h
    simp [h.1, h.2]
  · rename_i h
    simp only [reduceCtorEq, false_iff]
    exact fun hb => h ⟨hb.1, hb.2.1⟩

theorem mem_refs_typedObject :
    b ∈ (HeapObject.typedObject o).refs ↔
      ∃ (i : Nat) (kind : NativeKind), o.slots[i]? = some b ∧ o.fieldKinds[i]? = some kind ∧
        referent (b, kind) = some b := by
  unfold HeapObject.refs HeapObject.values
  constructor
  · intro hb
    obtain ⟨⟨bits, kind⟩, hmem, href⟩ := List.mem_filterMap.mp hb
    obtain rfl : bits = b := (referent_eq_some.mp href).2.2
    obtain ⟨i, hi⟩ := List.getElem?_of_mem hmem
    have hboth := List.getElem?_zip_eq_some.mp hi
    exact ⟨i, kind, hboth.1, hboth.2, href⟩
  · rintro ⟨i, kind, hslot, hkind, href⟩
    refine List.mem_filterMap.mpr ⟨(b, kind), ?_, href⟩
    exact List.mem_of_getElem? (List.getElem?_zip_eq_some.mpr ⟨hslot, hkind⟩)

theorem LiveAs.mem_refs {kind : NativeKind} (h : LiveAs o i bits kind) (hslot : o.slots[i]? = some bits)
    (hkind : kind.holdsShare) : bits ∈ (HeapObject.typedObject o).refs :=
  mem_refs_typedObject.mpr ⟨i, kind, hslot, h.2.2, referent_eq_some.mpr ⟨hkind, h.2.1, rfl⟩⟩

/-- An array is the same at every stage of the clone. -/
theorem asV2TypedArray_kept (hsound : H.Sound) (hkeeps : H.Keeps H')
    (hsource : H.objects a = some (.typedObject o)) (hslot : o.slots[i]? = some bits)
    (hlive : LiveAs o i bits (.ptr .typedArray)) : asV2TypedArray H' bits = asV2TypedArray H bits := by
  obtain ⟨y, hy⟩ := hsound.live a _ bits hsource (hlive.mem_refs hslot rfl)
  unfold asV2TypedArray
  rw [hy, hkeeps bits y hy]

/-- What a round of the loop does. -/
theorem cloneSlot_cases {res : Nat × Heap} (h : cloneSlot clone o i bits H' = .ok res) :
    (LiveAs o i bits (.ptr .typedObject) ∧ clone H' bits = .ok res) ∨
    (∃ elemType elems, ArrayAt H' o i bits elemType elems ∧ res = cloneArray H' elemType elems) ∨
    (Plain H' o i bits ∧ res = (bits, H')) := by
  unfold cloneSlot at h
  -- a slot that is not in the mask, or null
  split at h
  · rename_i hdead
    have hnot : ∀ kind, ¬ LiveAs o i bits kind := fun kind hlive =>
      hdead.elim (fun hmask => hmask hlive.1) fun hnull => hlive.2.1 hnull
    exact Or.inr (Or.inr ⟨⟨hnot _, fun _ _ harray => hnot _ harray.1⟩, (Except.ok.inj h).symm⟩)
  · rename_i hmask
    rw [not_or, not_not] at hmask
    split at h
    · cases h
    · rename_i hkind
      exact Or.inl ⟨⟨hmask.1, hmask.2, hkind⟩, h⟩
    -- a typed array is copied element by element, if the view of it succeeds
    · rename_i hkind
      have hnot : ¬ LiveAs o i bits (.ptr .typedObject) := fun hlive => by
        have heq := hlive.2.2.symm.trans hkind
        cases heq
      split at h
      · rename_i elemType elems hview
        exact Or.inr (Or.inl ⟨elemType, elems, ⟨⟨hmask.1, hmask.2, hkind⟩, hview⟩, (Except.ok.inj h).symm⟩)
      · rename_i hview
        refine Or.inr (Or.inr ⟨⟨hnot, fun elemType elems harray => ?_⟩, (Except.ok.inj h).symm⟩)
        have heq := harray.2.symm.trans hview
        cases heq
    -- every other kind keeps its bits
    · rename_i kind hne hne' hkind
      refine Or.inr (Or.inr ⟨⟨fun hlive => ?_, fun elemType elems harray => ?_⟩, (Except.ok.inj h).symm⟩)
      · exact hne (Option.some.inj (hkind.symm.trans hlive.2.2))
      · exact hne' (Option.some.inj (hkind.symm.trans harray.1.2.2))

/-- What the clone of a nested struct is relied on for. -/
def Clones (H : Heap) (r a : Nat) (clone : Heap → Nat → Except CloneError (Nat × Heap)) : Prop :=
  ∀ H' b c H'', Nested H a b → Cloning H r H' → clone H' b = .ok (c, H'') →
    Cloning H r H'' ∧ H'.Keeps H'' ∧ Built H H'' b c

theorem cloneSlot_spec (hsound : H.Sound) (hclone : Clones H r a clone) (hbelow : Below H r a)
    (hsource : H.objects a = some (.typedObject o)) (hslot : o.slots[i]? = some bits)
    (hcloning : Cloning H r H') (h : cloneSlot clone o i bits H' = .ok (bits', H'')) :
    Cloning H r H'' ∧ H'.Keeps H'' ∧ SlotBuilt H H'' o i bits bits' := by
  -- what the clone has allocated does not change how the source is read
  have hview : LiveAs o i bits (.ptr .typedArray) → asV2TypedArray H' bits = asV2TypedArray H bits :=
    asV2TypedArray_kept hsound hcloning.keeps hsource hslot
  have hkinds : ¬ (LiveAs o i bits (.ptr .typedObject) ∧ LiveAs o i bits (.ptr .typedArray)) := by
    rintro ⟨hobject, harray⟩
    have heq := hobject.2.2.symm.trans harray.2.2
    cases heq
  rcases cloneSlot_cases h with ⟨hlive, hok⟩ | ⟨elemType, elems, harray, hres⟩ | ⟨hplain, hres⟩
  · obtain ⟨hcloning', hkeeps, hbuilt⟩ :=
      hclone H' bits bits' H'' ⟨o, i, hsource, hslot, hlive⟩ hcloning hok
    exact ⟨hcloning', hkeeps, fun _ => hbuilt, fun _ _ harray => absurd ⟨hlive, harray.1⟩ hkinds,
      fun hplain => absurd hlive hplain.1⟩
  -- the new array refers to the elements of the old one
  · obtain ⟨rfl, rfl⟩ := Prod.mk.inj hres
    have harrayH : ArrayAt H o i bits elemType elems := ⟨harray.1, (hview harray.1).symm.trans harray.2⟩
    refine ⟨hcloning.alloc ?_, hcloning.keeps_alloc _, fun hlive => absurd ⟨hlive, harray.1⟩ hkinds, ?_,
      fun hplain => absurd harrayH (hplain.2 elemType elems)⟩
    · intro b hb
      obtain ⟨value, hmem, href⟩ := List.mem_filterMap.mp hb
      exact Or.inr ⟨a, hbelow, .element hsource hslot harrayH hmem href⟩
    · intro elemType' elems' harray'
      obtain ⟨rfl, rfl⟩ := Prod.mk.inj (Option.some.inj (harrayH.2.symm.trans harray'.2))
      exact ⟨hcloning.next_le, H'.alloc_self _⟩
  · obtain ⟨rfl, rfl⟩ := Prod.mk.inj hres
    refine ⟨hcloning, .refl _, fun hlive => absurd hlive hplain.1, ?_, fun _ => rfl⟩
    intro elemType elems harray
    exact absurd ⟨harray.1, (hview harray.1).trans harray.2⟩ (hplain.2 elemType elems)

variable {slots : List Nat}

theorem slots_tail (hslots : ∀ j, (bits :: slots)[j]? = o.slots[i + j]?) (j : Nat) :
    slots[j]? = o.slots[i + 1 + j]? := by
  have hj := hslots (j + 1)
  rwa [List.getElem?_cons_succ, show i + (j + 1) = i + 1 + j by omega] at hj

/-- The loop over the slots of `o` from slot `i` on. -/
theorem cloneSlots_spec (hsound : H.Sound) (hclone : Clones H r a clone) (hbelow : Below H r a)
    (hsource : H.objects a = some (.typedObject o)) {slots' : List Nat}
    (hslots : ∀ j, slots[j]? = o.slots[i + j]?) (hcloning : Cloning H r H')
    (h : cloneSlots clone o i slots H' = .ok (slots', H'')) :
    Cloning H r H'' ∧ H'.Keeps H'' ∧ slots'.length = slots.length ∧
      ∀ j bits bits', slots[j]? = some bits → slots'[j]? = some bits' →
        SlotBuilt H H'' o (i + j) bits bits' := by
  induction slots generalizing i H' slots' with
  | nil =>
    obtain ⟨rfl, rfl⟩ := Prod.mk.inj (Except.ok.inj h)
    exact ⟨hcloning, .refl _, rfl, fun j bits bits' hbits => absurd hbits (by simp)⟩
  | cons bits slots ih =>
    -- the loop threads the heap: first this slot, then the rest of the slots
    obtain ⟨⟨b, H₁⟩, hfirst, h⟩ := Fallible.bind_eq_ok.mp h
    obtain ⟨⟨bs, H₂⟩, hrest, h⟩ := Fallible.bind_eq_ok.mp h
    obtain ⟨rfl, rfl⟩ := Prod.mk.inj (Except.ok.inj h)
    have hslot : o.slots[i]? = some bits := (hslots 0).symm
    obtain ⟨hcloning₁, hkeeps₁, hbuilt₁⟩ :=
      cloneSlot_spec hsound hclone hbelow hsource hslot hcloning hfirst
    obtain ⟨hcloning₂, hkeeps₂, hlength, hbuilt₂⟩ := ih (slots_tail hslots) hcloning₁ hrest
    refine ⟨hcloning₂, hkeeps₁.trans hkeeps₂, by simp [hlength], ?_⟩
    intro j bits₁ bits₂ hj hj'
    cases j with
    | zero =>
      obtain rfl := Option.some.inj hj
      obtain rfl := Option.some.inj hj'
      exact hbuilt₁.mono hkeeps₂
    | succ j =>
      rw [show i + (j + 1) = i + 1 + j by omega]
      exact hbuilt₂ j bits₁ bits₂ hj hj'

/-- The new struct refers to what is new and to what is shared. -/
theorem SlotBuilt.fresh_or_shared (hsound : H.Sound) (hsource : H.objects a = some (.typedObject o))
    (hlength : slots.length = o.slots.length)
    (hbuilt : ∀ i bits bits', o.slots[i]? = some bits → slots[i]? = some bits' →
      SlotBuilt H H' o i bits bits')
    (hb : b ∈ (HeapObject.typedObject { o with slots }).refs) :
    H.objects b = none ∨ Shares H a b := by
  obtain ⟨i, kind, hslot, hkind, href⟩ := mem_refs_typedObject.mp hb
  have hlt : i < o.slots.length := hlength ▸ (List.getElem?_eq_some_iff.mp hslot).1
  have hold : o.slots[i]? = some o.slots[i] := List.getElem?_eq_getElem hlt
  have hmade := hbuilt i _ b hold hslot
  by_cases hstruct : LiveAs o i o.slots[i] (.ptr .typedObject)
  · cases hmade.struct hstruct with
    | intro _ _ fresh => exact Or.inl (hsound.unused fresh)
  · by_cases harray : ∃ elemType elems, ArrayAt H o i o.slots[i] elemType elems
    · obtain ⟨elemType, elems, harray⟩ := harray
      exact Or.inl (hsound.unused (hmade.array elemType elems harray).1)
    · have hplain : Plain H o i o.slots[i] :=
        ⟨hstruct, fun elemType elems h => harray ⟨elemType, elems, h⟩⟩
      rw [hmade.plain hplain] at href ⊢
      exact Or.inr (.field hsource hold hkind href hplain)

theorem Nested.struct (hsound : H.Sound) (h : Nested H a b) :
    ∃ o, H.objects b = some (.typedObject o) := by
  obtain ⟨o, i, hsource, hslot, hlive⟩ := h
  have hvalue : (b, NativeKind.ptr .typedObject) ∈ (HeapObject.typedObject o).values :=
    List.mem_of_getElem? (List.getElem?_zip_eq_some.mpr ⟨hslot, hlive.2.2⟩)
  exact hsound.structs a _ b hsource hvalue hlive.2.1

/-- **What a clone that returns has built.** -/
theorem deepClone_spec (hsound : H.Sound) (depth : Nat) (hbelow : Below H r a) (hcloning : Cloning H r H')
    (hstruct : ∃ o, H.objects a = some (.typedObject o)) (h : deepClone depth H' a = .ok (c, H'')) :
    Cloning H r H'' ∧ H'.Keeps H'' ∧ Built H H'' a c := by
  induction depth generalizing a c H' H'' with
  | zero => cases h
  | succ depth ih =>
    obtain ⟨o, hsource⟩ := hstruct
    unfold deepClone at h
    rw [hcloning.keeps a _ hsource] at h
    obtain ⟨⟨slots, H₁⟩, hslots, h⟩ := Fallible.bind_eq_ok.mp h
    -- the struct below a field is one level deeper, and still below the root
    have hclone : Clones H r a (deepClone depth) := fun _ _ _ _ hnested hcloning₂ hok =>
      ih (hbelow.tail hnested) hcloning₂ (hnested.struct hsound) hok
    obtain ⟨hcloning₁, hkeeps₁, hlength, hbuilt⟩ :=
      cloneSlots_spec hsound hclone hbelow hsource (fun j => by rw [Nat.zero_add]) hcloning hslots
    simp only [Nat.zero_add] at hbuilt
    obtain ⟨rfl, rfl⟩ := Prod.mk.inj (Except.ok.inj h)
    have hkeeps := hcloning₁.keeps_alloc (.typedObject { o with slots })
    -- what the new struct refers to is new, or shared with the source
    refine ⟨hcloning₁.alloc ?_, hkeeps₁.trans hkeeps, ?_⟩
    · intro b hb
      rcases SlotBuilt.fresh_or_shared hsound hsource hlength hbuilt hb with hnew | hshared
      · exact Or.inl hnew
      · exact Or.inr ⟨a, hbelow, hshared⟩
    · refine .intro hsource (H₁.alloc_self _) hcloning₁.next_le hlength ?_ ?_ ?_
      · intro i bits bits' hbits hbits' hlive
        exact ((hbuilt i bits bits' hbits hbits').struct hlive).mono hkeeps
      · intro i bits bits' elemType elems hbits hbits' harray
        have hcopied := (hbuilt i bits bits' hbits hbits').array elemType elems harray
        exact ⟨hcopied.1, hkeeps _ _ hcopied.2⟩
      · intro i bits bits' hbits hbits' hplain
        exact (hbuilt i bits bits' hbits hbits').plain hplain

theorem deepClone_clones (hsound : H.Sound) (depth : Nat) (hbelow : Below H r a) :
    Clones H r a (deepClone depth) := fun _ _ _ _ hnested hcloning h =>
  deepClone_spec hsound depth (hbelow.tail hnested) hcloning (hnested.struct hsound) h

/-! ### When the clone returns -/

/-- With enough stack the clone of `a` returns, whatever has been cloned before. -/
def Returns (H : Heap) (r a : Nat) : Prop :=
  ∃ depth, ∀ n, depth ≤ n → ∀ H', Cloning H r H' → ∃ res, deepClone n H' a = .ok res

theorem cloneSlot_returns (hsound : H.Sound) (hsource : H.objects a = some (.typedObject o))
    (hslot : o.slots[i]? = some bits)
    (hclone : LiveAs o i bits (.ptr .typedObject) → ∃ res, clone H' bits = .ok res) :
    ∃ res, cloneSlot clone o i bits H' = .ok res := by
  unfold cloneSlot
  split
  · exact ⟨_, rfl⟩
  · rename_i hmask
    rw [not_or, not_not] at hmask
    have hlt : i < o.fieldKinds.length :=
      hsound.kinds a o hsource ▸ (List.getElem?_eq_some_iff.mp hslot).1
    split
    · rename_i hnone
      rw [List.getElem?_eq_getElem hlt] at hnone
      cases hnone
    · rename_i hkind
      exact hclone ⟨hmask.1, hmask.2, hkind⟩
    · split
      · exact ⟨_, rfl⟩
      · exact ⟨_, rfl⟩
    · exact ⟨_, rfl⟩

theorem cloneSlots_returns (hsound : H.Sound) (hbelow : Below H r a)
    (hsource : H.objects a = some (.typedObject o)) (hreturns : ∀ b, Nested H a b → Returns H r b)
    (hslots : ∀ j, slots[j]? = o.slots[i + j]?) :
    ∃ depth, ∀ n, depth ≤ n → ∀ H', Cloning H r H' →
      ∃ res, cloneSlots (deepClone n) o i slots H' = .ok res := by
  induction slots generalizing i with
  | nil => exact ⟨0, fun n _ H' _ => ⟨_, rfl⟩⟩
  | cons bits slots ih =>
    have hslot : o.slots[i]? = some bits := (hslots 0).symm
    obtain ⟨rest, hrest⟩ := ih (slots_tail hslots)
    -- the depth this slot asks for: none, unless it holds a struct
    have hfirst : ∃ depth, ∀ n, depth ≤ n → ∀ H', Cloning H r H' →
        ∃ res, cloneSlot (deepClone n) o i bits H' = .ok res := by
      by_cases hlive : LiveAs o i bits (.ptr .typedObject)
      · obtain ⟨depth, hdepth⟩ := hreturns bits ⟨o, i, hsource, hslot, hlive⟩
        exact ⟨depth, fun n hn H' hcloning =>
          cloneSlot_returns hsound hsource hslot fun _ => hdepth n hn H' hcloning⟩
      · exact ⟨0, fun n _ H' _ => cloneSlot_returns hsound hsource hslot fun h => absurd h hlive⟩
    obtain ⟨first, hfirst⟩ := hfirst
    refine ⟨max first rest, fun n hn H' hcloning => ?_⟩
    obtain ⟨⟨b, H₁⟩, hb⟩ := hfirst n (le_of_max_le_left hn) H' hcloning
    have hcloning₁ :=
      (cloneSlot_spec hsound (deepClone_clones hsound n hbelow) hbelow hsource hslot hcloning hb).1
    obtain ⟨⟨bs, H₂⟩, hbs⟩ := hrest n (le_of_max_le_right hn) H₁ hcloning₁
    refine ⟨(b :: bs, H₂), Fallible.bind_eq_ok.mpr ⟨(b, H₁), hb, ?_⟩⟩
    exact Fallible.bind_eq_ok.mpr ⟨(bs, H₂), hbs, rfl⟩

theorem returns_of_acc (hsound : H.Sound) (hacc : Acc (flip (Nested H)) a) (hbelow : Below H r a)
    (hstruct : ∃ o, H.objects a = some (.typedObject o)) : Returns H r a := by
  induction hacc with
  | intro a _ ih =>
    obtain ⟨o, hsource⟩ := hstruct
    obtain ⟨depth, hdepth⟩ := cloneSlots_returns hsound hbelow hsource
      (fun b hb => ih b hb (hbelow.tail hb) (hb.struct hsound)) (i := 0) (fun j => by rw [Nat.zero_add])
    refine ⟨depth + 1, fun n hn H' hcloning => ?_⟩
    obtain ⟨n, rfl⟩ : ∃ m, n = m + 1 := ⟨n - 1, by omega⟩
    obtain ⟨⟨slots, H₁⟩, hslots⟩ := hdepth n (by omega) H' hcloning
    refine ⟨H₁.alloc (.typedObject { o with slots }), ?_⟩
    unfold deepClone
    rw [hcloning.keeps a _ hsource]
    exact Fallible.bind_eq_ok.mpr ⟨(slots, H₁), hslots, rfl⟩

/-- A clone has gone down every way there is. -/
theorem Built.acc (h : Built H H' a c) : Acc (flip (Nested H)) a := by
  induction h with
  | @intro a c o slots source copy fresh length struct array plain ih =>
    constructor
    rintro b ⟨o', i, hsource, hslot, hlive⟩
    obtain rfl : o = o' := by
      have heq := source.symm.trans hsource
      simpa using heq
    have hlt : i < slots.length := length ▸ (List.getElem?_eq_some_iff.mp hslot).1
    exact ih i b slots[i] hslot (List.getElem?_eq_getElem hlt) hlive

theorem below_finite (hsound : H.Sound) (hstruct : ∃ o, H.objects a = some (.typedObject o)) :
    {d | Below H a d}.Finite := by
  refine (Set.finite_Iio H.next).subset fun d hd => ?_
  have hlive : ∃ o, H.objects d = some (.typedObject o) := by
    rcases Relation.ReflTransGen.cases_tail hd with rfl | ⟨e, -, hed⟩
    · exact hstruct
    · exact hed.struct hsound
  obtain ⟨o, ho⟩ := hlive
  exact hsound.allocated d _ ho

/-! ### Equality and separation -/

theorem Built.equal (hkeeps : H.Keeps H') (h : Built H H' a c) : Equal H' a c := by
  induction h with
  | @intro a c o slots source copy fresh length struct array plain ih =>
    refine .intro (hkeeps _ _ source) copy rfl rfl rfl length ?_
    intro i bits bits' hbits hbits'
    by_cases hstruct : LiveAs o i bits (.ptr .typedObject)
    · exact .struct (ih i bits bits' hbits hbits' hstruct)
    · by_cases harray : ∃ elemType elems, ArrayAt H o i bits elemType elems
      · obtain ⟨elemType, elems, harray⟩ := harray
        have hview := harray.2
        unfold asV2TypedArray at hview
        split at hview
        · rename_i elemType' elems' hobj
          obtain ⟨rfl, rfl⟩ := Prod.mk.inj (Option.some.inj hview)
          exact .array (hkeeps _ _ hobj) (array i bits bits' _ _ hbits hbits' harray).2
        · cases hview
      · rw [plain i bits bits' hbits hbits' ⟨hstruct, fun elemType elems h => harray ⟨elemType, elems, h⟩⟩]
        exact .bits bits

theorem refers_iff :
    ObjectGraph.Refers H.cell a b ↔ ∃ x, H.objects a = some x ∧ b ∈ x.refs := by
  unfold ObjectGraph.Refers Heap.cell
  constructor
  · rintro ⟨k, hk⟩
    obtain ⟨x, hx, hb⟩ := Option.bind_eq_some_iff.mp hk
    exact ⟨x, hx, List.mem_of_getElem? hb⟩
  · rintro ⟨x, hx, hb⟩
    obtain ⟨k, hk⟩ := List.getElem?_of_mem hb
    exact ⟨k, Option.bind_eq_some_iff.mpr ⟨x, hx, hk⟩⟩

theorem reach_of_mem_refs {x : HeapObject} (hx : H.objects a = some x) (hb : b ∈ x.refs) :
    H.Reach a b := Relation.ReflTransGen.single (refers_iff.mpr ⟨x, hx, hb⟩)

theorem Heap.Keeps.reach (hkeeps : H.Keeps H') (h : H.Reach a b) : H'.Reach a b := by
  induction h with
  | refl => exact .refl a
  | tail _ hrefers ih =>
    obtain ⟨x, hx, hb⟩ := refers_iff.mp hrefers
    exact ih.trans (reach_of_mem_refs (hkeeps _ x hx) hb)

/-- What the old objects reach, they reached before. -/
theorem Heap.Keeps.reach_back (hsound : H.Sound) (hkeeps : H.Keeps H') {x : HeapObject}
    (ha : H.objects a = some x) (h : H'.Reach a b) :
    H.Reach a b ∧ ∃ y, H.objects b = some y := by
  have hclosed : ∀ d ∈ {d | ∃ y, H.objects d = some y}, ∀ k e, H.cell d k = some e →
      e ∈ {d | ∃ y, H.objects d = some y} := by
    intro d _ k e hk
    obtain ⟨y, hy, he⟩ := refers_iff.mp ⟨k, hk⟩
    exact hsound.live d y e hy he
  refine ObjectGraph.reach_of_eqOn hclosed ?_ ⟨x, ha⟩ h
  rintro d ⟨y, hy⟩
  funext k
  unfold Heap.cell
  rw [hy, hkeeps d y hy]

/-- What a change keeps of an object it keeps in full. -/
theorem Heap.Keeps.mutable_iff (hkeeps : H.Keeps H') {x : HeapObject} (ha : H.objects a = some x) :
    H'.Mutable a ↔ H.Mutable a := by
  unfold Heap.Mutable
  rw [ha, hkeeps a x ha]

theorem apart_of_unshared (hsound : H.Sound) (hsource : H.objects a = some (.typedObject o))
    (hcloning : Cloning H a H') (hc : H.next ≤ c)
    (hunshared : ∀ d b e, Below H a d → Shares H d b → H.Reach b e → ¬ H.Mutable e) {d : Nat}
    (hmutable : H'.Mutable d) (hreach : H'.Reach c d) : ¬ H'.Reach a d := by
  intro hreach'
  obtain ⟨-, x, hd⟩ := hcloning.keeps.reach_back hsound hsource hreach'
  -- the path from the clone enters the old objects through something shared
  obtain ⟨y, hy, e, he, hye, hed⟩ := ObjectGraph.exists_crossing (S := {d | H.objects d = none}) hreach
    (hsound.unused hc) (by simp [hd])
  obtain ⟨z, hz⟩ := Option.ne_none_iff_exists'.mp he
  obtain ⟨w, hw, hmem⟩ := refers_iff.mp hye
  rcases hcloning.fresh y w e hw hy hmem with hnone | ⟨b, hb, hshares⟩
  · exact he hnone
  · have hold := (hcloning.keeps.reach_back hsound hz hed).1
    exact hunshared b e d hb hshares hold ((hcloning.keeps.mutable_iff hd).mp hmutable)

/-- The clone of a nested struct is nested in the clone. -/
theorem Built.nested (hsound : H.Sound) (h : Built H H' a c) (hb : Nested H a b) :
    ∃ c', Built H H' b c' ∧ H'.Reach c c' := by
  cases h with
  | @intro _ _ o slots source copy fresh length struct array plain =>
    obtain ⟨o', i, hsource, hslot, hlive⟩ := hb
    obtain rfl : o = o' := by simpa using source.symm.trans hsource
    have hlt : i < slots.length := length ▸ (List.getElem?_eq_some_iff.mp hslot).1
    have hslot' := List.getElem?_eq_getElem hlt
    have hbuilt := struct i b slots[i] hslot hslot' hlive
    have hpos : slots[i] ≠ 0 := by
      cases hbuilt with
      | intro _ _ hle =>
        have hpos := hsound.allocated a _ source
        omega
    refine ⟨slots[i], hbuilt, reach_of_mem_refs copy ?_⟩
    exact mem_refs_typedObject.mpr ⟨i, _, hslot', hlive.2.2, referent_eq_some.mpr ⟨rfl, hpos, rfl⟩⟩

theorem Built.of_below (hsound : H.Sound) (h : Built H H' a c) {d : Nat} (hd : Below H a d) :
    ∃ c', Built H H' d c' ∧ H'.Reach c c' := by
  induction hd with
  | refl => exact ⟨c, h, .refl c⟩
  | tail _ hnested ih =>
    obtain ⟨c₁, hbuilt₁, hreach₁⟩ := ih
    obtain ⟨c₂, hbuilt₂, hreach₂⟩ := hbuilt₁.nested hsound hnested
    exact ⟨c₂, hbuilt₂, hreach₁.trans hreach₂⟩

/-- The clone reaches what is shared. -/
theorem Built.reach_shared (hsound : H.Sound) (h : Built H H' a c) (hb : Shares H a b) :
    H'.Reach c b := by
  cases h with
  | @intro _ _ o slots source copy fresh length struct array plain =>
    cases hb with
    | @field i o' kind hsource hslot hkind href hplain =>
      obtain rfl : o = o' := by simpa using source.symm.trans hsource
      have hlt : i < slots.length := length ▸ (List.getElem?_eq_some_iff.mp hslot).1
      have hslot' := List.getElem?_eq_getElem hlt
      have hsame := plain i b slots[i] hslot hslot' hplain
      rw [hsame] at hslot'
      exact reach_of_mem_refs copy (mem_refs_typedObject.mpr ⟨i, kind, hslot', hkind, href⟩)
    | @element i bits o' elemType elems value hsource hslot harray hmem href =>
      obtain rfl : o = o' := by simpa using source.symm.trans hsource
      have hlt : i < slots.length := length ▸ (List.getElem?_eq_some_iff.mp hslot).1
      have hslot' := List.getElem?_eq_getElem hlt
      have hcopied := array i bits slots[i] elemType elems hslot hslot' harray
      have hpos : slots[i] ≠ 0 := by
        have hpos := hsound.allocated a _ source
        have hle := hcopied.1
        omega
      have hfirst : H'.Reach c slots[i] := reach_of_mem_refs copy
        (mem_refs_typedObject.mpr ⟨i, _, hslot', harray.1.2.2, referent_eq_some.mpr ⟨rfl, hpos, rfl⟩⟩)
      exact hfirst.trans (reach_of_mem_refs hcopied.2 (List.mem_filterMap.mpr ⟨value, hmem, href⟩))

end Spec

/-! ## When the clone is an independent copy -/

section Main

variable {H H' : Heap} {a c : Nat}

theorem Below.reach {d : Nat} (h : Below H a d) : H.Reach a d := by
  induction h with
  | refl => exact .refl a
  | tail _ hnested ih =>
    obtain ⟨o, i, hsource, hslot, hlive⟩ := hnested
    exact ih.trans (reach_of_mem_refs hsource (hlive.mem_refs hslot rfl))

theorem Shares.reach {d b : Nat} (h : Shares H d b) : H.Reach d b := by
  cases h with
  | @field i o kind hsource hslot hkind href _ =>
    exact reach_of_mem_refs hsource (mem_refs_typedObject.mpr ⟨i, kind, hslot, hkind, href⟩)
  | @element i bits o elemType elems value hsource hslot harray hmem href =>
    have hview := harray.2
    unfold asV2TypedArray at hview
    split at hview
    · rename_i elemType' elems' hobj
      obtain ⟨rfl, rfl⟩ := Prod.mk.inj (Option.some.inj hview)
      have hfirst := reach_of_mem_refs hsource (harray.1.mem_refs hslot rfl)
      exact hfirst.trans (reach_of_mem_refs hobj (List.mem_filterMap.mpr ⟨value, hmem, href⟩))
    · cases hview

/-- What is reachable from both is all that a write can show. -/
theorem unseen_of_apart (h : ∀ d, H.Mutable d → H.Reach a d → ¬ H.Reach c d) : H.Unseen a c := by
  intro d hmutable hreach x e he
  have hne : e ≠ d := fun heq => h d hmutable hreach (heq ▸ he)
  exact Function.update_of_ne hne (some x) H.objects

/-- **Exactly when the clone is an independent copy.** -/
theorem independentCopy_iff (hsound : H.Sound) (hstruct : ∃ o, H.objects a = some (.typedObject o)) :
    (∃ depth c H', deepClone depth H a = .ok (c, H') ∧ IndependentCopy H a H' c) ↔ Clonable H a := by
  obtain ⟨o, hsource⟩ := hstruct
  have hstart := Cloning.start hsound a
  constructor
  · rintro ⟨depth, c, H', hok, hcopy⟩
    obtain ⟨hcloning, -, hbuilt⟩ := deepClone_spec hsound depth .refl hstart ⟨o, hsource⟩ hok
    refine ⟨fun d hd => ObjectGraph.acyclic_of_acc hbuilt.acc hd, ?_⟩
    intro d b e hd hshares he hmutable
    -- what is shared is reached from the clone, by way of the clone of `d`
    obtain ⟨c', hbuilt', hreach⟩ := hbuilt.of_below hsound hd
    have hclone : H'.Reach c e := (hreach.trans (hbuilt'.reach_shared hsound hshares)).trans
      (hcloning.keeps.reach he)
    have hsame : H'.Reach a e := hcloning.keeps.reach ((Below.reach hd).trans (hshares.reach.trans he))
    obtain ⟨x, hx, hmut⟩ := hmutable
    exact hcopy.apart e ⟨x, hcloning.keeps e x hx, hmut⟩ hclone hsame
  · intro h
    have hacc := ObjectGraph.acc_of_acyclic (below_finite hsound ⟨o, hsource⟩) h.acyclic
    obtain ⟨depth, hdepth⟩ := returns_of_acc hsound hacc (r := a) .refl ⟨o, hsource⟩
    obtain ⟨⟨c, H'⟩, hok⟩ := hdepth depth le_rfl H hstart
    obtain ⟨hcloning, -, hbuilt⟩ := deepClone_spec hsound depth .refl hstart ⟨o, hsource⟩ hok
    have hfresh : H.next ≤ c := by
      cases hbuilt with
      | intro _ _ fresh => exact fresh
    have hapart : ∀ d, H'.Mutable d → H'.Reach c d → ¬ H'.Reach a d := fun d hmutable hreach =>
      apart_of_unshared hsound hsource hcloning hfresh h.unshared hmutable hreach
    refine ⟨depth, c, H', hok, hcloning.keeps, hbuilt.equal hcloning.keeps, hapart, ?_, ?_⟩
    · exact unseen_of_apart fun d hmutable hreach hreach' => hapart d hmutable hreach' hreach
    · exact unseen_of_apart hapart

end Main

/-! ### A struct in a struct, a struct in itself, a struct in an array -/

/-- The heap with these objects at the addresses 1, 2, … -/
def heapOf (xs : List HeapObject) : Heap :=
  { objects := fun a => if a = 0 then none else xs[a - 1]?, next := xs.length + 1 }

theorem heapOf_eq_some {xs : List HeapObject} {a : Nat} {x : HeapObject} :
    (heapOf xs).objects a = some x ↔ a ≠ 0 ∧ xs[a - 1]? = some x := by
  show (if a = 0 then none else xs[a - 1]?) = some x ↔ _
  split
  · rename_i h
    simp [h]
  · rename_i h
    simp [h]

def HeapObject.isStruct : HeapObject → Bool
  | .typedObject _ => true
  | _ => false

/-- What an object of such a heap has to satisfy. -/
def HeapObject.soundIn (xs : List HeapObject) (x : HeapObject) : Bool :=
  x.refs.all (fun b => b - 1 < xs.length) &&
  (match x with
    | .typedObject o => o.fieldKinds.length == o.slots.length
    | _ => true) &&
  x.values.all fun value =>
    value.2 != .ptr .typedObject || value.1 == 0 || (xs[value.1 - 1]?.map HeapObject.isStruct).getD false

theorem heapOf_sound {xs : List HeapObject} (h : ∀ x ∈ xs, x.soundIn xs) : (heapOf xs).Sound := by
  -- a reference is never null
  have hpos : ∀ {x : HeapObject} {b : Nat}, b ∈ x.refs → b ≠ 0 := by
    intro x b hb
    obtain ⟨value, -, href⟩ := List.mem_filterMap.mp hb
    obtain ⟨-, hne, rfl⟩ := referent_eq_some.mp href
    exact hne
  have hall : ∀ a x, (heapOf xs).objects a = some x → x.soundIn xs := fun a x ha =>
    h x (List.mem_of_getElem? (heapOf_eq_some.mp ha).2)
  simp only [HeapObject.soundIn, Bool.and_eq_true, List.all_eq_true] at hall
  -- addresses, targets, masks, and the kinds of targets
  refine ⟨?_, ?_, ?_, ?_⟩
  · intro a x ha
    obtain ⟨hne, hx⟩ := heapOf_eq_some.mp ha
    have hlt := (List.getElem?_eq_some_iff.mp hx).1
    show a < xs.length + 1
    omega
  · intro a x b ha hb
    have hlt : b - 1 < xs.length := by simpa using (hall a x ha).1.1 b hb
    exact ⟨xs[b - 1], heapOf_eq_some.mpr ⟨hpos hb, List.getElem?_eq_getElem hlt⟩⟩
  · intro a o ha
    simpa using (hall a _ ha).1.2
  · intro a x b ha hb hne
    have hstruct := (hall a x ha).2 _ hb
    cases hx : xs[b - 1]? with
    | none => simp [hx, hne] at hstruct
    | some y =>
      cases y with
      | typedObject o => exact ⟨o, heapOf_eq_some.mpr ⟨hne, hx⟩⟩
      | typedArray _ _ => simp [hx, hne, HeapObject.isStruct] at hstruct
      | other _ => simp [hx, hne, HeapObject.isStruct] at hstruct

/-- `{ at: { x: 5 }, n: 7 }`. -/
def nestedStructs : List HeapObject :=
  [.typedObject
      { schemaId := 1, slots := [2, 7], heapMask := 1, fieldKinds := [.ptr .typedObject, .int64] },
   .typedObject { schemaId := 2, slots := [5], heapMask := 0, fieldKinds := [.int64] }]

/-- A struct whose field is the struct. -/
def selfStruct : List HeapObject :=
  [.typedObject { schemaId := 1, slots := [1], heapMask := 1, fieldKinds := [.ptr .typedObject] }]

/-- `{ items: [{ x: 5 }] }`. -/
def structInArray : List HeapObject :=
  [.typedObject { schemaId := 1, slots := [2], heapMask := 1, fieldKinds := [.ptr .typedArray] },
   .typedArray (some .typedObject) [(3, .ptr .typedObject)],
   .typedObject { schemaId := 2, slots := [5], heapMask := 0, fieldKinds := [.int64] }]

theorem nestedStructs_cases {d : Nat} {o : TypedObjectStorage Nat}
    (h : (heapOf nestedStructs).objects d = some (.typedObject o)) :
    (d = 1 ∧ o = ⟨1, [2, 7], 1, [.ptr .typedObject, .int64]⟩) ∨ (d = 2 ∧ o = ⟨2, [5], 0, [.int64]⟩) := by
  obtain ⟨hne, hx⟩ := heapOf_eq_some.mp h
  have hlt := (List.getElem?_eq_some_iff.mp hx).1
  have hlen : nestedStructs.length = 2 := rfl
  obtain rfl | rfl : d = 1 ∨ d = 2 := by omega
  · exact Or.inl ⟨rfl, by simpa [nestedStructs] using hx.symm⟩
  · exact Or.inr ⟨rfl, by simpa [nestedStructs] using hx.symm⟩

theorem nestedStructs_clonable : Clonable (heapOf nestedStructs) 1 := by
  -- the field leads from the first struct to the second, and nothing leads back
  have hnested : ∀ d b, Nested (heapOf nestedStructs) d b → d < b := by
    rintro d b ⟨o, i, hsource, hslot, hlive⟩
    rcases nestedStructs_cases hsource with ⟨rfl, rfl⟩ | ⟨rfl, rfl⟩
    · match i with
      | 0 => simp at hslot; omega
      | 1 => exact absurd hlive.2.2 (by decide)
      | i + 2 => simp at hslot
    · match i with
      | 0 => exact absurd hlive.2.2 (by decide)
      | i + 1 => simp at hslot
  refine ⟨?_, ?_⟩
  · intro d _ hcycle
    have hlt : ∀ d e, Relation.TransGen (Nested (heapOf nestedStructs)) d e → d < e := by
      intro d e h
      induction h with
      | single h => exact hnested _ _ h
      | tail _ h ih => exact ih.trans (hnested _ _ h)
    exact absurd (hlt d d hcycle) (lt_irrefl d)
  -- the other fields hold numbers, so nothing is shared
  · intro d b e _ hshares
    exfalso
    cases hshares with
    | @field i o kind hsource hslot hkind href hplain =>
      rcases nestedStructs_cases hsource with ⟨rfl, rfl⟩ | ⟨rfl, rfl⟩
      · match i with
        | 0 =>
          obtain rfl := Option.some.inj hslot
          exact hplain.1 ⟨by decide, by decide, rfl⟩
        | 1 =>
          obtain rfl := Option.some.inj hkind
          simp [referent_eq_some, NativeKind.holdsShare] at href
        | i + 2 => simp at hslot
      · match i with
        | 0 =>
          obtain rfl := Option.some.inj hkind
          simp [referent_eq_some, NativeKind.holdsShare] at href
        | i + 1 => simp at hslot
    | @element i bits o elemType elems value hsource hslot harray _ _ =>
      have hkind := harray.1.2.2
      rcases nestedStructs_cases hsource with ⟨rfl, rfl⟩ | ⟨rfl, rfl⟩
      · match i with
        | 0 => simp at hkind
        | 1 => simp at hkind
        | i + 2 => simp at hslot
      · match i with
        | 0 => simp at hkind
        | i + 1 => simp at hslot

theorem independentCopy_nestedStructs :
    ∃ depth c H', deepClone depth (heapOf nestedStructs) 1 = .ok (c, H') ∧
      IndependentCopy (heapOf nestedStructs) 1 H' c :=
  (independentCopy_iff (heapOf_sound (by decide)) ⟨_, rfl⟩).mpr nestedStructs_clonable

theorem selfStruct_overflows (depth : Nat) :
    deepClone depth (heapOf selfStruct) 1 = .error .stackOverflow := by
  induction depth with
  | zero => rfl
  | succ depth ih =>
    have hslots : cloneSlots (deepClone depth) ⟨1, [1], 1, [.ptr .typedObject]⟩ 0 [1] (heapOf selfStruct) =
        .error .stackOverflow := Fallible.bind_eq_error.mpr (Or.inl ih)
    exact Fallible.bind_eq_error.mpr (Or.inl hslots)

/-- The clone of a struct that holds itself overflows any stack; the clone of a struct with an array of
structs holds the very struct of the source. -/
theorem clone_diverges_or_shares :
    ((heapOf selfStruct).Sound ∧ ∀ depth, deepClone depth (heapOf selfStruct) 1 = .error .stackOverflow) ∧
    (heapOf structInArray).Sound ∧
      ∃ H', (∀ depth, deepClone (depth + 1) (heapOf structInArray) 1 = .ok (5, H')) ∧
        H'.Mutable 3 ∧ H'.Reach 5 3 ∧ H'.Reach 1 3 := by
  refine ⟨⟨heapOf_sound (by decide), selfStruct_overflows⟩, heapOf_sound (by decide), _,
    fun depth => rfl, ⟨_, rfl, trivial⟩, ?_, ?_⟩
  · exact (ObjectGraph.reach_of_cell (k := 0) (b := 4) rfl).trans (ObjectGraph.reach_of_cell (k := 0) rfl)
  · exact (ObjectGraph.reach_of_cell (k := 0) (b := 2) rfl).trans (ObjectGraph.reach_of_cell (k := 0) rfl)

end ShapeLang.Executor.Objects
