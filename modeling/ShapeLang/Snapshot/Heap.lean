import ShapeLang.Snapshot.Wire

/-!
# ShapeLang — the heap of a snapshot restore

Slots, allocations and shares, as far as the snapshot's two directions see them. The bits of a slot
remember whether they are plain data or an address the allocator handed out (what the source's Miri build
keeps as provenance), so that "this field holds a pointer of this restore" is a statement about the slot
and not about a number that happens to look like an address.

A cell keeps its content when its last share is gone; it is dead because its count is 0.
-/

namespace ShapeLang.Snapshot

open ShapeLang.Value

/-- The eight bytes of a slot: plain data, or the address of a cell. -/
inductive Bits where
  | word (w : Word)
  | addr (a : Nat)
  deriving DecidableEq, Repr

/-- The null slot. -/
instance : Zero Bits := ⟨.word 0⟩

/-- `KindedSlot`. -/
structure KindedSlot where
  bits : Bits
  kind : NativeKind
  deriving DecidableEq, Repr

/-- `KindedSlot::none`. -/
def KindedSlot.none : KindedSlot := ⟨0, .null⟩

/-- The buffers of a `TypedArray`, by the element type stamped in its header. -/
inductive ArrayData where
  | i64 (elems : List Word)
  | f64 (elems : List Word)
  | bool (elems : List Bool)
  | i32 (elems : List (BitVec 32))
  | i16 (elems : List (BitVec 16))
  | i8 (elems : List (BitVec 8))
  | u32 (elems : List (BitVec 32))
  | u16 (elems : List (BitVec 16))
  | u8 (elems : List (BitVec 8))
  | f32 (elems : List (BitVec 32))
  | string (elems : List String)
  | decimal (elems : List Decimal)
  /-- The addresses of the element objects. -/
  | typedObject (elems : List Nat)
  /-- Element types without a wire form. -/
  | other
  deriving DecidableEq, Repr

/-- `HashMapKindedRef`, keys in insertion order. -/
inductive MapData where
  | string (entries : List (String × String))
  | typedObject (entries : List (String × Nat))
  | other
  deriving DecidableEq, Repr

/-- What a cell of the heap holds. -/
inductive Alloc where
  | string (s : String)
  | stringObj (s : String)
  | decimal (d : Decimal)
  | decimalObj (d : Decimal)
  | bigInt (n : Word)
  | hashSet (keys : List String)
  /-- A set of integers, which has no wire form. -/
  | intSet
  | priorityQueue (heap : List Word)
  | atomic (value : Word)
  | range (start stop step : Word) (inclusive : Bool)
  | mutex (value : KindedSlot)
  | lazy (isInitialized : Bool)
  | result (isOk : Bool) (payload : KindedSlot)
  | option (isSome : Bool) (payload : KindedSlot)
  | typedObject (o : TypedObjectStorage Bits)
  | array (data : ArrayData)
  | map (data : MapData)
  | sharedCell (value : KindedSlot)
  /-- `RefTarget::PromotedCell`: the cell it points at and the kind it projects. -/
  | promotedCell (cell : Nat) (kind : NativeKind)
  /-- The other targets of a reference, which own no cell. -/
  | unpromotedRef
  deriving DecidableEq, Repr

/-- The heap: cells by address, and the number of shares of each. -/
structure Heap where
  cells : List Alloc
  refcount : Nat → Nat

/-- The address a slot owns a share of, if any. -/
def KindedSlot.share (slot : KindedSlot) : Option Nat :=
  match slot.bits with
  | .addr a => if slot.kind.holdsShare then some a else .none
  | .word _ => .none

/-- The shares a cell owns: what its destructor gives back. -/
def Alloc.shares : Alloc → List Nat
  | .typedObject o => o.dropFields.filterMap fun f => KindedSlot.share ⟨f.1, f.2⟩
  | .array (.typedObject elems) => elems
  | .map (.typedObject entries) => entries.map (·.2)
  | .mutex value | .result _ value | .option _ value | .sharedCell value => value.share.toList
  | .promotedCell cell _ => [cell]
  | _ => []

theorem modify_append_of_lt {α : Type} {f : α → α} {l m : List α} {i : Nat} (h : i < l.length) :
    (l ++ m).modify i f = l.modify i f ++ m := by
  induction l generalizing i with
  | nil => exact absurd h (Nat.not_lt_zero i)
  | cons a l ih =>
    cases i with
    | zero => rfl
    | succ i =>
      rw [List.cons_append, List.modify_succ_cons, List.modify_succ_cons, List.cons_append,
        ih (Nat.lt_of_succ_lt_succ h)]

theorem modify_append_length {α : Type} (f : α → α) (l m : List α) (a : α) :
    (l ++ a :: m).modify l.length f = l ++ f a :: m := by
  induction l with
  | nil => rfl
  | cons b l ih => rw [List.cons_append, List.length_cons, List.modify_succ_cons, ih, List.cons_append]

namespace Heap

/-- A fresh cell with one share. -/
def alloc (h : Heap) (content : Alloc) : Nat × Heap :=
  (h.cells.length,
    { cells := h.cells ++ [content]
      refcount := Function.update h.refcount h.cells.length 1 })

/-- Changes the content of a cell in place. -/
def modify (h : Heap) (a : Nat) (f : Alloc → Alloc) : Heap :=
  { h with cells := h.cells.modify a f }

/-- Takes one more share of a cell. -/
def retain (h : Heap) (a : Nat) : Heap :=
  { h with refcount := Function.update h.refcount a (h.refcount a + 1) }

/-- Gives back one share of each cell of `work`. A cell whose last share goes gives back its own. Every
round takes one share off the heap, so the number of shares bounds the rounds. -/
def releaseAll : Nat → List Nat → Heap → Heap
  | 0, _, h => h
  | _, [], h => h
  | fuel + 1, a :: work, h =>
    let h' : Heap := { h with refcount := Function.update h.refcount a (h.refcount a - 1) }
    if h.refcount a = 1 then
      releaseAll fuel ((h.cells[a]?.map Alloc.shares).getD [] ++ work) h'
    else releaseAll fuel work h'

/-- The number of shares of all cells. -/
def totalShares (h : Heap) : Nat := ((List.range h.cells.length).map h.refcount).sum

@[simp] theorem cells_alloc (h : Heap) (content : Alloc) :
    (h.alloc content).2.cells = h.cells ++ [content] := rfl

@[simp] theorem cells_modify (h : Heap) (a : Nat) (f : Alloc → Alloc) :
    (h.modify a f).cells = h.cells.modify a f := rfl

/-- Giving back shares changes no content. -/
@[simp] theorem cells_releaseAll (fuel : Nat) (work : List Nat) (h : Heap) :
    (releaseAll fuel work h).cells = h.cells := by
  induction fuel generalizing work h with
  | zero => rfl
  | succ fuel ih =>
    cases work with
    | nil => rfl
    | cons a work =>
      rw [releaseAll]
      split
      · exact ih _ _
      · exact ih _ _

end Heap

/-- `Clone for KindedSlot`. -/
def KindedSlot.clone (slot : KindedSlot) (h : Heap) : Heap :=
  match slot.share with
  | some a => h.retain a
  | .none => h

/-- `Drop for KindedSlot`. -/
def KindedSlot.drop (slot : KindedSlot) (h : Heap) : Heap :=
  h.releaseAll h.totalShares slot.share.toList

@[simp] theorem KindedSlot.cells_clone (slot : KindedSlot) (h : Heap) :
    (slot.clone h).cells = h.cells := by
  unfold KindedSlot.clone
  split <;> rfl

@[simp] theorem KindedSlot.cells_drop (slot : KindedSlot) (h : Heap) :
    (slot.drop h).cells = h.cells :=
  Heap.cells_releaseAll _ _ _

end ShapeLang.Snapshot
