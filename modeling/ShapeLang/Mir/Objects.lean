import ShapeLang.Lib.ObjectGraph
import ShapeLang.Mir.Cfg
import ShapeLang.Mir.StoragePlanning

/-!
# ShapeLang — executions over a heap of objects

What a MIR function does with heap objects, as far as the escape and ownership analyses are concerned. A
slot or a cell of an object holds an object or something that is not one (an immediate, static data).
Copies, moves, borrows and projections alias: they yield the object that is there. Aggregates, container
stores and captures put their operands into an object.

The relation leaves open what these analyses do not see: which element an index selects, in which cell of an
aggregate an operand lies, what an operator computes, where a reference points that is written through, and
what a callee does with the objects it can get at. A callee gets at its arguments, at the captures of the
closure that is called, and at everything that outlives the frame.

  * `Reads`, `Evals`, `Rhs` — the value of a place, an operand, an rvalue;
  * `Stores` — writing a value to a place;
  * `Effect`, `CallEffect` — one statement, one call;
  * `HeapStep` — one step of an execution;
  * `Wf` — nothing refers to an object that is not allocated yet, kept by every step.
-/

namespace ShapeLang.Mir

open ObjectGraph

abbrev ObjId := Nat

/-- A cell of an object. -/
inductive Key where
  | field (f : FieldIdx)
  | elem (n : Nat)
  deriving DecidableEq, Repr

abbrev Contents := Key → Option ObjId

structure Heap where
  slot : SlotId → Option ObjId
  cell : ObjId → Contents
  /-- The next object to be allocated. -/
  next : ObjId
  /-- A closure that this frame made, with the slot it was made in. -/
  made : ObjId → Option SlotId
  /-- Objects that module bindings, tasks and callees hold on to. -/
  kept : Set ObjId
  /-- Objects that were arguments of a call. -/
  passed : Set ObjId

namespace Heap

def setSlot (σ : Heap) (s : SlotId) (v : Option ObjId) : Heap :=
  { σ with slot := Function.update σ.slot s v }

def setCell (σ : Heap) (o : ObjId) (k : Key) (v : Option ObjId) : Heap :=
  { σ with cell := Function.update σ.cell o (Function.update (σ.cell o) k v) }

def alloc (σ : Heap) (contents : Contents) (made : Option SlotId) : Heap :=
  { σ with
    cell := Function.update σ.cell σ.next contents
    next := σ.next + 1
    made := Function.update σ.made σ.next made }

def keep (σ : Heap) (vs : List (Option ObjId)) : Heap :=
  { σ with kept := σ.kept ∪ {o | some o ∈ vs} }

end Heap

/-- A cell after a write: the one that was written, or as it was. -/
theorem setCell_eq_some {σ : Heap} {o a b : ObjId} {k k' : Key} {v : Option ObjId}
    (h : (σ.setCell o k v).cell a k' = some b) : (a = o ∧ v = some b) ∨ σ.cell a k' = some b := by
  rcases update_eq_some h with ⟨rfl, h⟩ | ⟨-, h⟩
  · by_cases hk : k' = k
    · subst hk
      rw [Function.update_self] at h
      exact Or.inl ⟨rfl, h⟩
    · rw [Function.update_of_ne hk] at h
      exact Or.inr h
  · exact Or.inr h

theorem setSlot_eq_some {σ : Heap} {s s' : SlotId} {o : ObjId} {v : Option ObjId}
    (h : (σ.setSlot s v).slot s' = some o) : (s' = s ∧ v = some o) ∨ (s' ≠ s ∧ σ.slot s' = some o) := by
  by_cases hs : s' = s
  · subst hs
    exact Or.inl ⟨rfl, by simpa [Heap.setSlot] using h⟩
  · exact Or.inr ⟨hs, by simpa [Heap.setSlot, hs] using h⟩

/-! ## Values -/

/-- The value of a place. A closure has no fields or elements; a borrow aliases, so dereferencing it reads
the same object. -/
inductive Reads (σ : Heap) : Place → Option ObjId → Prop where
  | localSlot (s : SlotId) : Reads σ (.localSlot s) (σ.slot s)
  | field {base : Place} {f : FieldIdx} {o : ObjId} (h : Reads σ base (some o)) (hdata : σ.made o = none) :
      Reads σ (.field base f) (σ.cell o (.field f))
  | index {base : Place} {idx : Operand} {o : ObjId} (n : Nat) (h : Reads σ base (some o))
      (hdata : σ.made o = none) : Reads σ (.index base idx) (σ.cell o (.elem n))
  | deref {base : Place} {v : Option ObjId} (h : Reads σ base v) : Reads σ (.deref base) v

inductive Evals (σ : Heap) : Operand → Option ObjId → Prop where
  | place {op : Operand} {p : Place} {v : Option ObjId} (hp : op.place? = some p) (h : Reads σ p v) :
      Evals σ op v
  | constant (c : MirConstant) : Evals σ (.constant c) none

abbrev EvalsAll (σ : Heap) : List Operand → List (Option ObjId) → Prop := List.Forall₂ (Evals σ)

/-- The objects among the values are what the cells hold. -/
def Holds (contents : Contents) (vs : List (Option ObjId)) : Prop :=
  (∀ k o, contents k = some o → some o ∈ vs) ∧ ∀ o, some o ∈ vs → ∃ k, contents k = some o

/-- Tests give a boolean. -/
def Rvalue.isTest : Rvalue → Bool
  | .fuzzyComparison _ _ | .enumTest _ _ | .typePatternTest _ | .enumDiscriminantTest _ _ _ => true
  | _ => false

/-- Operators give a number or a new object, such as the concatenation of two arrays. -/
def Rvalue.isOperator : Rvalue → Bool
  | .binaryOp _ _ _ | .unaryOp _ _ | .formatValue _ | .primitiveCast _ _ => true
  | _ => false

/-- The value of an rvalue, with the heap after it. -/
inductive Rhs (σ : Heap) : Rvalue → Heap → Option ObjId → Prop where
  | use {op : Operand} {v : Option ObjId} (h : Evals σ op v) : Rhs σ (.use op) σ v
  | borrow {kind : BorrowKind} {p : Place} {v : Option ObjId} (h : Reads σ p v) : Rhs σ (.borrow kind p) σ v
  | aggregate {ops : List Operand} {vs : List (Option ObjId)} {contents : Contents} (h : EvalsAll σ ops vs)
      (hc : Holds contents vs) : Rhs σ (.aggregate ops) (σ.alloc contents none) (some σ.next)
  -- a clone is another share of the object, or a copy of it
  | cloneShare {op : Operand} {v : Option ObjId} (h : Evals σ op v) : Rhs σ (.clone op) σ v
  | cloneCopy {op : Operand} {o : ObjId} (h : Evals σ op (some o)) (hdata : σ.made o = none) :
      Rhs σ (.clone op) (σ.alloc (σ.cell o) none) (some σ.next)
  | payload {op : Operand} {tag : VariantTag} {o : ObjId} (k : Key) (h : Evals σ op (some o))
      (hdata : σ.made o = none) : Rhs σ (.enumPayload op tag) σ (σ.cell o k)
  | immediate {rv : Rvalue} (h : rv.isTest = true ∨ rv.isOperator = true) : Rhs σ rv σ none
  | operator {rv : Rvalue} {contents : Contents} (h : rv.isOperator = true)
      (hc : ∀ k b, contents k = some b → ∃ op ∈ rv.operands, ∃ o k', Evals σ op (some o) ∧
        σ.made o = none ∧ σ.cell o k' = some b) : Rhs σ rv (σ.alloc contents none) (some σ.next)

/-! ## Statements -/

/-- Writing through a reference: the value comes to stand wherever the reference may point. -/
structure WritesThrough (σ : Heap) (v : Option ObjId) (σ' : Heap) : Prop where
  slot : ∀ s, σ'.slot s = σ.slot s ∨ σ'.slot s = v
  cell : ∀ o k, σ'.cell o k = σ.cell o k ∨ (o < σ.next ∧ σ'.cell o k = v)
  next : σ'.next = σ.next
  made : σ'.made = σ.made
  kept : σ'.kept = σ.kept
  passed : σ'.passed = σ.passed

inductive Stores (σ : Heap) (v : Option ObjId) : Place → Heap → Prop where
  | localSlot (s : SlotId) : Stores σ v (.localSlot s) (σ.setSlot s v)
  | field {base : Place} {f : FieldIdx} {o : ObjId} (h : Reads σ base (some o)) (hdata : σ.made o = none) :
      Stores σ v (.field base f) (σ.setCell o (.field f) v)
  | index {base : Place} {idx : Operand} {o : ObjId} (n : Nat) (h : Reads σ base (some o))
      (hdata : σ.made o = none) : Stores σ v (.index base idx) (σ.setCell o (.elem n) v)
  | deref {base : Place} {σ' : Heap} (h : WritesThrough σ v σ') : Stores σ v (.deref base) σ'

/-- A statement that puts operands into the container of a slot. -/
def StatementKind.containerStore : StatementKind → Option (SlotId × List Operand)
  | .arrayStore s ops | .objectStore s ops | .enumStore s ops => some (s, ops)
  | _ => none

/-- A statement that hands its operands to what outlives the frame. -/
def StatementKind.keeps : StatementKind → Option (List Operand)
  | .taskBoundary ops _ => some ops
  | .moduleBindingStore _ ops => some ops
  | _ => none

/-- The rvalue that completes the definition of a closure. -/
def closurePlaceholder : Rvalue := .use (.constant .closurePlaceholder)

inductive Effect (σ : Heap) : StatementKind → Heap → Prop where
  | assign {place : Place} {rv : Rvalue} {σ₁ σ' : Heap} {v : Option ObjId} (hrv : Rhs σ rv σ₁ v)
      (h : Stores σ₁ v place σ') : Effect σ (.assign place rv) σ'
  -- the closure is in the slot already
  | placeholder (s : SlotId) : Effect σ (.assign (.localSlot s) closurePlaceholder) σ
  | drop (p : Place) : Effect σ (.drop p) σ
  | nop : Effect σ .nop σ
  | keep {kind : StatementKind} {ops : List Operand} {vs : List (Option ObjId)}
      (hkind : kind.keeps = some ops)
      (h : EvalsAll σ ops vs) : Effect σ kind (σ.keep vs)
  | capture {s : SlotId} {ops : List Operand} {vs : List (Option ObjId)} {contents : Contents}
      (h : EvalsAll σ ops vs) (hc : Holds contents vs) :
      Effect σ (.closureCapture s ops) ((σ.alloc contents (some s)).setSlot s (some σ.next))
  | storeNew {kind : StatementKind} {s : SlotId} {ops : List Operand} {vs : List (Option ObjId)}
      {contents : Contents} (hkind : kind.containerStore = some (s, ops)) (h : EvalsAll σ ops vs)
      (hc : Holds contents vs) : Effect σ kind ((σ.alloc contents none).setSlot s (some σ.next))
  -- the container is in the slot already
  | storeInto {kind : StatementKind} {s : SlotId} {ops : List Operand} {vs : List (Option ObjId)}
      {o : ObjId}
      {contents : Contents} (hkind : kind.containerStore = some (s, ops)) (h : EvalsAll σ ops vs)
      (ho : σ.slot s = some o) (hdata : σ.made o = none)
      (hc : ∀ k, contents k = σ.cell o k ∨ ∃ v ∈ vs, contents k = v) :
      Effect σ kind { σ with cell := Function.update σ.cell o contents }

/-! ## Calls -/

/-- What a callee can get at. -/
def Accessible (σ : Heap) (func : Option ObjId) (args : List (Option ObjId)) (o : ObjId) : Prop :=
  ∃ r, (some r ∈ args ∨ r ∈ σ.kept ∨ ∃ f k, func = some f ∧ σ.cell f k = some r) ∧ Reach σ.cell r o

/-- A value that the callee can produce: not an object, one it can get at, or one that it made. -/
def Produced (σ : Heap) (func : Option ObjId) (args : List (Option ObjId)) (next : ObjId)
    (v : Option ObjId) : Prop :=
  ∀ o, v = some o → Accessible σ func args o ∨ (σ.next ≤ o ∧ o < next)

/-- The callee ran: it changed what it can get at, and the slots that closures of this function capture. -/
structure Ran (mir : MirFunction) (σ : Heap) (func : Option ObjId) (args : List (Option ObjId))
    (σ' : Heap) : Prop where
  slot : ∀ s, σ'.slot s = σ.slot s ∨
    (s ∈ (collectClosureCaptures mir).1 ∧ Produced σ func args σ'.next (σ'.slot s))
  cell : ∀ o k, σ'.cell o k = σ.cell o k ∨
    ((Accessible σ func args o ∨ (σ.next ≤ o ∧ o < σ'.next)) ∧ Produced σ func args σ'.next (σ'.cell o k))
  next : σ.next ≤ σ'.next
  made : σ'.made = σ.made
  kept : ∀ o ∈ σ'.kept, o ∈ σ.kept ∨ Produced σ func args σ'.next (some o)
  kept_mono : σ.kept ⊆ σ'.kept
  passed : σ'.passed = σ.passed ∪ {o | some o ∈ args}

/-- A call: the callee runs, and its result goes to the destination. -/
inductive CallEffect (mir : MirFunction) (σ : Heap) (func : Operand) (args : List Operand) (dest : Place) :
    Heap → Prop where
  | mk {f : Option ObjId} {vs : List (Option ObjId)} {σ₁ σ' : Heap} {v : Option ObjId}
      (hf : Evals σ func f) (hargs : EvalsAll σ args vs) (hran : Ran mir σ f vs σ₁)
      (hv : Produced σ f vs σ₁.next v) (h : Stores σ₁ v dest σ') : CallEffect mir σ func args dest σ'

/-! ## Executions -/

structure Config where
  cursor : Cursor
  heap : Heap

inductive HeapStep (mir : MirFunction) : Config → Config → Prop where
  | statement {c : Cursor} {s : MirStatement} {σ σ' : Heap} (hs : stmtAt mir c = some s)
      (h : Effect σ s.kind σ') : HeapStep mir ⟨c, σ⟩ ⟨⟨c.block, c.idx + 1⟩, σ'⟩
  | jump {b t : BasicBlockId} {blk : BasicBlock} {σ : Heap} (hb : mir.block? b = some blk)
      (hcall : ∀ func args dest next, blk.terminator.kind ≠ .call func args dest next)
      (ht : t ∈ terminatorSuccessors blk.terminator.kind) :
      HeapStep mir ⟨⟨b, blk.statements.length⟩, σ⟩ ⟨⟨t, 0⟩, σ⟩
  | call {b : BasicBlockId} {blk : BasicBlock} {func : Operand} {args : List Operand} {dest : Place}
      {next : BasicBlockId} {σ σ' : Heap} (hb : mir.block? b = some blk)
      (hterm : blk.terminator.kind = .call func args dest next)
      (h : CallEffect mir σ func args dest σ') :
      HeapStep mir ⟨⟨b, blk.statements.length⟩, σ⟩ ⟨⟨next, 0⟩, σ'⟩

theorem mem_allStatements {mir : MirFunction} {c : Cursor} {stmt : MirStatement}
    (h : stmtAt mir c = some stmt) :
    stmt ∈ mir.allStatements := by
  obtain ⟨blk, hblk, hin⟩ := stmtAt_mem h
  exact List.mem_flatMap.mpr ⟨blk, MirFunction.block?_mem hblk, hin⟩

/-! ## Where values come from -/

section

variable {σ σ₁ σ' : Heap} {v : Option ObjId} {o : ObjId}

/-- The object is reached from one of the slots. -/
def FromSlots (σ : Heap) (uses : SlotId → Bool) (o : ObjId) : Prop :=
  ∃ s r, uses s = true ∧ σ.slot s = some r ∧ Reach σ.cell r o

variable {uses : SlotId → Bool}

theorem FromSlots.mono {uses' : SlotId → Bool} (h : FromSlots σ uses o)
    (huses : ∀ s, uses s = true → uses' s = true) :
    FromSlots σ uses' o := by
  obtain ⟨s, r, hs, hr, hreach⟩ := h
  exact ⟨s, r, huses s hs, hr, hreach⟩

theorem FromSlots.reach {o' : ObjId} (h : FromSlots σ uses o) (hreach : Reach σ.cell o o') :
    FromSlots σ uses o' := by
  obtain ⟨s, r, hs, hr, hro⟩ := h
  exact ⟨s, r, hs, hr, hro.trans hreach⟩

/-- A place is read from its root slot: the object there, or one in a cell of a data object. -/
theorem Reads.cases {p : Place} (h : Reads σ p v) :
    v = σ.slot p.rootLocal ∨ ∃ o k, σ.made o = none ∧ σ.cell o k = v := by
  induction h with
  | localSlot s => exact Or.inl rfl
  | field h hdata ih => exact Or.inr ⟨_, _, hdata, rfl⟩
  | index n h hdata ih => exact Or.inr ⟨_, _, hdata, rfl⟩
  | deref h ih => exact ih

theorem Reads.root {p : Place} (h : Reads σ p v) :
    ∀ o, v = some o → ∃ r, σ.slot p.rootLocal = some r ∧ Reach σ.cell r o := by
  induction h with
  | localSlot s => exact fun o ho => ⟨o, ho, .refl o⟩
  | field h hdata ih =>
    intro o ho
    obtain ⟨r, hr, hreach⟩ := ih _ rfl
    exact ⟨r, hr, hreach.trans (reach_of_cell ho)⟩
  | index n h hdata ih =>
    intro o ho
    obtain ⟨r, hr, hreach⟩ := ih _ rfl
    exact ⟨r, hr, hreach.trans (reach_of_cell ho)⟩
  | deref h ih => exact ih

theorem Evals.fromSlots {op : Operand} (h : Evals σ op (some o)) : FromSlots σ (operandUsesSlot op) o := by
  cases h with
  | place hp h =>
    obtain ⟨r, hr, hreach⟩ := h.root o rfl
    exact ⟨_, r, by simp [operandUsesSlot, hp], hr, hreach⟩

theorem EvalsAll.fromSlots {ops : List Operand} {vs : List (Option ObjId)} (h : EvalsAll σ ops vs)
    (hv : some o ∈ vs) : ∃ op ∈ ops, Evals σ op (some o) := by
  induction h with
  | nil => cases hv
  | cons hop _ ih =>
    rcases List.mem_cons.mp hv with rfl | hv
    · exact ⟨_, List.mem_cons_self, hop⟩
    · obtain ⟨op, hmem, hop⟩ := ih hv
      exact ⟨op, List.mem_cons_of_mem _ hmem, hop⟩

theorem rvalueUsesSlot_of_operand {rv : Rvalue} {op : Operand} {s : SlotId} (hop : op ∈ rv.operands)
    (h : operandUsesSlot op s = true) : rvalueUsesSlot rv s = true := by
  cases rv with
  | borrow kind place => exact absurd hop List.not_mem_nil
  | _ => exact List.any_eq_true.mpr ⟨op, hop, h⟩

/-- What an rvalue yields: an object reached from a slot it uses, or a new one that holds such objects. -/
theorem Rhs.cases {rv : Rvalue} (h : Rhs σ rv σ₁ v) :
    (σ₁ = σ ∧ ∀ o, v = some o → FromSlots σ (rvalueUsesSlot rv) o) ∨
      ∃ contents, σ₁ = σ.alloc contents none ∧ v = some σ.next ∧
        ∀ k o, contents k = some o → FromSlots σ (rvalueUsesSlot rv) o := by
  -- what an operand evaluates to is reached from its slot
  have hop : ∀ op ∈ rv.operands, ∀ o, Evals σ op (some o) → FromSlots σ (rvalueUsesSlot rv) o :=
    fun op hmem o h => h.fromSlots.mono fun s hs => rvalueUsesSlot_of_operand hmem hs
  cases h with
  | use h => exact Or.inl ⟨rfl, fun o ho => hop _ List.mem_cons_self o (ho ▸ h)⟩
  | borrow h =>
    refine Or.inl ⟨rfl, fun o ho => ?_⟩
    obtain ⟨r, hr, hreach⟩ := h.root o ho
    exact ⟨_, r, by simp [rvalueUsesSlot], hr, hreach⟩
  -- a new object holds what the operands evaluate to
  | aggregate h hc =>
    refine Or.inr ⟨_, rfl, rfl, fun k o ho => ?_⟩
    obtain ⟨op, hmem, hev⟩ := h.fromSlots (hc.1 k o ho)
    exact hop op hmem o hev
  | cloneShare h => exact Or.inl ⟨rfl, fun o ho => hop _ List.mem_cons_self o (ho ▸ h)⟩
  | cloneCopy h hdata =>
    exact Or.inr ⟨_, rfl, rfl, fun k o ho =>
      (hop _ List.mem_cons_self _ h).reach (reach_of_cell ho)⟩
  | payload k h hdata =>
    exact Or.inl ⟨rfl, fun o ho => (hop _ List.mem_cons_self _ h).reach (reach_of_cell ho)⟩
  | immediate h => exact Or.inl ⟨rfl, fun o ho => nomatch ho⟩
  | operator h hc =>
    refine Or.inr ⟨_, rfl, rfl, fun k o ho => ?_⟩
    obtain ⟨op, hmem, o', k', hev, -, hcell⟩ := hc k o ho
    exact (hop op hmem o' hev).reach (reach_of_cell hcell)

end

/-! ## Allocated objects -/

/-- Whatever is referred to is allocated. -/
structure Heap.Wf (σ : Heap) : Prop where
  slot : ∀ s o, σ.slot s = some o → o < σ.next
  cell : ∀ a k b, σ.cell a k = some b → a < σ.next ∧ b < σ.next
  kept : ∀ o ∈ σ.kept, o < σ.next
  passed : ∀ o ∈ σ.passed, o < σ.next
  made : ∀ o s, σ.made o = some s → o < σ.next

namespace Heap.Wf

variable {σ σ₁ σ' : Heap} {v : Option ObjId} {o : ObjId}

theorem reach (h : σ.Wf) {a : ObjId} (ha : a < σ.next) (hreach : Reach σ.cell a o) : o < σ.next := by
  induction hreach with
  | refl => exact ha
  | tail _ hbc _ =>
    obtain ⟨k, hk⟩ := hbc
    exact (h.cell _ k _ hk).2

theorem fromSlots (h : σ.Wf) {uses : SlotId → Bool} (ho : FromSlots σ uses o) : o < σ.next := by
  obtain ⟨s, r, -, hr, hreach⟩ := ho
  exact h.reach (h.slot s r hr) hreach

theorem evals (h : σ.Wf) {op : Operand} (hop : Evals σ op (some o)) :
    o < σ.next := h.fromSlots hop.fromSlots

variable {vs : List (Option ObjId)}

theorem evalsAll (h : σ.Wf) {ops : List Operand} (hops : EvalsAll σ ops vs) (ho : some o ∈ vs) :
    o < σ.next := by
  obtain ⟨op, -, hop⟩ := hops.fromSlots ho
  exact h.evals hop

theorem setSlot (h : σ.Wf) {s : SlotId} (hv : ∀ o, v = some o → o < σ.next) : (σ.setSlot s v).Wf := by
  refine ⟨fun s' o ho => ?_, h.cell, h.kept, h.passed, h.made⟩
  rcases setSlot_eq_some ho with ⟨-, ho⟩ | ⟨-, ho⟩
  · exact hv o ho
  · exact h.slot s' o ho

/-- Every cell keeps what it had or holds an allocated object. -/
theorem of_cells (h : σ.Wf) {cell : ObjId → Contents}
    (hcell : ∀ a k b, cell a k = some b → σ.cell a k = some b ∨ (a < σ.next ∧ b < σ.next)) :
    Heap.Wf { σ with cell := cell } := by
  refine ⟨h.slot, fun a k b hb => ?_, h.kept, h.passed, h.made⟩
  rcases hcell a k b hb with hold | hnew
  · exact h.cell a k b hold
  · exact hnew

theorem setCell (h : σ.Wf) {k : Key} (ho : o < σ.next) (hv : ∀ b, v = some b → b < σ.next) :
    (σ.setCell o k v).Wf := by
  refine h.of_cells fun a k' b hb => ?_
  rcases setCell_eq_some hb with ⟨rfl, hnew⟩ | hold
  · exact Or.inr ⟨ho, hv b hnew⟩
  · exact Or.inl hold

theorem alloc (h : σ.Wf) {contents : Contents} {made : Option SlotId}
    (hc : ∀ k o, contents k = some o → o < σ.next) : (σ.alloc contents made).Wf := by
  have hlt : ∀ {n}, n < σ.next → n < (σ.alloc contents made).next := fun hn => Nat.lt_succ_of_lt hn
  refine ⟨fun s o ho => hlt (h.slot s o ho), fun a k b hb => ?_, fun o ho => hlt (h.kept o ho),
    fun o ho => hlt (h.passed o ho), fun o s ho => ?_⟩
  · by_cases ha : a = σ.next
    · subst ha
      exact ⟨Nat.lt_succ_self _, hlt (hc k b (by simpa [Heap.alloc] using hb))⟩
    · obtain ⟨haa, hbb⟩ := h.cell a k b (by simpa [Heap.alloc, ha] using hb)
      exact ⟨hlt haa, hlt hbb⟩
  · by_cases ha : o = σ.next
    · subst ha
      exact Nat.lt_succ_self _
    · exact hlt (h.made o s (by simpa [Heap.alloc, ha] using ho))

theorem keep (h : σ.Wf) (hvs : ∀ o, some o ∈ vs → o < σ.next) : (σ.keep vs).Wf :=
  ⟨h.slot, h.cell, fun o ho => ho.elim (h.kept o) (hvs o), h.passed, h.made⟩

theorem writesThrough (h : σ.Wf) (hv : ∀ o, v = some o → o < σ.next) (hw : WritesThrough σ v σ') :
    σ'.Wf := by
  refine ⟨fun s o ho => ?_, fun a k b hb => ?_, fun o ho => ?_, fun o ho => ?_, fun o s ho => ?_⟩
  · rw [hw.next]
    rcases hw.slot s with hs | hs
    · exact h.slot s o (hs ▸ ho)
    · exact hv o (hs ▸ ho)
  · rw [hw.next]
    rcases hw.cell a k with ha | ⟨ha, hav⟩
    · exact h.cell a k b (ha ▸ hb)
    · exact ⟨ha, hv b (hav ▸ hb)⟩
  · rw [hw.next]
    exact h.kept o (hw.kept ▸ ho)
  · rw [hw.next]
    exact h.passed o (hw.passed ▸ ho)
  · rw [hw.next]
    exact h.made o s (hw.made ▸ ho)

theorem stores (h : σ.Wf) (hv : ∀ o, v = some o → o < σ.next) {place : Place} (hs : Stores σ v place σ') :
    σ'.Wf := by
  have hbase : ∀ {base : Place} {o : ObjId}, Reads σ base (some o) → o < σ.next := by
    intro base o hr
    obtain ⟨r, hroot, hreach⟩ := hr.root o rfl
    exact h.reach (h.slot _ r hroot) hreach
  cases hs with
  | localSlot s => exact h.setSlot hv
  | field hr hdata => exact h.setCell (hbase hr) hv
  | index n hr hdata => exact h.setCell (hbase hr) hv
  | deref hw => exact h.writesThrough hv hw

/-- An rvalue leaves allocated objects only, and yields one of them. -/
theorem rhs (h : σ.Wf) {rv : Rvalue} (hrv : Rhs σ rv σ₁ v) :
    σ₁.Wf ∧ ∀ o, v = some o → o < σ₁.next := by
  rcases hrv.cases with ⟨rfl, hv⟩ | ⟨contents, rfl, rfl, hc⟩
  · exact ⟨h, fun o ho => h.fromSlots (hv o ho)⟩
  · refine ⟨h.alloc fun k o ho => h.fromSlots (hc k o ho), fun o ho => ?_⟩
    rw [← Option.some.inj ho]
    exact Nat.lt_succ_self _

theorem allocated (h : σ.Wf) {contents : Contents} {made : Option SlotId} {s : SlotId}
    (hvs : ∀ o, some o ∈ vs → o < σ.next) (hc : Holds contents vs) :
    ((σ.alloc contents made).setSlot s (some σ.next)).Wf := by
  refine (h.alloc fun k o ho => hvs o (hc.1 k o ho)).setSlot fun o ho => ?_
  rw [← Option.some.inj ho]
  exact Nat.lt_succ_self _

theorem effect (h : σ.Wf) {kind : StatementKind} (he : Effect σ kind σ') : σ'.Wf := by
  cases he with
  | assign hrv hs =>
    obtain ⟨hwf, hv⟩ := h.rhs hrv
    exact hwf.stores hv hs
  | placeholder s => exact h
  | drop p => exact h
  | nop => exact h
  | keep hkind hops => exact h.keep fun o ho => h.evalsAll hops ho
  | capture hops hc => exact h.allocated (fun o ho => h.evalsAll hops ho) hc
  | storeNew hkind hops hc => exact h.allocated (fun o ho => h.evalsAll hops ho) hc
  | storeInto hkind hops ho hdata hc =>
    refine h.of_cells fun a k b hb => ?_
    rcases update_eq_some hb with ⟨rfl, hnew⟩ | ⟨-, hold⟩
    · rcases hc k with hkeep | ⟨w, hw, hkw⟩
      · exact Or.inl (hkeep ▸ hnew)
      · exact Or.inr ⟨h.slot _ _ ho, h.evalsAll hops ((hkw.symm.trans hnew) ▸ hw)⟩
    · exact Or.inl hold

variable {func : Option ObjId} {args : List (Option ObjId)}

theorem accessible (h : σ.Wf) (hargs : ∀ o, some o ∈ args → o < σ.next)
    (ho : Accessible σ func args o) : o < σ.next := by
  obtain ⟨r, hr, hreach⟩ := ho
  refine h.reach ?_ hreach
  rcases hr with hr | hr | ⟨f, k, -, hr⟩
  · exact hargs r hr
  · exact h.kept r hr
  · exact (h.cell f k r hr).2

theorem ran (h : σ.Wf) {mir : MirFunction} (hargs : ∀ o, some o ∈ args → o < σ.next)
    (hr : Ran mir σ func args σ') :
    σ'.Wf := by
  have hlt : ∀ {n}, n < σ.next → n < σ'.next := fun hn => Nat.lt_of_lt_of_le hn hr.next
  have hacc : ∀ o, Accessible σ func args o ∨ (σ.next ≤ o ∧ o < σ'.next) → o < σ'.next := by
    rintro o (ho | ho)
    · exact hlt (h.accessible hargs ho)
    · exact ho.2
  refine ⟨fun s o ho => ?_, fun a k b hb => ?_, fun o ho => ?_, fun o ho => ?_, fun o s ho => ?_⟩
  · rcases hr.slot s with hs | ⟨-, hs⟩
    · exact hlt (h.slot s o (hs ▸ ho))
    · exact hacc o (hs o ho)
  · rcases hr.cell a k with ha | ⟨ha, hp⟩
    · obtain ⟨haa, hbb⟩ := h.cell a k b (ha ▸ hb)
      exact ⟨hlt haa, hlt hbb⟩
    · exact ⟨hacc a ha, hacc b (hp b hb)⟩
  · rcases hr.kept o ho with ho | ho
    · exact hlt (h.kept o ho)
    · exact hacc o (ho o rfl)
  · rw [hr.passed] at ho
    exact ho.elim (fun ho => hlt (h.passed o ho)) fun ho => hlt (hargs o ho)
  · exact hlt (h.made o s (hr.made ▸ ho))

theorem callEffect (h : σ.Wf) {mir : MirFunction} {func : Operand} {args : List Operand} {dest : Place}
    (hc : CallEffect mir σ func args dest σ') : σ'.Wf := by
  obtain ⟨hf, hargs, hran, hv, hs⟩ := hc
  have hlt : ∀ o, some o ∈ _ → o < σ.next := fun o ho => h.evalsAll hargs ho
  refine (h.ran hlt hran).stores (fun o ho => ?_) hs
  rcases hv o ho with hacc | hnew
  · exact Nat.lt_of_lt_of_le (h.accessible hlt hacc) hran.next
  · exact hnew.2

theorem step {mir : MirFunction} {x y : Config} (h : x.heap.Wf) (hs : HeapStep mir x y) : y.heap.Wf := by
  cases hs with
  | statement _ he => exact h.effect he
  | jump => exact h
  | call _ _ hc => exact h.callEffect hc

end Heap.Wf

/-- A frame at the entry of the function. -/
structure Enters (mir : MirFunction) (x : Config) : Prop where
  cursor : x.cursor = entryCursor mir
  wf : x.heap.Wf

theorem Enters.wf_of_run {mir : MirFunction} {x y : Config} (h : Enters mir x)
    (hrun : Relation.ReflTransGen (HeapStep mir) x y) : y.heap.Wf := by
  induction hrun with
  | refl => exact h.wf
  | tail _ hstep ih => exact ih.step hstep

/-! ## Objects are never freed -/

section

variable {σ σ₁ σ' : Heap} {v : Option ObjId}

theorem Rhs.next_le {rv : Rvalue} (h : Rhs σ rv σ₁ v) : σ.next ≤ σ₁.next := by
  rcases h.cases with ⟨rfl, -⟩ | ⟨contents, rfl, -, -⟩
  · exact Nat.le_refl _
  · exact Nat.le_succ _

theorem Stores.next_eq {place : Place} (h : Stores σ v place σ') : σ'.next = σ.next := by
  cases h with
  | localSlot s => rfl
  | field hread hdata => rfl
  | index n hread hdata => rfl
  | deref hw => exact hw.next

theorem Effect.next_le {kind : StatementKind} (h : Effect σ kind σ') : σ.next ≤ σ'.next := by
  cases h with
  | assign hrv hs => exact hs.next_eq ▸ hrv.next_le
  | capture _ _ => exact Nat.le_succ _
  | storeNew _ _ _ => exact Nat.le_succ _
  | _ => exact Nat.le_refl _

theorem HeapStep.next_le {mir : MirFunction} {x y : Config} (h : HeapStep mir x y) :
    x.heap.next ≤ y.heap.next := by
  cases h with
  | statement _ he => exact he.next_le
  | jump => exact Nat.le_refl _
  | call _ _ hcall =>
    obtain ⟨-, -, hran, -, hs⟩ := hcall
    exact hs.next_eq ▸ hran.next

end

/-! ## Reaching through a new object -/

section

variable {σ : Heap} {contents : Contents} {made : Option SlotId} {a b : ObjId}

/-- Nothing refers to a new object yet. -/
theorem reach_alloc (h : σ.Wf) (hc : ∀ k o, contents k = some o → o < σ.next) (ha : a < σ.next)
    (hreach : Reach (σ.alloc contents made).cell a b) : Reach σ.cell a b := by
  refine reach_of_unreferenced (fun a k b hb => ?_) (fun a k hn => ?_) (Nat.ne_of_lt ha) hreach
  · by_cases han : a = σ.next
    · exact Or.inr han
    · exact Or.inl (by simpa [Heap.alloc, han] using hb)
  · by_cases han : a = σ.next
    · subst han
      exact Nat.lt_irrefl _ (hc k _ (by simpa [Heap.alloc] using hn))
    · exact Nat.lt_irrefl _ (h.cell a k _ (by simpa [Heap.alloc, han] using hn)).2

theorem reach_alloc_new (h : σ.Wf) (hc : ∀ k o, contents k = some o → o < σ.next)
    (hreach : Reach (σ.alloc contents made).cell σ.next b) :
    b = σ.next ∨ ∃ k w, contents k = some w ∧ Reach σ.cell w b := by
  rcases Relation.ReflTransGen.cases_head hreach with rfl | ⟨w, ⟨k, hk⟩, hrest⟩
  · exact Or.inl rfl
  · have hw : contents k = some w := by simpa [Heap.alloc] using hk
    exact Or.inr ⟨k, w, hw, reach_alloc h hc (hc k w hw) hrest⟩

end

/-! ## Small heaps and functions -/

/-- No objects at all. -/
def emptyHeap : Heap where
  slot _ := none
  cell _ _ := none
  next := 0
  made _ := none
  kept := ∅
  passed := ∅

theorem emptyHeap_enters (mir : MirFunction) : Enters mir ⟨entryCursor mir, emptyHeap⟩ where
  cursor := rfl
  wf := ⟨nofun, nofun, nofun, nofun, nofun⟩

/-- Contents with one object. -/
def holding (o : ObjId) : Contents := fun k => if k = .elem 0 then some o else none

theorem holds_holding (o : ObjId) : Holds (holding o) [some o] := by
  refine ⟨fun k o' h => ?_, fun o' h => ⟨.elem 0, ?_⟩⟩
  · unfold holding at h
    split at h
    · rw [← Option.some.inj h]
      exact List.mem_cons_self
    · cases h
  · rw [Option.some.inj (List.mem_singleton.mp h)]
    rfl

/-- Nothing captured. -/
theorem holds_none : Holds (fun _ => none) [none] := ⟨nofun, fun o h => by simp at h⟩

/-- One block of statements that returns. -/
def straightLine (kinds : List StatementKind) : List BasicBlock :=
  [⟨0, kinds.zipIdx.map fun kind => ⟨kind.1, ⟨0, 0⟩, kind.2⟩, ⟨.ret, ⟨0, 0⟩⟩⟩]

end ShapeLang.Mir
