import Mathlib

/-!
# ShapeLang — the MIR data model

The mid-level IR that every compiler analysis of the development runs over
(`crates/shape-vm/src/mir/types.rs`): places, operands, rvalues, statements, terminators,
basic blocks and functions.

Identifiers are natural numbers (the `u16`/`u32` newtypes of the source). Payloads no modelled
analysis reads are left out: the tolerance of a fuzzy comparison, the annotation of a type-pattern
test, the format policy, the JIT-only side tables of a function. The constructors themselves all
stay, because the analyses match on them.

A `MirFunction` carries the invariants the builder establishes (`lowering/mod.rs`): blocks are
sorted by id so that `block(id)` is an index, every jump target exists, and each pushed statement
takes a fresh program point.
-/

namespace ShapeLang.Mir

/-! ## Identifiers -/

/-- Index of a local variable slot; slot `0` is the return slot. -/
abbrev SlotId := Nat

abbrev FieldIdx := Nat

abbrev BasicBlockId := Nat

/-- A program point: the number a statement got when it was pushed. -/
abbrev Point := Nat

/-- Identifier of a loan, numbered in listing order of the borrows. -/
abbrev LoanId := Nat

/-- `u32::MAX`, which the borrow solver reserves as a sentinel. -/
def u32Max : Nat := 2 ^ 32 - 1

structure Span where
  start : Nat
  stop : Nat
  deriving DecidableEq, Repr, Inhabited

/-- A normalized step of a projection chain. Index steps are summarized without their operand. -/
inductive ProjectionStep where
  | field (f : FieldIdx)
  | index
  deriving DecidableEq, Repr

/-! ## Places and operands -/

/-- A constant operand (`MirConstant`); floats are stored as bits. -/
inductive MirConstant where
  | int (v : Int)
  | bool (b : Bool)
  | none
  | stringId (id : Nat)
  | str (s : String)
  | float (bits : Nat)
  | decimal (lexeme : String)
  | char (c : Char)
  | function (name : String)
  | method (name : String)
  | closurePlaceholder
  deriving DecidableEq, Repr

mutual

/-- A place is something that can be borrowed or assigned to. -/
inductive Place where
  | localSlot (slot : SlotId)
  | field (base : Place) (f : FieldIdx)
  | index (base : Place) (idx : Operand)
  | deref (base : Place)
  deriving DecidableEq, Repr

inductive Operand where
  | copy (p : Place)
  | move (p : Place)
  | moveExplicit (p : Place)
  | constant (c : MirConstant)
  deriving DecidableEq, Repr

end

namespace Place

/-- The root local of a place (`x.a.b` has root `x`). -/
def rootLocal : Place → SlotId
  | localSlot slot => slot
  | field base _ => base.rootLocal
  | index base _ => base.rootLocal
  | deref base => base.rootLocal

/-- Is `p` a prefix of the second place? `x` is a prefix of `x`, of `x.a` and of `x[i]`. -/
def isPrefixOf (p : Place) : Place → Bool
  | localSlot s => p == localSlot s
  | field base f => p == field base f || p.isPrefixOf base
  | index base i => p == index base i || p.isPrefixOf base
  | deref base => p == deref base || p.isPrefixOf base

/-- Structural overlap: disjoint fields of one base do not overlap, index steps always do. -/
def overlaps : Place → Place → Bool
  | localSlot a, localSlot b => a == b
  | field baseA fieldA, field baseB fieldB =>
      if baseA = baseB then fieldA == fieldB else overlaps baseA baseB
  | index baseA _, index baseB _ => overlaps baseA baseB
  | p, q => p.isPrefixOf q || q.isPrefixOf p

/-- Do two places conflict (one borrows or writes something the other uses)? -/
def conflictsWith (p q : Place) : Bool :=
  if p.rootLocal ≠ q.rootLocal then false
  else p.isPrefixOf q || q.isPrefixOf p || p.overlaps q

def projectionSteps : Place → List ProjectionStep
  | localSlot _ => []
  | field base f => base.projectionSteps ++ [.field f]
  | index base _ => base.projectionSteps ++ [.index]
  | deref base => base.projectionSteps

@[simp] theorem isPrefixOf_self (p : Place) : p.isPrefixOf p = true := by
  cases p <;> simp [isPrefixOf]

end Place

namespace Operand

def place? : Operand → Option Place
  | copy p => some p
  | move p => some p
  | moveExplicit p => some p
  | constant _ => none

end Operand

mutual

/-- The slots an operand reads: the root of its place and what the indices inside it read. -/
def Operand.reads : Operand → List SlotId
  | .copy place => place.rootLocal :: place.indexReads
  | .move place => place.rootLocal :: place.indexReads
  | .moveExplicit place => place.rootLocal :: place.indexReads
  | .constant _ => []

/-- The slots read by index operands inside a place. -/
def Place.indexReads : Place → List SlotId
  | .localSlot _ => []
  | .field base _ => base.indexReads
  | .deref base => base.indexReads
  | .index base i => base.indexReads ++ i.reads

end

/-! ## Rvalues, statements, terminators -/

inductive BorrowKind where
  | shared
  | exclusive
  deriving DecidableEq, Repr

inductive VariantTag where
  | ok
  | err
  | some_
  | none_
  deriving DecidableEq, Repr

inductive BinOp where
  | add | sub | mul | div | mod | pow
  | bitAnd | bitOr | bitXor | bitShl | bitShr
  | eq | ne | lt | le | gt | ge
  | and | or
  deriving DecidableEq, Repr

inductive UnOp where
  | neg | not | bitNot
  deriving DecidableEq, Repr

inductive Rvalue where
  | use (op : Operand)
  | borrow (kind : BorrowKind) (place : Place)
  | binaryOp (op : BinOp) (lhs rhs : Operand)
  | fuzzyComparison (lhs rhs : Operand)
  | unaryOp (op : UnOp) (operand : Operand)
  | formatValue (operand : Operand)
  | aggregate (operands : List Operand)
  | clone (operand : Operand)
  | enumTest (operand : Operand) (variant : VariantTag)
  | enumPayload (operand : Operand) (variant : VariantTag)
  | typePatternTest (operand : Operand)
  | enumDiscriminantTest (operand : Operand) (enumName : Option String) (variantName : String)
  | primitiveCast (operand : Operand) (target : String)
  deriving DecidableEq, Repr

/-- Detached tasks outlive the declaring scope, structured ones are joined in it. -/
inductive TaskBoundaryKind where
  | detached
  | structured
  deriving DecidableEq, Repr

inductive StatementKind where
  | assign (place : Place) (rvalue : Rvalue)
  | drop (place : Place)
  | taskBoundary (operands : List Operand) (kind : TaskBoundaryKind)
  | closureCapture (closureSlot : SlotId) (operands : List Operand)
  | arrayStore (containerSlot : SlotId) (operands : List Operand)
  | objectStore (containerSlot : SlotId) (operands : List Operand)
  | enumStore (containerSlot : SlotId) (operands : List Operand)
  | moduleBindingStore (bindingName : String) (operands : List Operand)
  | nop
  deriving DecidableEq, Repr

structure MirStatement where
  kind : StatementKind
  span : Span
  point : Point
  deriving DecidableEq, Repr

inductive TerminatorKind where
  | goto (target : BasicBlockId)
  | switchBool (operand : Operand) (trueBb falseBb : BasicBlockId)
  | call (func : Operand) (args : List Operand) (destination : Place) (next : BasicBlockId)
  | ret
  | unreachable
  deriving DecidableEq, Repr

structure Terminator where
  kind : TerminatorKind
  span : Span
  deriving DecidableEq, Repr

/-- The blocks a terminator may jump to (`ControlFlowGraph::terminator_successors`). -/
def terminatorSuccessors : TerminatorKind → List BasicBlockId
  | .goto target => [target]
  | .switchBool _ trueBb falseBb => [trueBb, falseBb]
  | .call _ _ _ next => [next]
  | .ret => []
  | .unreachable => []

/-! The operands an rvalue or a statement evaluates. A borrow evaluates none: it names a place. -/

def Rvalue.operands : Rvalue → List Operand
  | .use op => [op]
  | .borrow _ _ => []
  | .binaryOp _ lhs rhs => [lhs, rhs]
  | .fuzzyComparison lhs rhs => [lhs, rhs]
  | .unaryOp _ op => [op]
  | .formatValue op => [op]
  | .aggregate ops => ops
  | .clone op => [op]
  | .enumTest op _ => [op]
  | .enumPayload op _ => [op]
  | .typePatternTest op => [op]
  | .enumDiscriminantTest op _ _ => [op]
  | .primitiveCast op _ => [op]

def StatementKind.operands : StatementKind → List Operand
  | .assign _ rvalue => rvalue.operands
  | .drop _ => []
  | .taskBoundary ops _ => ops
  | .closureCapture _ ops => ops
  | .arrayStore _ ops => ops
  | .objectStore _ ops => ops
  | .enumStore _ ops => ops
  | .moduleBindingStore _ ops => ops
  | .nop => []

/-! The slots that index operands read inside the places of a statement or a terminator, also of a
place that is only written, borrowed or dropped. -/

def Operand.nestedReads (op : Operand) : List SlotId :=
  match op.place? with
  | some place => place.indexReads
  | none => []

def StatementKind.nestedReads : StatementKind → List SlotId
  | .assign dest (.borrow _ place) => dest.indexReads ++ place.indexReads
  | .assign dest rvalue => dest.indexReads ++ rvalue.operands.flatMap Operand.nestedReads
  | .drop place => place.indexReads
  | kind => kind.operands.flatMap Operand.nestedReads

def TerminatorKind.nestedReads : TerminatorKind → List SlotId
  | .switchBool operand _ _ => operand.nestedReads
  | .call func args destination _ =>
      (func :: args).flatMap Operand.nestedReads ++ destination.indexReads
  | _ => []

/-! ## Blocks and functions -/

structure BasicBlock where
  id : BasicBlockId
  statements : List MirStatement
  terminator : Terminator
  deriving DecidableEq, Repr

inductive LocalTypeInfo where
  | copy
  | nonCopy
  | unknown
  deriving DecidableEq, Repr

/-- The MIR of one function, with the invariants its builder establishes. -/
structure MirFunction where
  name : String
  blocks : List BasicBlock
  numLocals : Nat
  paramSlots : List SlotId
  /-- Per-parameter reference kind, aligned with `paramSlots`. -/
  paramReferenceKinds : List (Option BorrowKind)
  localTypes : List LocalTypeInfo
  span : Span
  /-- Field names, for the accesses that look a field up by name. -/
  fieldNameTable : List (FieldIdx × String)
  /-- Slots that back a user-visible binding. -/
  bindingSlots : List SlotId
  localNames : List String
  /-- Slots that back a `var` smart-default binding. -/
  varBindingSlots : List SlotId
  /-- Blocks are sorted by id, so that `block id` is an index. -/
  block_ids : blocks.map (·.id) = List.range blocks.length
  /-- Every jump target exists. -/
  targets_exist : ∀ b ∈ blocks, ∀ t ∈ terminatorSuccessors b.terminator.kind, t < blocks.length
  /-- Each pushed statement takes a fresh point. -/
  points_nodup : ((blocks.flatMap (·.statements)).map (·.point)).Nodup
  /-- Points stay below the solver's sentinel. -/
  points_lt : ∀ b ∈ blocks, ∀ s ∈ b.statements, s.point < u32Max

namespace MirFunction

variable (mir : MirFunction)

def entryBlock (_mir : MirFunction) : BasicBlockId := 0

def block? (id : BasicBlockId) : Option BasicBlock := mir.blocks[id]?

/-- The statements of a block; none if there is no such block. -/
def statements (id : BasicBlockId) : List MirStatement :=
  ((mir.block? id).map (·.statements)).getD []

variable {mir}

variable {id : BasicBlockId} {b : BasicBlock}

theorem block?_mem (h : mir.block? id = some b) :
    b ∈ mir.blocks :=
  List.mem_of_getElem? h

theorem block?_lt (h : mir.block? id = some b) :
    id < mir.blocks.length :=
  (List.getElem?_eq_some_iff.mp h).1

/-- Looking a block up by id finds the block that carries that id. -/
theorem id_of_block? (h : mir.block? id = some b) :
    b.id = id := by
  have hid : (mir.blocks.map (·.id))[id]? = some b.id := by
    simp only [List.getElem?_map, show mir.blocks[id]? = some b from h, Option.map_some]
  rw [mir.block_ids, List.getElem?_range (block?_lt h)] at hid
  exact (Option.some.inj hid).symm

/-- Every listed block is found under its own id. -/
theorem block?_of_mem (h : b ∈ mir.blocks) : mir.block? b.id = some b := by
  obtain ⟨i, hi⟩ := List.mem_iff_getElem?.mp h
  rw [id_of_block? (show mir.block? i = some b from hi)]
  exact hi

theorem block?_isSome (h : id < mir.blocks.length) :
    ∃ b, mir.block? id = some b :=
  ⟨_, List.getElem?_eq_getElem h⟩

theorem statements_of_block? (h : mir.block? id = some b) :
    mir.statements id = b.statements := by
  simp [statements, h]

end MirFunction

/-- A function with the given blocks and no parameters or names. -/
def bareFunction (blocks : List BasicBlock) (numLocals : Nat)
    (h₁ : blocks.map (·.id) = List.range blocks.length)
    (h₂ : ∀ b ∈ blocks, ∀ t ∈ terminatorSuccessors b.terminator.kind, t < blocks.length)
    (h₃ : ((blocks.flatMap (·.statements)).map (·.point)).Nodup)
    (h₄ : ∀ b ∈ blocks, ∀ s ∈ b.statements, s.point < u32Max) : MirFunction :=
  { name := "f", blocks := blocks, numLocals := numLocals, paramSlots := []
    paramReferenceKinds := [], localTypes := [], span := ⟨0, 0⟩, fieldNameTable := []
    bindingSlots := [], localNames := [], varBindingSlots := [], block_ids := h₁
    targets_exist := h₂, points_nodup := h₃, points_lt := h₄ }

end ShapeLang.Mir
