import ShapeLang.Mir.Types

/-!
# ShapeLang — escape status of a local slot

The part of the storage planner (`crates/shape-vm/src/mir/storage_planning.rs`) the borrow solver
reads: which slots closures capture, and whether a slot's value may leave the function. A slot
flows to the return slot when a chain of whole-local assignments, each using the slot before it,
ends in slot `0`.
-/

namespace ShapeLang.Mir

inductive EscapeStatus where
  | localOnly
  | captured
  | escaped
  deriving DecidableEq, Repr

def operandRootSlot (op : Operand) : Option SlotId := op.place?.map Place.rootLocal

def operandUsesSlot (op : Operand) (slot : SlotId) : Bool :=
  match op.place? with
  | some place => place.rootLocal == slot
  | none => false

def rvalueUsesSlot (rvalue : Rvalue) (slot : SlotId) : Bool :=
  match rvalue with
  | .borrow _ place => place.rootLocal == slot
  | rvalue => rvalue.operands.any (operandUsesSlot · slot)

/-- Every statement of the function, in listing order. -/
def MirFunction.allStatements (mir : MirFunction) : List MirStatement :=
  mir.blocks.flatMap (·.statements)

/-- Slots captured by closures, and those among them that are assigned more than once. -/
def collectClosureCaptures (mir : MirFunction) : List SlotId × List SlotId :=
  let allCaptures := mir.allStatements.flatMap fun stmt =>
    match stmt.kind with
    | .closureCapture _ operands => operands.filterMap operandRootSlot
    | _ => []
  let assignCount := fun slot => mir.allStatements.countP fun stmt =>
    match stmt.kind with
    | .assign (.localSlot s) _ => s == slot
    | _ => false
  (allCaptures, allCaptures.filter fun slot => assignCount slot > 1)

/-- The depth-first search of `slot_flows_to_return`; `visited` is threaded through, and a `true`
ends the search. Each nested call enters a slot some statement assigns, so one more turn than
there are statements is enough. -/
def slotFlowsToReturn (mir : MirFunction) : Nat → SlotId → List SlotId → Bool × List SlotId
  | 0, _, visited => (false, visited)
  | fuel + 1, slot, visited =>
      if slot ∈ visited then (false, visited)
      else
        mir.allStatements.foldl (fun (found, visited) stmt =>
          if found then (true, visited)
          else match stmt.kind with
            | .assign (.localSlot dest) rvalue =>
                if !rvalueUsesSlot rvalue slot then (false, visited)
                else if dest = 0 then (true, visited)
                else if dest ≠ slot then slotFlowsToReturn mir fuel dest visited
                else (false, visited)
            | _ => (false, visited)) (false, slot :: visited)

def detectEscapeStatus (slot : SlotId) (mir : MirFunction) (closureCaptures : List SlotId) :
    EscapeStatus :=
  if slot ≠ 0 ∧ (slotFlowsToReturn mir (mir.allStatements.length + 1) slot []).1 then .escaped
  else if slot ∈ closureCaptures then .captured
  else .localOnly

end ShapeLang.Mir
