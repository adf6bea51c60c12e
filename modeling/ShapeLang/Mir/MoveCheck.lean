import ShapeLang.Lib.HashMap
import ShapeLang.Mir.Dominators
import ShapeLang.Mir.Facts

/-!
# ShapeLang — the use-after-move check

`compute_use_after_move_errors` (`crates/shape-vm/src/mir/solver.rs`): a forward dataflow that
carries, for each moved place, the span of one move, and a walk over all blocks that reports the
reads of places in conflict with a moved one.

Joining two states keeps the span that starts first and, of two that start together, the one that
was there. The states are compared with their spans.

The states are hash maps. A search through one takes its keys in the order that `order` gives for
that search; the reports keep the cursor they were made at, which the code does not record.
`display` is the text of a place.
-/

namespace ShapeLang.Mir

open ShapeLang.Lib

inductive OwnershipDecision where
  | move | clone | deepClone | copy
  deriving DecidableEq

/-! ## What a statement borrows, writes and moves -/

def statementBorrowPlace : StatementKind → Option Place
  | .assign _ (.borrow _ place) => some place
  | _ => none

def statementDestPlace : StatementKind → Option Place
  | .assign place _ => some place
  | .drop place => some place
  | _ => none

def reinitializesMovedPlace (destPlace movedPlace : Place) : Bool := destPlace.isPrefixOf movedPlace

section

variable (mir : MirFunction) (decisions : Point → Option OwnershipDecision)

/-- The places a statement consumes. A copied source is consumed only by a binding of the user, an
explicit move only if its root is no copy type. -/
def actualMovePlaces (stmt : MirStatement) : List Place :=
  match stmt.kind with
  | .assign _ (.use (.move place)) => if decisions stmt.point = some .move then [place] else []
  | .assign dest (.use (.copy place)) =>
      if decisions stmt.point = some .move ∧ dest.rootLocal ∈ mir.bindingSlots then [place] else []
  | .assign _ (.use (.moveExplicit place)) =>
    if mir.localTypes[place.rootLocal]? ≠ some .copy then [place] else []
  | _ => []

/-! ## The dataflow -/

/-- The moved places with the span of a move of each. -/
abbrev Moved := HashMap Place Span

def unionMovedPlaces (dest incoming : Moved) : Moved :=
  incoming.entries.foldl (fun dest entry =>
    match dest.lookup entry.1 with
    | some span => if entry.2.start < span.start then dest.insert entry.1 entry.2 else dest
    | none => dest.insert entry.1 entry.2) dest

def retainUnwritten (moved : Moved) : Option Place → Moved
  | some dest => retainKeys moved fun place => !reinitializesMovedPlace dest place
  | none => moved

def applyMoveTransfer (moved : Moved) (stmt : MirStatement) : Moved :=
  (actualMovePlaces mir decisions stmt).foldl (fun moved place => moved.insert place stmt.span)
    (retainUnwritten moved (statementDestPlace stmt.kind))

def callDestination : TerminatorKind → Option Place
  | .call _ _ destination _ => some destination
  | _ => none

/-- Of a call only its destination counts, which it writes. -/
def applyTerminatorMoveTransfer (moved : Moved) (kind : TerminatorKind) : Moved :=
  retainUnwritten moved (callDestination kind)

structure MoveStates where
  inStates : BasicBlockId → Moved
  outStates : BasicBlockId → Moved

def sameMap (a b : Moved) : Bool := decide (a.entries.Perm b.entries)

def blockIn (cfg : ControlFlowGraph) (st : MoveStates) (block : BasicBlockId) : Moved :=
  (cfg.predecessors block).foldl (fun moved pred => unionMovedPlaces moved (st.outStates pred)) ∅

/-- The moved places in front of statement `i` of a block that is entered with `into`. -/
def movedBefore (bb : BasicBlock) (into : Moved) (i : Nat) : Moved :=
  (bb.statements.take i).foldl (applyMoveTransfer mir decisions) into

def blockOut (bb : BasicBlock) (into : Moved) : Moved :=
  applyTerminatorMoveTransfer (movedBefore mir decisions bb into bb.statements.length) bb.terminator.kind

/-- Recompute one block; `none` when neither map changes. -/
def moveStep (cfg : ControlFlowGraph) (st : MoveStates) (block : BasicBlockId) : Option MoveStates :=
  match mir.block? block with
  | none => none
  | some bb =>
      let into := blockIn cfg st block
      let out := blockOut mir decisions bb into
      if sameMap (st.inStates block) into ∧ sameMap (st.outStates block) out then none
      else some
        { inStates := if sameMap (st.inStates block) into then st.inStates
            else Function.update st.inStates block into
          outStates := if sameMap (st.outStates block) out then st.outStates
            else Function.update st.outStates block out }

def moveStates (fuel : Nat) (cfg : ControlFlowGraph) : Option MoveStates := do
  let rpo ← cfg.reversePostorder fuel
  Fixpoint.loop (moveStep mir decisions cfg) rpo fuel { inStates := fun _ => ∅, outStates := fun _ => ∅ }

/-! ## The reports -/

/-- A `BorrowErrorKind::UseAfterMove`; its other fields are constant. -/
structure UseAfterMove where
  span : Span
  loanSpan : Span
  deriving DecidableEq

/-- A search of the moved places, made at a cursor: the number of its key, the span of the report
and what it found. -/
structure Check where
  cursor : Cursor
  keyPoint : Nat
  span : Span
  found : Option (Place × Span)

variable (order : HashOrder Place)

/-- The first moved place, in the order of the walk, that satisfies a test. -/
def findMoved (point : List Nat) (moved : Moved) (test : Place → Bool) : Option (Place × Span) := do
  let place ← (order.walk point moved.keys).find? test
  let span ← moved.lookup place
  some (place, span)

def findMovedPlaceConflict (point : List Nat) (moved : Moved) (accessed : Place) : Option (Place × Span) :=
  findMoved order point moved fun place => accessed.conflictsWith place

/-- The searches at a statement: its reads up to the first that finds something, its borrow and its
destination. -/
def statementChecks (c : Cursor) (moved : Moved) (stmt : MirStatement) : List Check :=
  let check (found : Option (Place × Span)) : Check := ⟨c, stmt.point, stmt.span, found⟩
  let point := [c.block, c.idx]
  check ((statementReadPlaces stmt.kind).findSome? (findMovedPlaceConflict order (point ++ [0]) moved)) ::
  ((statementBorrowPlace stmt.kind).toList.map fun place =>
    check (findMovedPlaceConflict order (point ++ [1]) moved place)) ++
  (statementDestPlace stmt.kind).toList.map fun dest =>
    check (findMoved order (point ++ [2]) moved fun place =>
      dest.conflictsWith place && !reinitializesMovedPlace dest place)

/-- The searches at a terminator: only a call is looked at, and of its operands only the places
themselves. -/
def terminatorChecks (c : Cursor) (moved : Moved) (terminator : Terminator) : List Check :=
  match terminator.kind with
  | .call func args _ _ =>
      ((func :: args).filterMap Operand.place?).map fun place =>
        ⟨c, terminator.span.start % 2 ^ 32, terminator.span, findMovedPlaceConflict order
          [c.block, c.idx] moved place⟩
  | _ => []

def blockChecks (bb : BasicBlock) (into : Moved) : List Check :=
  (bb.statements.zipIdx.flatMap fun (stmt, i) =>
    statementChecks order ⟨bb.id, i⟩ (movedBefore mir decisions bb into i) stmt) ++
  terminatorChecks order ⟨bb.id, bb.statements.length⟩
    (movedBefore mir decisions bb into bb.statements.length)
    bb.terminator

variable (display : Place → String)

/-- `if seen.insert(key) { errors.push(..) }`. -/
def report (st : List (Cursor × UseAfterMove) × List (Nat × String)) (check : Check) :
    List (Cursor × UseAfterMove) × List (Nat × String) :=
  match check.found with
  | none => st
  | some (place, moveSpan) =>
      if (check.keyPoint, display place) ∈ st.2 then st
      else (st.1 ++ [(check.cursor, ⟨check.span, moveSpan⟩)], (check.keyPoint, display place) :: st.2)

/-- The errors with the cursors they are reported at. -/
def useAfterMoveReports (fuel : Nat) (cfg : ControlFlowGraph) : Option (List (Cursor × UseAfterMove)) := do
  let states ← moveStates mir decisions fuel cfg
  let checks := mir.blocks.flatMap fun bb => blockChecks mir decisions order bb (states.inStates bb.id)
  some (checks.foldl (report display) ([], [])).1

def computeUseAfterMoveErrors (fuel : Nat) (cfg : ControlFlowGraph) : Option (List UseAfterMove) :=
  (useAfterMoveReports mir decisions order display fuel cfg).map (·.map Prod.snd)

end

end ShapeLang.Mir
