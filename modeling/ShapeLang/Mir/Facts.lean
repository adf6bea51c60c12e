import ShapeLang.Mir.Cfg
import ShapeLang.Mir.StoragePlanning

/-!
# ShapeLang — borrow facts

`extract_facts` (`crates/shape-vm/src/mir/solver.rs`): one linear scan over the blocks in listing
order that turns a MIR function into the input relations of the borrow solver.

  * `cfgEdges` — point-to-point control flow, computed from the block structure before the scan.
  * `Scan` — the state threaded through the scan: the facts so far, the next loan id, and three
    maps from slots to what the scan believes they hold (loans, reference origins, summaries).
  * `scanStatement`, `scanCall`, `scanBlock` — one turn of the source's loops.
  * `extractFacts` — the whole scan, followed by the pairwise conflict test.

Hash maps are functions or, where the source iterates over them, association lists in insertion
order. A `for` loop that only pushes is the concatenation of what it pushes.
-/

namespace ShapeLang.Mir

/-! ## Result types of the borrow analysis (`analysis.rs`) -/

structure ReturnReferenceSummary where
  paramIndex : Nat
  kind : BorrowKind
  -- `none`: same parameter root, but the projection differs across paths
  projection : Option (List ProjectionStep)
  deriving DecidableEq, Repr

inductive ReferenceOriginRoot where
  | param (index : Nat)
  | localSlot (slot : SlotId)
  deriving DecidableEq, Repr

structure ReferenceOrigin where
  root : ReferenceOriginRoot
  projection : List ProjectionStep
  deriving DecidableEq, Repr

inductive LoanSinkKind where
  | returnSlot
  | closureEnv
  | closureEnvMut
  | arrayStore
  | objectStore
  | enumStore
  | arrayAssignment
  | objectAssignment
  | structuredTaskBoundary
  | detachedTaskBoundary
  | moduleBindingStore
  deriving DecidableEq, Repr

structure LoanSink where
  loanId : LoanId
  kind : LoanSinkKind
  sinkSlot : Option SlotId
  span : Span
  deriving DecidableEq, Repr

structure LoanInfo where
  id : LoanId
  borrowedPlace : Place
  kind : BorrowKind
  issuedAt : Point
  span : Span
  regionDepth : Nat
  deriving DecidableEq, Repr

/-- Callee return-reference summaries, keyed by function name. -/
abbrev CalleeSummaries := String → Option ReturnReferenceSummary

/-- The input relations of the solver. -/
structure BorrowFacts where
  loanIssuedAt : List (LoanId × Point) := []
  cfgEdge : List (Point × Point) := []
  invalidates : List (Point × LoanId) := []
  useOfLoan : List (LoanId × Point) := []
  pointSpans : List (Point × Span) := []
  loanInfo : List (LoanId × LoanInfo) := []
  potentialConflicts : List (LoanId × LoanId) := []
  writes : List (Point × Place × Span) := []
  reads : List (Point × Place × Span) := []
  slotEscapeStatus : SlotId → Option EscapeStatus := fun _ => none
  escapedLoans : List (LoanId × Span) := []
  loanSinks : List LoanSink := []
  taskBoundaryLoans : List (LoanId × Span) := []
  closureCaptureLoans : List (LoanId × Span) := []
  arrayStoreLoans : List (LoanId × Span) := []
  objectStoreLoans : List (LoanId × Span) := []
  enumStoreLoans : List (LoanId × Span) := []
  objectAssignmentLoans : List (LoanId × Span) := []
  arrayAssignmentLoans : List (LoanId × Span) := []
  returnReferenceCandidates : List (ReturnReferenceSummary × Span) := []
  nonReferenceReturnSpans : List Span := []
  nonSendableTaskBoundary : List (SlotId × Span) := []

/-- `facts.loan_info[&id]`. Every loan id the scan holds has an entry. -/
def BorrowFacts.infoOf (facts : BorrowFacts) (id : LoanId) : Option LoanInfo :=
  facts.loanInfo.lookup id

/-! ## Reads -/

mutual

def operandReadPlaces : Operand → List Place
  | .copy place => place :: placeNestedReadPlaces place
  | .move place => place :: placeNestedReadPlaces place
  | .moveExplicit place => place :: placeNestedReadPlaces place
  | .constant _ => []

def placeNestedReadPlaces : Place → List Place
  | .localSlot _ => []
  | .field base _ => placeNestedReadPlaces base
  | .deref base => placeNestedReadPlaces base
  | .index base index => placeNestedReadPlaces base ++ operandReadPlaces index

end

def statementReadPlaces : StatementKind → List Place
  | .drop place => placeNestedReadPlaces place
  | kind => kind.operands.flatMap operandReadPlaces

/-! ## Loans and references carried by slots -/

/-- The slot an rvalue copies whole: `Use` of any operand form, or `Clone` of a copy or move. -/
def aliasSource : Rvalue → Option SlotId
  | .use (.copy (.localSlot src)) => some src
  | .use (.move (.localSlot src)) => some src
  | .use (.moveExplicit (.localSlot src)) => some src
  | .clone (.copy (.localSlot src)) => some src
  | .clone (.move (.localSlot src)) => some src
  | _ => none

def localLoansFromOperand (slotLoans : SlotId → Option (List LoanId)) (op : Operand) :
    List LoanId :=
  match op.place? with
  | some place => (slotLoans place.rootLocal).getD []
  | none => []

def localLoansFromOperands (slotLoans : SlotId → Option (List LoanId)) (ops : List Operand) :
    List LoanId :=
  (ops.flatMap (localLoansFromOperand slotLoans)).eraseDups

/-- An alias takes over the entry of its source; any other value clears the entry. -/
def updateFromAlias {β : Type} (slots : SlotId → Option β) (dest : SlotId) (rvalue : Rvalue) :
    SlotId → Option β :=
  match aliasSource rvalue with
  | some src => Function.update slots dest (slots src)
  | none => Function.update slots dest none

def updateSlotLoanAliases (slotLoans : SlotId → Option (List LoanId)) (dest : SlotId)
    (rvalue : Rvalue) : SlotId → Option (List LoanId) :=
  match rvalue with
  | .borrow _ _ => slotLoans
  | rvalue => updateFromAlias slotLoans dest rvalue

def localLoansFromRvalue (slotLoans : SlotId → Option (List LoanId)) (rvalue : Rvalue) :
    List LoanId :=
  match aliasSource rvalue with
  | some src => (slotLoans src).getD []
  | none => []

def updateSlotReferenceSummaries (summaries : SlotId → Option ReturnReferenceSummary)
    (dest : SlotId) (rvalue : Rvalue) : SlotId → Option ReturnReferenceSummary :=
  updateFromAlias summaries dest rvalue

def referenceSummaryFromRvalue (summaries : SlotId → Option ReturnReferenceSummary)
    (rvalue : Rvalue) : Option ReturnReferenceSummary :=
  (aliasSource rvalue).bind summaries

def referenceOriginForPlace (place : Place) (paramSlots : List SlotId) : ReferenceOrigin :=
  { root := match paramSlots.findIdx? (· == place.rootLocal) with
      | some index => .param index
      | none => .localSlot place.rootLocal
    projection := place.projectionSteps }

def updateSlotReferenceOrigins (origins : SlotId → Option (BorrowKind × ReferenceOrigin))
    (dest : SlotId) (rvalue : Rvalue) : SlotId → Option (BorrowKind × ReferenceOrigin) :=
  updateFromAlias origins dest rvalue

def referenceOriginFromRvalue (origins : SlotId → Option (BorrowKind × ReferenceOrigin))
    (rvalue : Rvalue) : Option (BorrowKind × ReferenceOrigin) :=
  match rvalue with
  | .borrow kind place => some (kind, referenceOriginForPlace place [])
  | rvalue => (aliasSource rvalue).bind origins

def referenceSummaryFromOrigin (borrowKind : BorrowKind) (origin : ReferenceOrigin) :
    Option ReturnReferenceSummary :=
  match origin.root with
  | .param paramIndex => some ⟨paramIndex, borrowKind, some origin.projection⟩
  | .localSlot _ => none

def safeReferenceSummaryForBorrow (borrowKind : BorrowKind) (borrowedPlace : Place)
    (paramSummaries : SlotId → Option ReturnReferenceSummary) : Option ReturnReferenceSummary :=
  (paramSummaries borrowedPlace.rootLocal).map fun summary =>
    ⟨summary.paramIndex, borrowKind, some borrowedPlace.projectionSteps⟩

/-- The callee dictates the borrow kind, the argument the parameter. Projections concatenate only
when both are known and the callee's has no field step (field indices are per function). -/
def composeReturnReferenceSummary (arg callee : ReturnReferenceSummary) : ReturnReferenceSummary :=
  { paramIndex := arg.paramIndex
    kind := callee.kind
    projection := match arg.projection, callee.projection with
      | some argProj, some calleeProj =>
          if calleeProj.any (fun step => match step with | .field _ => true | .index => false)
          then none
          else some (argProj ++ calleeProj)
      | _, _ => none }

/-! ## Control-flow edges between points -/

/-- The point the scan takes for the end of a block: its last statement's, or `0` without one. -/
def lastPoint (block : BasicBlock) : Point :=
  (block.statements.getLast?.map (·.point)).getD 0

def blockEdges (mir : MirFunction) (cfg : ControlFlowGraph) (block : BasicBlock) :
    List (Point × Point) :=
  (block.statements.zip block.statements.tail).map (fun (a, b) => (a.point, b.point))
    ++ (cfg.successors block.id).filterMap fun succ =>
        (mir.statements succ).head?.map fun first => (lastPoint block, first.point)

def cfgEdges (mir : MirFunction) (cfg : ControlFlowGraph) : List (Point × Point) :=
  mir.blocks.flatMap (blockEdges mir cfg)

/-! ## The scan -/

/-- What the scan reads but never changes. -/
structure ScanContext where
  paramSlots : List SlotId
  paramSummaries : SlotId → Option ReturnReferenceSummary
  closureCaptureSlots : List SlotId
  calleeSummaries : CalleeSummaries

structure Scan where
  facts : BorrowFacts
  nextLoan : LoanId
  slotLoans : SlotId → Option (List LoanId)
  slotReferenceOrigins : SlotId → Option (BorrowKind × ReferenceOrigin)
  slotReferenceSummaries : SlotId → Option ReturnReferenceSummary

namespace Scan

variable (cx : ScanContext)

/-- `dest = &place`, when `dest` is a whole local. -/
def borrowIntoLocal (st : Scan) (stmt : MirStatement) (slot : SlotId) (kind : BorrowKind)
    (place : Place) (loanId : LoanId) : Scan :=
  let contract := safeReferenceSummaryForBorrow kind place cx.paramSummaries
  { st with
    slotLoans := Function.update st.slotLoans slot (some [loanId])
    slotReferenceOrigins := Function.update st.slotReferenceOrigins slot
      (some (kind, referenceOriginForPlace place cx.paramSlots))
    slotReferenceSummaries := Function.update st.slotReferenceSummaries slot contract
    facts :=
      if slot = 0 then
        match contract with
        | some contract => { st.facts with
            returnReferenceCandidates :=
              st.facts.returnReferenceCandidates ++ [(contract, stmt.span)] }
        | none => { st.facts with
            escapedLoans := st.facts.escapedLoans ++ [(loanId, stmt.span)]
            loanSinks := st.facts.loanSinks ++ [⟨loanId, .returnSlot, some slot, stmt.span⟩] }
      else st.facts }

/-- Parameters live for the whole function (depth `0`), locals within its body (depth `1`). -/
def newLoan (loanId : LoanId) (stmt : MirStatement) (kind : BorrowKind) (place : Place) :
    LoanInfo :=
  { id := loanId
    borrowedPlace := place
    kind := kind
    issuedAt := stmt.point
    span := stmt.span
    regionDepth := if place.rootLocal ∈ cx.paramSlots then 0 else 1 }

/-- `dest = &place`: a fresh loan. -/
def borrow (st : Scan) (stmt : MirStatement) (dest : Place) (kind : BorrowKind) (place : Place) :
    Scan :=
  let loanId := st.nextLoan
  let st1 := match dest with
    | .localSlot slot => st.borrowIntoLocal cx stmt slot kind place loanId
    | _ => st
  { st1 with
    nextLoan := loanId + 1
    facts := { st1.facts with
      loanIssuedAt := st1.facts.loanIssuedAt ++ [(loanId, stmt.point)]
      loanInfo := st1.facts.loanInfo ++ [(loanId, newLoan cx loanId stmt kind place)] } }

/-- A value that is not a borrow reaches the return slot. -/
def assignReturn (st : Scan) (stmt : MirStatement) (rvalue : Rvalue) : Scan :=
  let fromSummary := (referenceSummaryFromRvalue st.slotReferenceSummaries rvalue).toList
  let fromOrigin := ((referenceOriginFromRvalue st.slotReferenceOrigins rvalue).bind
    fun (kind, origin) => referenceSummaryFromOrigin kind origin).toList
  let loans := localLoansFromRvalue st.slotLoans rvalue
  let contractOf := fun loan => (st.facts.infoOf loan).bind fun info =>
    safeReferenceSummaryForBorrow info.kind info.borrowedPlace cx.paramSummaries
  let candidates := fromSummary ++ fromOrigin ++ loans.filterMap contractOf
  let escaping := loans.filter fun loan => (contractOf loan).isNone
  { st with facts := { st.facts with
      returnReferenceCandidates :=
        st.facts.returnReferenceCandidates ++ candidates.map (·, stmt.span)
      escapedLoans := st.facts.escapedLoans ++ escaping.map (·, stmt.span)
      loanSinks := st.facts.loanSinks ++ escaping.map (⟨·, .returnSlot, some 0, stmt.span⟩)
      nonReferenceReturnSpans := st.facts.nonReferenceReturnSpans
        ++ (if candidates.isEmpty then [stmt.span] else []) } }

def assignLocal (st : Scan) (stmt : MirStatement) (dest : SlotId) (rvalue : Rvalue) : Scan :=
  let st1 := { st with
    slotLoans := updateSlotLoanAliases st.slotLoans dest rvalue
    slotReferenceOrigins := updateSlotReferenceOrigins st.slotReferenceOrigins dest rvalue
    slotReferenceSummaries := updateSlotReferenceSummaries st.slotReferenceSummaries dest rvalue }
  if dest = 0 then st1.assignReturn cx stmt rvalue else st1

/-- Loans written through a field or an index into an aggregate. -/
def assignSinks (st : Scan) (stmt : MirStatement) (place : Place) (rvalue : Rvalue) : Scan :=
  let loans := localLoansFromRvalue st.slotLoans rvalue
  match place with
  | .field _ _ => { st with facts := { st.facts with
      objectAssignmentLoans := st.facts.objectAssignmentLoans ++ loans.map (·, stmt.span)
      loanSinks := st.facts.loanSinks
        ++ loans.map (⟨·, .objectAssignment, some place.rootLocal, stmt.span⟩) } }
  | .index _ _ => { st with facts := { st.facts with
      arrayAssignmentLoans := st.facts.arrayAssignmentLoans ++ loans.map (·, stmt.span)
      loanSinks := st.facts.loanSinks
        ++ loans.map (⟨·, .arrayAssignment, some place.rootLocal, stmt.span⟩) } }
  | _ => st

def recordWrite (st : Scan) (stmt : MirStatement) (place : Place) : Scan :=
  { st with facts := { st.facts with
      writes := st.facts.writes ++ [(stmt.point, place, stmt.span)] } }

/-- A write to `place` at `point` invalidates the loans on it among those issued so far. -/
def invalidate (st : Scan) (point : Point) (place : Place) : Scan :=
  { st with facts := { st.facts with
      invalidates := st.facts.invalidates
        ++ (st.facts.loanInfo.filter fun entry =>
            place.conflictsWith entry.2.borrowedPlace).map fun entry => (point, entry.1) } }

def assign (st : Scan) (stmt : MirStatement) (place : Place) (rvalue : Rvalue) : Scan :=
  let st1 := match place with
    | .localSlot dest => st.assignLocal cx stmt dest rvalue
    | _ => st
  let st2 := st1.assignSinks stmt place rvalue
  (st2.recordWrite stmt place).invalidate stmt.point place

def taskBoundary (st : Scan) (stmt : MirStatement) (operands : List Operand)
    (kind : TaskBoundaryKind) : Scan :=
  let loans := localLoansFromOperands st.slotLoans operands
  -- all references are rejected across detached tasks, only exclusive ones across structured
  let rejected := loans.filter fun loan => kind = .detached
    ∨ (st.facts.infoOf loan).map (·.kind) = some .exclusive
  let sink := match kind with
    | .detached => LoanSinkKind.detachedTaskBoundary
    | .structured => LoanSinkKind.structuredTaskBoundary
  let nonSendable := operands.filterMap fun op =>
    match op with
    | .copy (.localSlot slot) => if slot ∈ cx.closureCaptureSlots then some slot else none
    | .move (.localSlot slot) => if slot ∈ cx.closureCaptureSlots then some slot else none
    | _ => none
  { st with facts := { st.facts with
      taskBoundaryLoans := st.facts.taskBoundaryLoans ++ rejected.map (·, stmt.span)
      loanSinks := st.facts.loanSinks ++ rejected.map (⟨·, sink, none, stmt.span⟩)
      nonSendableTaskBoundary := st.facts.nonSendableTaskBoundary
        ++ (if kind = .detached then nonSendable.map (·, stmt.span) else []) } }

/-- The effect of a statement on the facts, its reads apart. -/
def effect (st : Scan) (stmt : MirStatement) : Scan :=
  match stmt.kind with
  | .assign dest (.borrow kind place) => st.borrow cx stmt dest kind place
  | .assign place rvalue => st.assign cx stmt place rvalue
  | .drop place => st.invalidate stmt.point place
  | .taskBoundary operands kind => st.taskBoundary cx stmt operands kind
  | .closureCapture closureSlot operands =>
      let loans := localLoansFromOperands st.slotLoans operands
      { st with facts := { st.facts with
          closureCaptureLoans := st.facts.closureCaptureLoans ++ loans.map (·, stmt.span)
          loanSinks := st.facts.loanSinks
            ++ loans.map (⟨·, .closureEnv, some closureSlot, stmt.span⟩) } }
  | .arrayStore containerSlot operands =>
      let loans := localLoansFromOperands st.slotLoans operands
      { st with facts := { st.facts with
          arrayStoreLoans := st.facts.arrayStoreLoans ++ loans.map (·, stmt.span)
          loanSinks := st.facts.loanSinks
            ++ loans.map (⟨·, .arrayStore, some containerSlot, stmt.span⟩) } }
  | .objectStore containerSlot operands =>
      let loans := localLoansFromOperands st.slotLoans operands
      { st with facts := { st.facts with
          objectStoreLoans := st.facts.objectStoreLoans ++ loans.map (·, stmt.span)
          loanSinks := st.facts.loanSinks
            ++ loans.map (⟨·, .objectStore, some containerSlot, stmt.span⟩) } }
  | .enumStore containerSlot operands =>
      let loans := localLoansFromOperands st.slotLoans operands
      { st with facts := { st.facts with
          enumStoreLoans := st.facts.enumStoreLoans ++ loans.map (·, stmt.span)
          loanSinks := st.facts.loanSinks
            ++ loans.map (⟨·, .enumStore, some containerSlot, stmt.span⟩) } }
  | .moduleBindingStore _ operands =>
      let loans := localLoansFromOperands st.slotLoans operands
      { st with facts := { st.facts with
          escapedLoans := st.facts.escapedLoans ++ loans.map (·, stmt.span)
          loanSinks := st.facts.loanSinks
            ++ loans.map (⟨·, .moduleBindingStore, none, stmt.span⟩) } }
  | .nop => st

/-- A read of a whole local uses every loan the scan believes the local to hold. -/
def usesOf (st : Scan) (point : Point) : Place → List (LoanId × Point)
  | .localSlot slot => ((st.slotLoans slot).getD []).map (·, point)
  | _ => []

def recordReads (st : Scan) (stmt : MirStatement) : Scan :=
  let reads := statementReadPlaces stmt.kind
  { st with facts := { st.facts with
      reads := st.facts.reads ++ reads.map (stmt.point, ·, stmt.span)
      useOfLoan := st.facts.useOfLoan ++ reads.flatMap (st.usesOf stmt.point) } }

def recordPoint (st : Scan) (stmt : MirStatement) : Scan :=
  { st with facts := { st.facts with
      pointSpans := st.facts.pointSpans ++ [(stmt.point, stmt.span)] } }

def scanStatement (st : Scan) (stmt : MirStatement) : Scan :=
  ((st.recordPoint stmt).effect cx stmt).recordReads stmt

/-- The destination of a call inherits the loans of the argument's slot. -/
def inheritLoans (st : Scan) (argSlot dest : SlotId) : Scan :=
  match st.slotLoans argSlot with
  | some loans => { st with slotLoans := Function.update st.slotLoans dest (some loans) }
  | none => st

/-- It also takes the composed reference summary, and an origin while the projection is known. -/
def composeSummary (st : Scan) (argSlot dest : SlotId) (callee : ReturnReferenceSummary) : Scan :=
  match st.slotReferenceSummaries argSlot with
  | none => st
  | some argSummary =>
      let composed := composeReturnReferenceSummary argSummary callee
      { st with
        slotReferenceOrigins :=
          match composed.projection, st.slotReferenceOrigins argSlot, callee.projection with
          | some _, some (_, origin), some calleeProj =>
              Function.update st.slotReferenceOrigins dest
                (some (composed.kind, ⟨origin.root, origin.projection ++ calleeProj⟩))
          | _, _, _ => st.slotReferenceOrigins
        slotReferenceSummaries := Function.update st.slotReferenceSummaries dest (some composed) }

/-- Compose the callee's return summary with the argument it returns a reference into. -/
def composeCallee (st : Scan) (args : List Operand) (dest : SlotId)
    (callee : ReturnReferenceSummary) : Scan :=
  match (args[callee.paramIndex]?).bind Operand.place? with
  | some argPlace =>
      (st.inheritLoans argPlace.rootLocal dest).composeSummary argPlace.rootLocal dest callee
  | none => st

def clearSlot (st : Scan) (dest : SlotId) : Scan :=
  { st with
    slotLoans := Function.update st.slotLoans dest none
    slotReferenceOrigins := Function.update st.slotReferenceOrigins dest none
    slotReferenceSummaries := Function.update st.slotReferenceSummaries dest none }

/-- Only calls of named functions compose; closures and methods are cleared conservatively. -/
def callResult (st : Scan) (func : Operand) (args : List Operand) (dest : SlotId) : Scan :=
  match func with
  | .constant (.function calleeName) =>
      match cx.calleeSummaries calleeName with
      | some callee => st.composeCallee args dest callee
      | none => st
  | _ => st

def callUses (st : Scan) (func : Operand) (args : List Operand) (point : Point) :
    List (LoanId × Point) :=
  (func :: args).flatMap fun op => (localLoansFromOperand st.slotLoans op).map (·, point)

def recordUses (st : Scan) (uses : List (LoanId × Point)) : Scan :=
  { st with facts := { st.facts with useOfLoan := st.facts.useOfLoan ++ uses } }

/-- A call terminator: its operands use the loans of their roots at the block's last point, and
its destination is cleared, then takes what the callee's summary says. -/
def scanCall (st : Scan) (block : BasicBlock) : Scan :=
  match block.terminator.kind with
  | .call func args destination _ =>
      ((st.recordUses (st.callUses func args (lastPoint block))).clearSlot
        destination.rootLocal).callResult cx func args destination.rootLocal
  | _ => st

def scanBlock (st : Scan) (block : BasicBlock) : Scan :=
  (block.statements.foldl (scanStatement cx) st).scanCall cx block

end Scan

/-! ## The whole extraction -/

def paramReferenceSummaries (mir : MirFunction) : SlotId → Option ReturnReferenceSummary :=
  mir.paramSlots.zipIdx.foldl (fun summaries (slot, paramIndex) =>
    match (mir.paramReferenceKinds[paramIndex]?).join with
    | some kind => Function.update summaries slot (some ⟨paramIndex, kind, some []⟩)
    | none => summaries) (fun _ => none)

/-- Pairs of loans on overlapping places, at least one of them exclusive. -/
def potentialConflicts : List (LoanId × LoanInfo) → List (LoanId × LoanId)
  | [] => []
  | (a, infoA) :: rest =>
      (rest.filter fun entry => infoA.borrowedPlace.conflictsWith entry.2.borrowedPlace
        && (infoA.kind == .exclusive || entry.2.kind == .exclusive)).map (fun entry => (a, entry.1))
      ++ potentialConflicts rest

def scanContext (mir : MirFunction) (calleeSummaries : CalleeSummaries) : ScanContext :=
  { paramSlots := mir.paramSlots
    paramSummaries := paramReferenceSummaries mir
    closureCaptureSlots := (collectClosureCaptures mir).2
    calleeSummaries := calleeSummaries }

def initialScan (mir : MirFunction) (cfg : ControlFlowGraph) : Scan :=
  { facts := {
      slotEscapeStatus := fun slot =>
        if slot < mir.numLocals then
          some (detectEscapeStatus slot mir (collectClosureCaptures mir).1)
        else none
      cfgEdge := cfgEdges mir cfg }
    nextLoan := 0
    slotLoans := fun _ => none
    slotReferenceOrigins := fun _ => none
    slotReferenceSummaries := paramReferenceSummaries mir }

def scanBlocks (mir : MirFunction) (cfg : ControlFlowGraph) (callees : CalleeSummaries) : Scan :=
  mir.blocks.foldl (Scan.scanBlock (scanContext mir callees)) (initialScan mir cfg)

def extractFacts (mir : MirFunction) (cfg : ControlFlowGraph) (callees : CalleeSummaries) :
    BorrowFacts :=
  let facts := (scanBlocks mir cfg callees).facts
  { facts with potentialConflicts := potentialConflicts facts.loanInfo }

end ShapeLang.Mir
