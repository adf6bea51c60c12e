import ShapeLang.Lib.Worklist
import ShapeLang.Mir.Facts

/-!
# ShapeLang — the borrow solver

`solve_with_options` (`crates/shape-vm/src/mir/solver.rs`). A loan is live at a point when

  * it is *forward live* there: the Datafrog iteration propagates it from its issue point along
    `cfgEdge`, and stops behind a point that invalidates it; and
  * some use of it lies ahead: the backward walk `computeNllLivePoints` from the uses reaches the
    point, unless no use is reachable from the issue point at all.

The loans live at each point then decide the conflict, write and read errors; sinks, escapes and
the return summary give the rest.

Datafrog is a third-party crate. `Datafrog` holds the one iteration the solver runs on it together
with what its documentation promises: the least set that contains the seed and is closed under
the rule. `Datafrog.worklist` is an instance, so the solver can be evaluated.
-/

namespace ShapeLang.Mir

/-! ## Errors (`analysis.rs`) -/

inductive BorrowErrorKind where
  | conflictSharedExclusive
  | conflictExclusiveExclusive
  | readWhileExclusivelyBorrowed
  | writeWhileBorrowed
  | referenceEscape
  | referenceStoredInArray
  | referenceStoredInObject
  | referenceStoredInEnum
  | referenceEscapeIntoClosure
  | referenceEscapeIntoModuleBinding
  | useAfterMove
  | exclusiveRefAcrossTaskBoundary
  | sharedRefAcrossDetachedTask
  | inconsistentReferenceReturn
  | callSiteAliasConflict
  | nonSendableAcrossTaskBoundary
  deriving DecidableEq, Repr

-- The repair candidates of the source are left out: the solver always leaves them empty.
structure BorrowError where
  kind : BorrowErrorKind
  span : Span
  conflictingLoan : LoanId
  loanSpan : Span
  lastUseSpan : Option Span
  deriving DecidableEq, Repr

structure PromotionTrigger where
  referentLocal : SlotId
  sinkKind : LoanSinkKind
  deriving DecidableEq, Repr

structure BorrowAnalysisOptions where
  allowReturnSlotLocalEscapePromotion : Bool := false
  deriving DecidableEq, Repr

structure SolverResult where
  loansAtPoint : Point → List LoanId
  errors : List BorrowError
  loanInfo : List (LoanId × LoanInfo)
  returnReferenceSummary : Option ReturnReferenceSummary
  referenceEscapePromotions : List PromotionTrigger

/-! ## Forward liveness -/

/-- The rule's logic: pass the loan on, or emit the sentinel when the point invalidates it. -/
def loanLiveRule (invalidates : List (Point × LoanId)) (from_ : Point × LoanId) (point2 : Point) :
    Point × LoanId :=
  if from_ ∈ invalidates then (u32Max, u32Max) else (point2, from_.2)

/-- The tuples derivable from the seed by the rule
`loan_live_at(p2, l) :- loan_live_at(p1, l), cfg_edge(p1, p2), !invalidates(p1, l)`. -/
inductive LoanLive (seed : List (Point × LoanId)) (edges : List (Point × Point))
    (invalidates : List (Point × LoanId)) : Point × LoanId → Prop
  | seed {t} (h : t ∈ seed) : LoanLive seed edges invalidates t
  | step {t point2} (h : LoanLive seed edges invalidates t) (he : (t.1, point2) ∈ edges) :
      LoanLive seed edges invalidates (loanLiveRule invalidates t point2)

/-- The Datafrog iteration of the solver: it completes with the derivable tuples. -/
structure Datafrog where
  iterate : List (Point × LoanId) → List (Point × Point) → List (Point × LoanId) →
    List (Point × LoanId)
  mem_iterate : ∀ seed edges invalidates t,
    t ∈ iterate seed edges invalidates ↔ LoanLive seed edges invalidates t

/-- The rule spelled out as edges between tuples, for the loans of the seed and the sentinel. -/
def loanLiveEdges (seed : List (Point × LoanId)) (edges : List (Point × Point))
    (invalidates : List (Point × LoanId)) : List ((Point × LoanId) × (Point × LoanId)) :=
  (u32Max :: seed.map Prod.snd).flatMap fun loan =>
    edges.map fun e => ((e.1, loan), loanLiveRule invalidates (e.1, loan) e.2)

/-- The loans a derivable tuple can name. -/
theorem LoanLive.loan_mem {seed : List (Point × LoanId)} {edges : List (Point × Point)}
    {invalidates : List (Point × LoanId)} {t : Point × LoanId}
    (h : LoanLive seed edges invalidates t) : t.2 ∈ u32Max :: seed.map Prod.snd := by
  induction h with
  | seed h => exact List.mem_cons_of_mem _ (List.mem_map_of_mem h)
  | step _ _ ih =>
    unfold loanLiveRule
    split
    · exact List.mem_cons_self
    · exact ih

/-- Datafrog's iteration, computed by a worklist over `loanLiveEdges`. -/
def Datafrog.worklist : Datafrog where
  iterate seed edges invalidates :=
    Worklist.collect (loanLiveEdges seed edges invalidates) (fun _ => false) seed
  mem_iterate := by
    intro seed edges invalidates t
    rw [Worklist.mem_collect_iff]
    constructor
    · rintro ⟨s, hs, hst⟩
      induction hst with
      | refl => exact .seed hs
      | tail _ hstep ih =>
        obtain ⟨loan, -, hmem⟩ := List.mem_flatMap.mp hstep.2
        obtain ⟨e, he, heq⟩ := List.mem_map.mp hmem
        obtain ⟨rfl, rfl⟩ := Prod.mk.injEq .. ▸ heq
        exact .step ih he
    · intro h
      induction h with
      | seed h => exact ⟨_, h, .refl⟩
      | @step t point2 ht he ih =>
        obtain ⟨s, hs, hst⟩ := ih
        refine ⟨s, hs, hst.tail ⟨rfl, ?_⟩⟩
        refine List.mem_flatMap.mpr ⟨t.2, ht.loan_mem, ?_⟩
        exact List.mem_map.mpr ⟨(t.1, point2), he, rfl⟩

/-! ## Backward liveness -/

/-- Keep the first of the elements that share a key: `if !seen.insert(key) { continue }`. -/
def firstByKey {α κ : Type} [DecidableEq κ] (key : α → κ) : List κ → List α → List α
  | _, [] => []
  | seen, x :: xs =>
      if key x ∈ seen then firstByKey key seen xs
      else x :: firstByKey key (key x :: seen) xs

/-- Collecting into a map keeps the last issue point of a loan. -/
def issuePoints (facts : BorrowFacts) : List (LoanId × Point) :=
  firstByKey Prod.fst [] facts.loanIssuedAt.reverse

/-- The points the backward walk from the uses of a loan visits. It does not go on past the issue
point, nor past a point that invalidates the loan. -/
def nllVisited (facts : BorrowFacts) (loan issuePoint : Nat) : List Point :=
  let usePoints := (facts.useOfLoan.filter (·.1 = loan)).map Prod.snd
  Worklist.collect (facts.cfgEdge.map Prod.swap)
    (fun point => point == issuePoint || facts.invalidates.contains (point, loan)) usePoints

/-- Points at which a use is still ahead, and the loans whose walk got back to the issue point. -/
def computeNllLivePoints (facts : BorrowFacts) : List (Point × LoanId) × List LoanId :=
  let reached := (issuePoints facts).filter fun (loan, issuePoint) =>
    (nllVisited facts loan issuePoint).contains issuePoint
  (reached.flatMap fun (loan, issuePoint) =>
      (nllVisited facts loan issuePoint).map (·, loan),
    reached.map Prod.fst)

def forwardLivePoints (D : Datafrog) (facts : BorrowFacts) : List (Point × LoanId) :=
  (D.iterate (facts.loanIssuedAt.map Prod.swap) facts.cfgEdge facts.invalidates).filter
    fun t => t.1 ≠ u32Max ∧ t.2 ≠ u32Max

def loanLiveAt (D : Datafrog) (facts : BorrowFacts) : List (Point × LoanId) :=
  let nll := computeNllLivePoints facts
  (forwardLivePoints D facts).filter fun t => !nll.2.contains t.2 || nll.1.contains t

/-! ## Error detection -/

/-- The use of a loan that starts latest in the source; the last of several wins. -/
def lastUseSpanForLoan (facts : BorrowFacts) (loan : LoanId) : Option Span :=
  ((facts.useOfLoan.filter (·.1 = loan)).filterMap fun (_, point) =>
    facts.pointSpans.lookup point).foldl (fun best span =>
      match best with
      | some b => if b.start ≤ span.start then some span else some b
      | none => some span) none

def loanError (facts : BorrowFacts) (kind : BorrowErrorKind) (span : Span) (loan : LoanId)
    (info : LoanInfo) : BorrowError :=
  { kind := kind
    span := span
    conflictingLoan := loan
    loanSpan := info.span
    lastUseSpan := lastUseSpanForLoan facts loan }

/-- Two conflicting loans live at one point. -/
def conflictErrors (facts : BorrowFacts) (live : List (Point × LoanId)) : List BorrowError :=
  (firstByKey (fun (pair : LoanId × LoanId) => (min pair.1 pair.2, max pair.1 pair.2)) []
    facts.potentialConflicts).filterMap fun (a, b) =>
      if live.any (fun t => t.2 == a && live.contains (t.1, b)) then
        match facts.infoOf a, facts.infoOf b with
        | some infoA, some infoB =>
            let kind := if infoA.kind = .exclusive ∧ infoB.kind = .exclusive
              then BorrowErrorKind.conflictExclusiveExclusive
              else BorrowErrorKind.conflictSharedExclusive
            some (loanError facts kind infoB.span a infoA)
        | _, _ => none
      else none

/-- One turn of the write and read loops: report the first loan at the access's point that
`hits` the accessed place and is not yet reported for that point. -/
def accessStep (facts : BorrowFacts) (loansAtPoint : Point → List LoanId) (kind : BorrowErrorKind)
    (hits : Place → LoanInfo → Bool) (st : List (Point × LoanId) × List BorrowError)
    (access : Point × Place × Span) : List (Point × LoanId) × List BorrowError :=
  let hit := (loansAtPoint access.1).findSome? fun loan =>
    (facts.infoOf loan).bind fun info =>
      if hits access.2.1 info && !st.1.contains (access.1, loan) then some (loan, info) else none
  match hit with
  | some (loan, info) =>
      ((access.1, loan) :: st.1, st.2 ++ [loanError facts kind access.2.2 loan info])
  | none => st

def writeErrors (facts : BorrowFacts) (loansAtPoint : Point → List LoanId) : List BorrowError :=
  (facts.writes.foldl (accessStep facts loansAtPoint .writeWhileBorrowed fun place info =>
    place.conflictsWith info.borrowedPlace) ([], [])).2

def readErrors (facts : BorrowFacts) (loansAtPoint : Point → List LoanId) : List BorrowError :=
  (facts.reads.foldl (accessStep facts loansAtPoint .readWhileExclusivelyBorrowed
    fun place info => info.kind == .exclusive && place.conflictsWith info.borrowedPlace)
    ([], [])).2

/-! ## Escapes and sinks -/

def sinkIsPromotedFloor (options : BorrowAnalysisOptions) (sink : LoanSink) : Bool :=
  match sink.kind with
  | .moduleBindingStore => true
  | .returnSlot => options.allowReturnSlotLocalEscapePromotion
  | _ => false

/-- The loan has sinks, and all of them are floor sinks. -/
def floorOnly (facts : BorrowFacts) (loan : LoanId) : Bool :=
  match facts.loanSinks.filter (·.loanId = loan) with
  | [] => false
  | sinks => sinks.all fun sink => sink.kind == .returnSlot || sink.kind == .moduleBindingStore

/-- An escape is promoted when its loan escapes through floor sinks only, borrows a genuine local
and one of its sinks at this span is a promoted floor sink. -/
def escapeIsEffectivelyPromoted (facts : BorrowFacts) (options : BorrowAnalysisOptions)
    (loan : LoanId) (span : Span) : Bool :=
  floorOnly facts loan
    && (match facts.infoOf loan with
      | some info => info.regionDepth ≥ 1
      | none => false)
    && facts.loanSinks.any fun sink =>
        sinkIsPromotedFloor options sink && sink.loanId == loan && sink.span == span

def escapeErrors (facts : BorrowFacts) (options : BorrowAnalysisOptions) : List BorrowError :=
  (firstByKey id [] facts.escapedLoans).filterMap fun (loan, span) =>
    if escapeIsEffectivelyPromoted facts options loan span then none
    else (facts.infoOf loan).map (loanError facts .referenceEscape span loan)

/-- The error a sink that is not promoted stands for; none when it is tolerated. -/
def sinkErrorKind (kind : LoanSinkKind) (sinkIsLocal : Bool) (borrowKind : BorrowKind) :
    Option BorrowErrorKind :=
  match kind with
  | .returnSlot => none
  | .closureEnv => if sinkIsLocal then none else some .referenceEscapeIntoClosure
  | .closureEnvMut => none
  | .arrayStore => if sinkIsLocal then none else some .referenceStoredInArray
  | .arrayAssignment => if sinkIsLocal then none else some .referenceStoredInArray
  | .objectStore => if sinkIsLocal then none else some .referenceStoredInObject
  | .objectAssignment => if sinkIsLocal then none else some .referenceStoredInObject
  | .enumStore => if sinkIsLocal then none else some .referenceStoredInEnum
  | .structuredTaskBoundary => some .exclusiveRefAcrossTaskBoundary
  | .detachedTaskBoundary =>
      if borrowKind = .exclusive then some .exclusiveRefAcrossTaskBoundary
      else some .sharedRefAcrossDetachedTask
  | .moduleBindingStore => some .referenceEscapeIntoModuleBinding

/-- Errors and promotions of the sinks, in order. -/
def solveSinks (facts : BorrowFacts) (options : BorrowAnalysisOptions) :
    List BorrowError × List PromotionTrigger :=
  let sinks := (firstByKey id [] facts.loanSinks).filterMap fun sink =>
    (facts.infoOf sink.loanId).map fun info => (sink, info)
  let promoted := fun sink : LoanSink => sinkIsPromotedFloor options sink
    && escapeIsEffectivelyPromoted facts options sink.loanId sink.span
  let isLocal := fun sink : LoanSink =>
    sink.sinkSlot.bind facts.slotEscapeStatus == some EscapeStatus.localOnly
  (sinks.filterMap fun (sink, info) =>
      if promoted sink then none
      else (sinkErrorKind sink.kind (isLocal sink) info.kind).map fun kind =>
        loanError facts kind sink.span sink.loanId info,
    sinks.filterMap fun (sink, info) =>
      if promoted sink then some ⟨info.borrowedPlace.rootLocal, sink.kind⟩ else none)

def nonSendableErrors (facts : BorrowFacts) : List BorrowError :=
  (firstByKey id [] facts.nonSendableTaskBoundary).map fun (_, span) =>
    { kind := .nonSendableAcrossTaskBoundary
      span := span
      conflictingLoan := 0
      loanSpan := span
      lastUseSpan := none }

/-! ## The return summary -/

/-- Merge the candidates; `true` when two of them disagree on the parameter or the kind. -/
def mergeCandidates : ReturnReferenceSummary → List ReturnReferenceSummary →
    ReturnReferenceSummary × Bool
  | merged, [] => (merged, false)
  | merged, candidate :: rest =>
      if merged.paramIndex ≠ candidate.paramIndex ∨ merged.kind ≠ candidate.kind then (merged, true)
      else if merged.projection ≠ candidate.projection then
        mergeCandidates { merged with projection := none } rest
      else mergeCandidates merged rest

/-- The first loan at the candidate's point with the candidate's kind; a loan without an entry
ends the search. -/
def findMatchingLoanForReturnCandidate (candidate : ReturnReferenceSummary) (candidateSpan : Span)
    (facts : BorrowFacts) (loansAtPoint : Point → List LoanId) :
    Option (LoanId × Span × Option Span) :=
  ((facts.pointSpans.find? fun (_, span) => span = candidateSpan).bind fun (point, _) =>
    ((loansAtPoint point).takeWhile fun loan => (facts.infoOf loan).isSome).findSome? fun loan =>
      (facts.infoOf loan).bind fun info =>
        if info.kind = candidate.kind then
          some (loan, info.span, lastUseSpanForLoan facts loan)
        else none)

def resolveReturnReferenceSummary (facts : BorrowFacts) (loansAtPoint : Point → List LoanId) :
    List BorrowError × Option ReturnReferenceSummary :=
  match facts.returnReferenceCandidates with
  | [] => ([], none)
  | (first, firstSpan) :: rest =>
      let merged := mergeCandidates first (rest.map Prod.fst)
      let errorSpan := if merged.2 then rest.head?.map Prod.snd
        else facts.nonReferenceReturnSpans.head?
      match errorSpan with
      | none => ([], some merged.1)
      | some span =>
          let found := (findMatchingLoanForReturnCandidate first firstSpan facts
            loansAtPoint).getD (0, span, none)
          ([{ kind := .inconsistentReferenceReturn
              span := span
              conflictingLoan := found.1
              loanSpan := found.2.1
              lastUseSpan := found.2.2 }], none)

/-! ## The solver -/

def loansAt (live : List (Point × LoanId)) (point : Point) : List LoanId :=
  (live.filter (·.1 = point)).map Prod.snd

def solveWithOptions (D : Datafrog) (facts : BorrowFacts) (options : BorrowAnalysisOptions) :
    SolverResult :=
  let live := loanLiveAt D facts
  let loansAtPoint := loansAt live
  let sinks := solveSinks facts options
  let ret := resolveReturnReferenceSummary facts loansAtPoint
  { loansAtPoint := loansAtPoint
    errors := conflictErrors facts live ++ writeErrors facts loansAtPoint
      ++ readErrors facts loansAtPoint ++ escapeErrors facts options ++ sinks.1
      ++ nonSendableErrors facts ++ ret.1
    loanInfo := facts.loanInfo
    returnReferenceSummary := ret.2
    referenceEscapePromotions := sinks.2 }

def solve (D : Datafrog) (facts : BorrowFacts) : SolverResult := solveWithOptions D facts {}

end ShapeLang.Mir
