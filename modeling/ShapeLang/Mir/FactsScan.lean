import ShapeLang.Mir.Facts

/-!
# ShapeLang — what one turn of the fact scan changes

The scan of `extractFacts` touches some twenty relations. Loan liveness and loan provenance only
depend on the ones collected in `LoanRelations`; this module says once, per turn, how those
change, and flattens the nested loops of the scan into one run over *events*.

  * `scanEvents` — the statements of each block and then its terminator, in listing order.
  * `scanStatement_borrow`, `scanStatement_write`, `scanStatement_other` — the effect of one
    statement on `LoanRelations`; `scanCall_loanRelations` the effect of a terminator.
  * `ScanInv`, `scanInv_scanBlocks` — loan ids are handed out consecutively, every loan has an
    entry that names the borrowed place, and the recorded writes are those of the statements.
-/

namespace ShapeLang.Mir

/-! ## The scan as a run over events -/

inductive ScanEvent where
  | stmt (s : MirStatement)
  | term (block : BasicBlock)

def blockEvents (block : BasicBlock) : List ScanEvent :=
  block.statements.map .stmt ++ [.term block]

def scanEvents (mir : MirFunction) : List ScanEvent := mir.blocks.flatMap blockEvents

namespace Scan

def event (cx : ScanContext) (st : Scan) : ScanEvent → Scan
  | .stmt s => st.scanStatement cx s
  | .term block => st.scanCall cx block

theorem scanBlock_eq_foldl (cx : ScanContext) (st : Scan) (block : BasicBlock) :
    st.scanBlock cx block = (blockEvents block).foldl (event cx) st := by
  simp [scanBlock, blockEvents, event, List.foldl_append, List.foldl_map]

end Scan

theorem scanBlocks_eq_foldl (mir : MirFunction) (cfg : ControlFlowGraph)
    (callees : CalleeSummaries) :
    scanBlocks mir cfg callees
      = (scanEvents mir).foldl (Scan.event (scanContext mir callees)) (initialScan mir cfg) := by
  have hblocks : ∀ (blocks : List BasicBlock) (st : Scan),
      blocks.foldl (Scan.scanBlock (scanContext mir callees)) st
        = (blocks.flatMap blockEvents).foldl (Scan.event (scanContext mir callees)) st := by
    intro blocks
    induction blocks with
    | nil => intro st; rfl
    | cons b blocks ih =>
      intro st
      rw [List.foldl_cons, ih, List.flatMap_cons, List.foldl_append, Scan.scanBlock_eq_foldl]
  exact hblocks mir.blocks _

/-! ## The relations of loan liveness -/

structure LoanRelations where
  cfgEdge : List (Point × Point)
  loanIssuedAt : List (LoanId × Point)
  loanInfo : List (LoanId × LoanInfo)
  invalidates : List (Point × LoanId)
  useOfLoan : List (LoanId × Point)
  writes : List (Point × Place × Span)

def BorrowFacts.loanRelations (facts : BorrowFacts) : LoanRelations :=
  { cfgEdge := facts.cfgEdge
    loanIssuedAt := facts.loanIssuedAt
    loanInfo := facts.loanInfo
    invalidates := facts.invalidates
    useOfLoan := facts.useOfLoan
    writes := facts.writes }

def Rvalue.isBorrow : Rvalue → Bool
  | .borrow _ _ => true
  | _ => false

/-- The loans a write to `place` invalidates among those in the table. -/
def LoanRelations.invalidatedBy (r : LoanRelations) (point : Point) (place : Place) :
    List (Point × LoanId) :=
  (r.loanInfo.filter fun entry => place.conflictsWith entry.2.borrowedPlace).map
    fun entry => (point, entry.1)

namespace Scan

variable (cx : ScanContext) (st : Scan) (stmt : MirStatement)

/-- The uses a statement records, after its own effect on the slots. -/
def recordedUses : List (LoanId × Point) :=
  (statementReadPlaces stmt.kind).flatMap
    (((st.recordPoint stmt).effect cx stmt).usesOf stmt.point)

theorem scanStatement_loanRelations :
    (st.scanStatement cx stmt).facts.loanRelations =
      { ((st.recordPoint stmt).effect cx stmt).facts.loanRelations with
        useOfLoan := ((st.recordPoint stmt).effect cx stmt).facts.useOfLoan
          ++ recordedUses cx st stmt } := rfl

theorem borrowIntoLocal_loanRelations (slot : SlotId) (kind : BorrowKind) (place : Place)
    (loan : LoanId) :
    (st.borrowIntoLocal cx stmt slot kind place loan).facts.loanRelations
      = st.facts.loanRelations := by
  unfold borrowIntoLocal
  simp only
  split
  · split <;> rfl
  · rfl

theorem borrow_loanRelations (dest : Place) (kind : BorrowKind) (place : Place) :
    (st.borrow cx stmt dest kind place).facts.loanRelations = { st.facts.loanRelations with
        loanIssuedAt := st.facts.loanIssuedAt ++ [(st.nextLoan, stmt.point)]
        loanInfo := st.facts.loanInfo
          ++ [(st.nextLoan, newLoan cx st.nextLoan stmt kind place)] } := by
  cases dest with
  | localSlot slot =>
    -- the detour through the slot maps leaves the loan relations alone
    have hrel := st.borrowIntoLocal_loanRelations cx stmt slot kind place st.nextLoan
    simp only [BorrowFacts.loanRelations, LoanRelations.mk.injEq] at hrel
    simp only [borrow, BorrowFacts.loanRelations, hrel]
  | field base f => rfl
  | index base i => rfl
  | deref base => rfl

theorem assign_loanRelations (place : Place) (rvalue : Rvalue) :
    (st.assign cx stmt place rvalue).facts.loanRelations = { st.facts.loanRelations with
        writes := st.facts.writes ++ [(stmt.point, place, stmt.span)]
        invalidates := st.facts.invalidates
          ++ st.facts.loanRelations.invalidatedBy stmt.point place } := by
  cases place with
  | localSlot dest =>
    simp only [assign, assignSinks, assignLocal]
    split <;> rfl
  | field base f => rfl
  | index base i => rfl
  | deref base => rfl

theorem assign_nextLoan (place : Place) (rvalue : Rvalue) :
    (st.assign cx stmt place rvalue).nextLoan = st.nextLoan := by
  cases place with
  | localSlot dest =>
    simp only [assign, assignSinks, assignLocal]
    split <;> rfl
  | field base f => rfl
  | index base i => rfl
  | deref base => rfl

/-! The three kinds of statement. A borrow issues the next loan and records neither a write nor a
use; any other assignment records a write and invalidates the loans on its place; the rest write
nothing. -/

variable {cx st stmt}

theorem scanStatement_borrow {dest : Place} {kind : BorrowKind} {place : Place}
    (h : stmt.kind = .assign dest (.borrow kind place)) :
    (st.scanStatement cx stmt).facts.loanRelations = { st.facts.loanRelations with
        loanIssuedAt := st.facts.loanIssuedAt ++ [(st.nextLoan, stmt.point)]
        loanInfo := st.facts.loanInfo
          ++ [(st.nextLoan, newLoan cx st.nextLoan stmt kind place)] }
      ∧ (st.scanStatement cx stmt).nextLoan = st.nextLoan + 1 := by
  have heff : (st.recordPoint stmt).effect cx stmt
      = (st.recordPoint stmt).borrow cx stmt dest kind place := by
    simp only [effect, h]
  have huses : recordedUses cx st stmt = [] := by
    simp [recordedUses, h, statementReadPlaces, StatementKind.operands, Rvalue.operands]
  have hrel := (st.recordPoint stmt).borrow_loanRelations cx stmt dest kind place
  constructor
  · rw [scanStatement_loanRelations, heff, huses, List.append_nil]
    exact hrel
  · rw [scanStatement, heff]
    rfl

theorem scanStatement_write {place : Place} {rvalue : Rvalue}
    (h : stmt.kind = .assign place rvalue) (hb : rvalue.isBorrow = false) :
    (st.scanStatement cx stmt).facts.loanRelations = { st.facts.loanRelations with
        writes := st.facts.writes ++ [(stmt.point, place, stmt.span)]
        invalidates := st.facts.invalidates
          ++ st.facts.loanRelations.invalidatedBy stmt.point place
        useOfLoan := st.facts.useOfLoan ++ recordedUses cx st stmt }
      ∧ (st.scanStatement cx stmt).nextLoan = st.nextLoan := by
  have heff : (st.recordPoint stmt).effect cx stmt
      = (st.recordPoint stmt).assign cx stmt place rvalue := by
    cases rvalue <;> first | (simp [Rvalue.isBorrow] at hb; done) | simp only [effect, h]
  have hrel := (st.recordPoint stmt).assign_loanRelations cx stmt place rvalue
  constructor
  · rw [scanStatement_loanRelations, heff, hrel]
    have huse := congrArg LoanRelations.useOfLoan hrel
    simp only [BorrowFacts.loanRelations] at huse
    rw [huse]
    rfl
  · rw [scanStatement, heff]
    exact (st.recordPoint stmt).assign_nextLoan cx stmt place rvalue

theorem scanStatement_other (h : ∀ place rvalue, stmt.kind ≠ .assign place rvalue) :
    ∃ inv, (st.scanStatement cx stmt).facts.loanRelations = { st.facts.loanRelations with
        invalidates := st.facts.invalidates ++ inv
        useOfLoan := st.facts.useOfLoan ++ recordedUses cx st stmt }
      ∧ (st.scanStatement cx stmt).nextLoan = st.nextLoan := by
  rw [scanStatement_loanRelations]
  cases hk : stmt.kind with
  | assign place rvalue => exact absurd hk (h place rvalue)
  | drop place =>
    refine ⟨st.facts.loanRelations.invalidatedBy stmt.point place, ?_⟩
    simp only [scanStatement, effect, hk]
    exact ⟨rfl, rfl⟩
  | taskBoundary ops kind | closureCapture slot ops | arrayStore slot ops | objectStore slot ops
  | enumStore slot ops | moduleBindingStore name ops | nop =>
    refine ⟨[], ?_⟩
    simp only [scanStatement, effect, hk, List.append_nil]
    exact ⟨rfl, rfl⟩

theorem callResult_facts (func : Operand) (args : List Operand) (dest : SlotId) :
    (st.callResult cx func args dest).facts = st.facts
      ∧ (st.callResult cx func args dest).nextLoan = st.nextLoan := by
  have hinherit : ∀ (st : Scan) (argSlot : SlotId), (st.inheritLoans argSlot dest).facts = st.facts
      ∧ (st.inheritLoans argSlot dest).nextLoan = st.nextLoan := by
    intro st argSlot
    unfold inheritLoans
    split <;> exact ⟨rfl, rfl⟩
  have hcompose : ∀ (st : Scan) (argSlot : SlotId) (callee : ReturnReferenceSummary),
      (st.composeSummary argSlot dest callee).facts = st.facts
        ∧ (st.composeSummary argSlot dest callee).nextLoan = st.nextLoan := by
    intro st argSlot callee
    unfold composeSummary
    split <;> exact ⟨rfl, rfl⟩
  unfold callResult
  split
  · split
    · unfold composeCallee
      split
      · exact ⟨(hcompose _ _ _).1.trans (hinherit _ _).1, (hcompose _ _ _).2.trans (hinherit _ _).2⟩
      · exact ⟨rfl, rfl⟩
    · exact ⟨rfl, rfl⟩
  · exact ⟨rfl, rfl⟩

/-- A terminator adds uses and changes no other relation. -/
theorem scanCall_loanRelations (block : BasicBlock) :
    ∃ uses, (st.scanCall cx block).facts.loanRelations = { st.facts.loanRelations with
        useOfLoan := st.facts.useOfLoan ++ uses }
      ∧ (st.scanCall cx block).nextLoan = st.nextLoan := by
  unfold scanCall
  split
  · rename_i func args destination _ _
    refine ⟨st.callUses func args (lastPoint block), ?_⟩
    rw [(callResult_facts func args destination.rootLocal).1,
      (callResult_facts func args destination.rootLocal).2]
    exact ⟨rfl, rfl⟩
  · refine ⟨[], ?_⟩
    rw [List.append_nil]
    exact ⟨rfl, rfl⟩

end Scan

/-! ## The invariant of the scan -/

theorem lookup_eq_some_of_mem {β : Type} {entries : List (Nat × β)} {k : Nat} {v : β}
    (hnd : (entries.map Prod.fst).Nodup) (h : (k, v) ∈ entries) :
    entries.lookup k = some v := by
  induction entries with
  | nil => exact absurd h List.not_mem_nil
  | cons e entries ih =>
    obtain ⟨k', v'⟩ := e
    obtain ⟨hk', hnd⟩ := List.nodup_cons.mp hnd
    rcases List.mem_cons.mp h with heq | hmem
    · obtain ⟨rfl, rfl⟩ := Prod.mk.injEq .. ▸ heq
      simp [List.lookup]
    · have hne : k ≠ k' := by
        rintro rfl
        exact hk' (List.mem_map.mpr ⟨(k, v), hmem, rfl⟩)
      simp [List.lookup, beq_eq_false_iff_ne.mpr hne, ih hnd hmem]

def eventStmt : ScanEvent → Option MirStatement
  | .stmt s => some s
  | .term _ => none

/-- The write a statement is recorded as. -/
def writeOf (s : MirStatement) : Option (Point × Place × Span) :=
  match s.kind with
  | .assign place rvalue => if rvalue.isBorrow then none else some (s.point, place, s.span)
  | _ => none

/-- The point at which a statement issues a loan. -/
def issueOf (s : MirStatement) : Option Point :=
  match s.kind with
  | .assign _ (.borrow _ _) => some s.point
  | _ => none

theorem filterMap_eventStmt_scanEvents (mir : MirFunction) :
    (scanEvents mir).filterMap eventStmt = mir.allStatements := by
  have hblock : ∀ b : BasicBlock, (blockEvents b).filterMap eventStmt = b.statements := by
    intro b
    rw [blockEvents, List.filterMap_append, List.filterMap_map]
    simp [eventStmt, Function.comp_def]
  rw [scanEvents, MirFunction.allStatements, List.filterMap_flatMap]
  simp only [hblock]

/-- What holds after the scan has gone through the events `done`: loan ids are the numbers below
`nextLoan`, each loan was issued by a borrow statement whose place its entry names, and the writes
are those of the statements. -/
structure ScanInv (edges : List (Point × Point)) (done : List ScanEvent) (st : Scan) : Prop where
  cfgEdge : st.facts.cfgEdge = edges
  issuedIds : st.facts.loanIssuedAt.map Prod.fst = List.range st.nextLoan
  issuedPoints : st.facts.loanIssuedAt.map Prod.snd = (done.filterMap eventStmt).filterMap issueOf
  infoIds : st.facts.loanInfo.map Prod.fst = List.range st.nextLoan
  nextLoan_le : st.nextLoan ≤ (done.filterMap eventStmt).length
  issued : ∀ L p, (L, p) ∈ st.facts.loanIssuedAt → ∃ s dest kind place info,
    s ∈ done.filterMap eventStmt ∧ s.point = p ∧ s.kind = .assign dest (.borrow kind place)
      ∧ (L, info) ∈ st.facts.loanInfo ∧ info.borrowedPlace = place
  writes : st.facts.writes = (done.filterMap eventStmt).filterMap writeOf

namespace ScanInv

variable {edges : List (Point × Point)} {done : List ScanEvent} {st st' : Scan}

/-- A turn that leaves the loan table and the writes alone keeps the invariant. -/
theorem of_unchanged (h : ScanInv edges done st) (ev : ScanEvent)
    (hev : (eventStmt ev).bind writeOf = none) (hissue : (eventStmt ev).bind issueOf = none)
    (hcfg : st'.facts.cfgEdge = st.facts.cfgEdge)
    (hissued : st'.facts.loanIssuedAt = st.facts.loanIssuedAt)
    (hinfo : st'.facts.loanInfo = st.facts.loanInfo)
    (hwrites : st'.facts.writes = st.facts.writes) (hnext : st'.nextLoan = st.nextLoan) :
    ScanInv edges (done ++ [ev]) st' := by
  have hmono : ∀ s, s ∈ done.filterMap eventStmt → s ∈ (done ++ [ev]).filterMap eventStmt := by
    intro s hs
    rw [List.filterMap_append]
    exact List.mem_append_left _ hs
  refine ⟨hcfg.trans h.cfgEdge, ?_, ?_, ?_, ?_, ?_, ?_⟩
  · rw [hissued, hnext, h.issuedIds]
  -- the event issues no loan, so the points are those of before
  · rw [hissued, h.issuedPoints, List.filterMap_append, List.filterMap_append]
    cases hes : eventStmt ev with
    | none => simp [hes]
    | some s =>
      rw [hes, Option.bind_some] at hissue
      simp [hes, hissue]
  · rw [hinfo, hnext, h.infoIds]
  · rw [hnext, List.filterMap_append, List.length_append]
    exact Nat.le_trans h.nextLoan_le (Nat.le_add_right _ _)
  · intro L p hLp
    rw [hissued] at hLp
    obtain ⟨s, dest, kind, place, info, hs, hrest⟩ := h.issued L p hLp
    rw [hinfo]
    exact ⟨s, dest, kind, place, info, hmono s hs, hrest⟩
  · rw [hwrites, h.writes, List.filterMap_append, List.filterMap_append]
    cases hes : eventStmt ev with
    | none => simp [hes]
    | some s =>
      rw [hes, Option.bind_some] at hev
      simp [hes, hev]

/-- One turn of the scan keeps the invariant. -/
theorem event (cx : ScanContext) (h : ScanInv edges done st) (ev : ScanEvent) :
    ScanInv edges (done ++ [ev]) (st.event cx ev) := by
  cases ev with
  | term block =>
    obtain ⟨uses, hrel, hnext⟩ := @Scan.scanCall_loanRelations cx st block
    simp only [BorrowFacts.loanRelations, LoanRelations.mk.injEq] at hrel
    obtain ⟨hcfg, hissued, hinfo, -, -, hwrites⟩ := hrel
    exact h.of_unchanged _ rfl rfl hcfg hissued hinfo hwrites hnext
  | stmt s =>
    by_cases hassign : ∃ place rvalue, s.kind = .assign place rvalue
    · obtain ⟨place, rvalue, hk⟩ := hassign
      cases hb : rvalue.isBorrow with
      | true =>
        -- a new loan: both tables grow by the entry for `nextLoan`
        obtain ⟨kind, bplace, rfl⟩ : ∃ kind bplace, rvalue = .borrow kind bplace := by
          cases rvalue <;> simp [Rvalue.isBorrow] at hb
          exact ⟨_, _, rfl⟩
        obtain ⟨hrel, hnext⟩ := @Scan.scanStatement_borrow cx st s _ _ _ hk
        simp only [BorrowFacts.loanRelations, LoanRelations.mk.injEq] at hrel
        obtain ⟨hcfg, hissued, hinfo, -, -, hwrites⟩ := hrel
        have hdone : (done ++ [ScanEvent.stmt s]).filterMap eventStmt
            = done.filterMap eventStmt ++ [s] := by
          simp [List.filterMap_append, eventStmt]
        refine ⟨hcfg.trans h.cfgEdge, ?_, ?_, ?_, ?_, ?_, ?_⟩
        · rw [Scan.event, hissued, hnext, List.map_append, h.issuedIds, List.range_succ]
          rfl
        · rw [Scan.event, hissued, List.map_append, h.issuedPoints, hdone, List.filterMap_append]
          simp [issueOf, hk]
        · rw [Scan.event, hinfo, hnext, List.map_append, h.infoIds, List.range_succ]
          rfl
        · rw [Scan.event, hnext, hdone, List.length_append, List.length_singleton]
          exact Nat.succ_le_succ h.nextLoan_le
        · intro L p hLp
          rw [Scan.event, hissued, List.mem_append] at hLp
          rw [hdone, Scan.event, hinfo]
          rcases hLp with hLp | hLp
          · obtain ⟨s', dest, kind', place', info, hs', hp, hk', hL, hi⟩ := h.issued L p hLp
            exact ⟨s', dest, kind', place', info, List.mem_append_left _ hs', hp, hk',
              List.mem_append_left _ hL, hi⟩
          · obtain ⟨rfl, rfl⟩ := Prod.mk.injEq .. ▸ List.mem_singleton.mp hLp
            exact ⟨s, place, kind, bplace, _, List.mem_append_right _ (List.mem_singleton_self s),
              rfl, hk, List.mem_append_right _ (List.mem_singleton_self _), rfl⟩
        · rw [Scan.event, hwrites, h.writes, hdone, List.filterMap_append]
          simp [writeOf, hk, Rvalue.isBorrow]
      | false =>
        obtain ⟨hrel, hnext⟩ := @Scan.scanStatement_write cx st s _ _ hk hb
        simp only [BorrowFacts.loanRelations, LoanRelations.mk.injEq] at hrel
        obtain ⟨hcfg, hissued, hinfo, -, -, hwrites⟩ := hrel
        have hdone : (done ++ [ScanEvent.stmt s]).filterMap eventStmt
            = done.filterMap eventStmt ++ [s] := by
          simp [List.filterMap_append, eventStmt]
        refine ⟨hcfg.trans h.cfgEdge, ?_, ?_, ?_, ?_, ?_, ?_⟩
        · rw [Scan.event, hissued, hnext, h.issuedIds]
        · have hno : issueOf s = none := by
            cases rvalue <;> simp [issueOf, hk, Rvalue.isBorrow] at hb ⊢
          rw [Scan.event, hissued, h.issuedPoints, hdone, List.filterMap_append]
          simp [hno]
        · rw [Scan.event, hinfo, hnext, h.infoIds]
        · rw [Scan.event, hnext, hdone, List.length_append]
          exact Nat.le_trans h.nextLoan_le (Nat.le_add_right _ _)
        · intro L p hLp
          rw [Scan.event, hissued] at hLp
          obtain ⟨s', dest, kind', place', info, hs', hrest⟩ := h.issued L p hLp
          rw [hdone, Scan.event, hinfo]
          exact ⟨s', dest, kind', place', info, List.mem_append_left _ hs', hrest⟩
        · rw [Scan.event, hwrites, h.writes, hdone, List.filterMap_append]
          simp [writeOf, hk, hb]
    · have hother : ∀ place rvalue, s.kind ≠ .assign place rvalue := by
        intro place rvalue hk
        exact hassign ⟨place, rvalue, hk⟩
      obtain ⟨inv, hrel, hnext⟩ := @Scan.scanStatement_other cx st s hother
      simp only [BorrowFacts.loanRelations, LoanRelations.mk.injEq] at hrel
      obtain ⟨hcfg, hissued, hinfo, -, -, hwrites⟩ := hrel
      refine h.of_unchanged _ ?_ ?_ hcfg hissued hinfo hwrites hnext
      all_goals
        cases hk : s.kind with
        | assign place rvalue => exact absurd hk (hother place rvalue)
        | _ => simp [eventStmt, writeOf, issueOf, hk]

theorem initial (mir : MirFunction) (cfg : ControlFlowGraph) :
    ScanInv (cfgEdges mir cfg) [] (initialScan mir cfg) := by
  refine ⟨rfl, rfl, rfl, rfl, Nat.le_refl _, ?_, rfl⟩
  intro L p h
  exact absurd h List.not_mem_nil

/-- **Run lemma.** The invariant holds after any number of events. -/
theorem foldl (mir : MirFunction) (cfg : ControlFlowGraph) (cx : ScanContext)
    (evs : List ScanEvent) :
    ScanInv (cfgEdges mir cfg) evs (evs.foldl (Scan.event cx) (initialScan mir cfg)) := by
  induction evs using List.reverseRecOn with
  | nil => exact initial mir cfg
  | append_singleton evs ev ih =>
    rw [List.foldl_append]
    exact ih.event cx ev

end ScanInv

/-! ## Consequences for the extracted facts -/

section Extracted

variable (mir : MirFunction) (cfg : ControlFlowGraph) (callees : CalleeSummaries)

theorem scanInv_scanBlocks :
    ScanInv (cfgEdges mir cfg) (scanEvents mir) (scanBlocks mir cfg callees) := by
  rw [scanBlocks_eq_foldl]
  exact ScanInv.foldl mir cfg _ _

theorem extractFacts_cfgEdge : (extractFacts mir cfg callees).cfgEdge = cfgEdges mir cfg :=
  (scanInv_scanBlocks mir cfg callees).cfgEdge

theorem extractFacts_writes :
    (extractFacts mir cfg callees).writes = mir.allStatements.filterMap writeOf := by
  rw [← filterMap_eventStmt_scanEvents]
  exact (scanInv_scanBlocks mir cfg callees).writes

theorem loanIssuedAt_nodup :
    ((extractFacts mir cfg callees).loanIssuedAt.map Prod.fst).Nodup := by
  rw [show (extractFacts mir cfg callees).loanIssuedAt.map Prod.fst = _ from
    (scanInv_scanBlocks mir cfg callees).issuedIds]
  exact List.nodup_range

/-- The points of the statements are distinct and below the sentinel, so there are at most that
many statements. -/
theorem allStatements_length_le (mir : MirFunction) : mir.allStatements.length ≤ u32Max := by
  have hsub : (mir.allStatements.map (·.point)).toFinset ⊆ Finset.range u32Max := by
    intro p hp
    obtain ⟨s, hs, rfl⟩ := List.mem_map.mp (List.mem_toFinset.mp hp)
    obtain ⟨b, hb, hsb⟩ := List.mem_flatMap.mp hs
    exact Finset.mem_range.mpr (mir.points_lt b hb s hsb)
  have hcard := Finset.card_le_card hsub
  have hnd : (mir.allStatements.map (·.point)).Nodup := mir.points_nodup
  rw [List.toFinset_card_of_nodup hnd, Finset.card_range, List.length_map] at hcard
  exact hcard

/-- Loan ids stay below the sentinel. -/
theorem loan_lt_u32Max {L : LoanId} {p : Point}
    (h : (L, p) ∈ (extractFacts mir cfg callees).loanIssuedAt) : L < u32Max := by
  have hinv := scanInv_scanBlocks mir cfg callees
  have hL : L ∈ List.range (scanBlocks mir cfg callees).nextLoan := by
    rw [← hinv.issuedIds]
    exact List.mem_map.mpr ⟨(L, p), h, rfl⟩
  have hle := hinv.nextLoan_le
  rw [filterMap_eventStmt_scanEvents] at hle
  exact Nat.lt_of_lt_of_le (List.mem_range.mp hL)
    (Nat.le_trans hle (allStatements_length_le mir))

/-- A loan issued at the point of a borrow statement is recorded with that statement's place. -/
theorem infoOf_of_issued {L : LoanId} {s : MirStatement} {dest : Place} {kind : BorrowKind}
    {place : Place} (hs : s ∈ mir.allStatements) (hk : s.kind = .assign dest (.borrow kind place))
    (h : (L, s.point) ∈ (extractFacts mir cfg callees).loanIssuedAt) :
    ∃ info, (extractFacts mir cfg callees).infoOf L = some info ∧ info.borrowedPlace = place := by
  have hinv := scanInv_scanBlocks mir cfg callees
  obtain ⟨s', dest', kind', place', info, hs', hp, hk', hinfo, hplace⟩ := hinv.issued L s.point h
  rw [filterMap_eventStmt_scanEvents] at hs'
  -- points are distinct, so the issuing statement is `s` itself
  have hss : s' = s := List.inj_on_of_nodup_map mir.points_nodup hs' hs hp
  subst hss
  obtain ⟨-, -, rfl⟩ : dest' = dest ∧ kind' = kind ∧ place' = place := by
    rw [hk] at hk'
    simpa [eq_comm] using hk'
  refine ⟨info, ?_, hplace⟩
  have hnd : ((extractFacts mir cfg callees).loanInfo.map Prod.fst).Nodup := by
    rw [show (extractFacts mir cfg callees).loanInfo.map Prod.fst = _ from hinv.infoIds]
    exact List.nodup_range
  exact lookup_eq_some_of_mem hnd hinfo

end Extracted

end ShapeLang.Mir
