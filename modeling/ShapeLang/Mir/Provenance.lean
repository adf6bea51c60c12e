import ShapeLang.Mir.SolverFlow

/-!
# ShapeLang — loan provenance along execution paths

Which loan does a slot hold when an execution reads it? `provenance` answers for a path: a borrow
puts its own loan into the destination, a whole-local `Use` hands the source's loan on, any other
whole-local assignment or call result clears it. The fact scan answers with `slotLoans`, one map
threaded through the blocks in *listing* order, so it sees the textually last write of a slot,
whichever path reaches the read.

The two agree as long as every copy and read of a slot is `Undisturbed`: the write the path last
gave the slot is listed before it, and no write of that slot is listed in between.

  * `slotLoans_frame` — the scan's entry of a slot survives the events that do not write it;
  * `ProvInv.step`, `ProvInv.run` — what a path believes, the scan knew right behind the write;
  * `use_recorded_on_undisturbed_path` — then the read is recorded as a use of the loan;
  * `use_lost_at_join` — two branches that borrow into one slot.
-/

namespace ShapeLang.Mir

/-! ## Provenance along a path -/

/-- The loan a slot holds, with the cursor of the statement that put it there. -/
abbrev Provenance := SlotId → Option (LoanId × Cursor)

/-- The loan issued at a point. -/
def loanIssuedBy (facts : BorrowFacts) (point : Point) : Option LoanId :=
  (facts.loanIssuedAt.find? fun entry => entry.2 = point).map Prod.fst

/-- What the statement or call under a cursor does to the loans held by slots. -/
def provStep (mir : MirFunction) (facts : BorrowFacts) (σ : Provenance) (c : Cursor) : Provenance :=
  match stmtAt mir c with
  | some s =>
      match s.kind with
      | .assign (.localSlot d) (.borrow _ _) =>
          Function.update σ d ((loanIssuedBy facts s.point).map (·, c))
      | .assign (.localSlot d) (.use op) =>
          match op.place? with
          | some (.localSlot src) => Function.update σ d ((σ src).map fun held => (held.1, c))
          | _ => Function.update σ d none
      | .assign (.localSlot d) _ => Function.update σ d none
      | _ => σ
  | none =>
      match mir.block? c.block with
      | some b =>
          match b.terminator.kind with
          | .call _ _ (.localSlot d) _ => Function.update σ d none
          | _ => σ
      | none => σ

def provenance (mir : MirFunction) (facts : BorrowFacts) (π : List Cursor) : Provenance :=
  π.foldl (provStep mir facts) fun _ => none

/-- The slot a statement hands on whole. -/
def copiedSlot (s : MirStatement) : Option SlotId :=
  match s.kind with
  | .assign (.localSlot _) (.use op) =>
      match op.place? with
      | some (.localSlot src) => some src
      | _ => none
  | _ => none

/-! ## Listing order -/

/-- Does the scan overwrite its entry of the slot at this event? -/
def ScanEvent.writes (r : SlotId) : ScanEvent → Bool
  | .stmt s =>
      match s.kind with
      | .assign (.localSlot d) _ => d == r
      | _ => false
  | .term block =>
      match block.terminator.kind with
      | .call _ _ destination _ => destination.rootLocal == r
      | _ => false

/-- Position of a cursor in the listing: the terminator of a block counts as one event. -/
def eventPos (mir : MirFunction) (c : Cursor) : Nat :=
  ((mir.blocks.take c.block).map fun b => b.statements.length + 1).sum + c.idx

/-- The write of `r` at `p` is listed before `c`, and no event listed in between writes `r`. -/
def Undisturbed (mir : MirFunction) (r : SlotId) (p c : Cursor) : Prop :=
  eventPos mir p < eventPos mir c ∧
    ∀ ev ∈ ((scanEvents mir).take (eventPos mir c)).drop (eventPos mir p + 1), ev.writes r = false

instance (mir : MirFunction) (r : SlotId) (p c : Cursor) : Decidable (Undisturbed mir r p c) :=
  inferInstanceAs (Decidable (_ ∧ ∀ ev ∈ _, _))

/-- Every copy on the path copies a slot whose last write is undisturbed. -/
def CopiesUndisturbed (mir : MirFunction) (facts : BorrowFacts) (π : List Cursor) : Prop :=
  ∀ π₁ c π₂, π = π₁ ++ c :: π₂ → ∀ s ∈ stmtAt mir c, ∀ src ∈ copiedSlot s,
    ∀ held ∈ provenance mir facts π₁ src, Undisturbed mir src held.2 c

theorem getElem?_flatMap_blockEvents {blocks : List BasicBlock} {j i : Nat} {b : BasicBlock}
    (hb : blocks[j]? = some b) (hi : i < (blockEvents b).length) :
    (blocks.flatMap blockEvents)[((blocks.take j).map fun b => b.statements.length + 1).sum + i]?
      = (blockEvents b)[i]? := by
  induction blocks generalizing j with
  | nil => simp at hb
  | cons b0 blocks ih =>
    have hlen : (blockEvents b0).length = b0.statements.length + 1 := by simp [blockEvents]
    rw [List.flatMap_cons]
    cases j with
    | zero =>
      obtain rfl : b0 = b := by simpa using hb
      simp only [List.take_zero, List.map_nil, List.sum_nil, Nat.zero_add]
      exact List.getElem?_append_left hi
    | succ j =>
      have hb' : blocks[j]? = some b := by simpa using hb
      rw [List.take_succ_cons, List.map_cons, List.sum_cons,
        List.getElem?_append_right (by omega), ← ih hb']
      congr 1
      omega

theorem scanEvents_getElem? {mir : MirFunction} {c : Cursor} {s : MirStatement}
    (h : stmtAt mir c = some s) : (scanEvents mir)[eventPos mir c]? = some (.stmt s) := by
  obtain ⟨b, hb, -⟩ := stmtAt_mem h
  rw [stmtAt, MirFunction.statements_of_block? hb] at h
  have hlt : c.idx < b.statements.length := (List.getElem?_eq_some_iff.mp h).1
  rw [scanEvents, eventPos, getElem?_flatMap_blockEvents hb (by simp [blockEvents]; omega)]
  rw [blockEvents, List.getElem?_append_left (by simpa using hlt), List.getElem?_map, h]
  rfl

/-! ## The scan in between -/

section Scanning

variable (mir : MirFunction) (callees : CalleeSummaries)

/-- The scan after the first `k` events. -/
def scanAt (k : Nat) : Scan :=
  ((scanEvents mir).take k).foldl (Scan.event (scanContext mir callees))
    (initialScan mir (ControlFlowGraph.build mir))

variable {mir callees}

theorem scanAt_succ {k : Nat} {ev : ScanEvent} (h : (scanEvents mir)[k]? = some ev) :
    scanAt mir callees (k + 1) = (scanAt mir callees k).event (scanContext mir callees) ev := by
  obtain ⟨hk, rfl⟩ := List.getElem?_eq_some_iff.mp h
  rw [scanAt, List.take_succ_eq_append_getElem hk, List.foldl_append]
  rfl

theorem scanAt_length : (scanAt mir callees (scanEvents mir).length).facts.useOfLoan
      = (factsOf mir callees).useOfLoan
    ∧ (scanAt mir callees (scanEvents mir).length).facts.loanIssuedAt
      = (factsOf mir callees).loanIssuedAt := by
  rw [scanAt, List.take_length]
  unfold factsOf extractFacts
  rw [scanBlocks_eq_foldl]
  exact ⟨rfl, rfl⟩

variable (cx : ScanContext) (st : Scan)

/-- Uses and loans recorded by an event are never taken back. -/
theorem event_mono (ev : ScanEvent) :
    (∀ t ∈ st.facts.useOfLoan, t ∈ (st.event cx ev).facts.useOfLoan) ∧
    (∀ t ∈ st.facts.loanIssuedAt, t ∈ (st.event cx ev).facts.loanIssuedAt) := by
  cases ev with
  | term block =>
    obtain ⟨uses, hrel, -⟩ := @Scan.scanCall_loanRelations cx st block
    simp only [BorrowFacts.loanRelations, LoanRelations.mk.injEq] at hrel
    obtain ⟨-, hissued, -, -, huse, -⟩ := hrel
    simp only [Scan.event, hissued, huse]
    exact ⟨fun t ht => List.mem_append_left _ ht, fun t ht => ht⟩
  | stmt s =>
    -- an assignment issues a loan or uses some; the other statements only use them
    by_cases hassign : ∃ place rvalue, s.kind = .assign place rvalue
    · obtain ⟨place, rvalue, hk⟩ := hassign
      cases hb : rvalue.isBorrow with
      | true =>
        obtain ⟨kind, bplace, rfl⟩ : ∃ kind bplace, rvalue = .borrow kind bplace := by
          cases rvalue <;> simp [Rvalue.isBorrow] at hb
          exact ⟨_, _, rfl⟩
        have hrel := (@Scan.scanStatement_borrow cx st s _ _ _ hk).1
        simp only [BorrowFacts.loanRelations, LoanRelations.mk.injEq] at hrel
        obtain ⟨-, hissued, -, -, huse, -⟩ := hrel
        simp only [Scan.event, hissued, huse]
        exact ⟨fun t ht => ht, fun t ht => List.mem_append_left _ ht⟩
      | false =>
        have hrel := (@Scan.scanStatement_write cx st s _ _ hk hb).1
        simp only [BorrowFacts.loanRelations, LoanRelations.mk.injEq] at hrel
        obtain ⟨-, hissued, -, -, huse, -⟩ := hrel
        simp only [Scan.event, hissued, huse]
        exact ⟨fun t ht => List.mem_append_left _ ht, fun t ht => ht⟩
    · obtain ⟨inv, hrel, -⟩ := @Scan.scanStatement_other cx st s
        (fun place rvalue hk => hassign ⟨place, rvalue, hk⟩)
      simp only [BorrowFacts.loanRelations, LoanRelations.mk.injEq] at hrel
      obtain ⟨-, hissued, -, -, huse, -⟩ := hrel
      simp only [Scan.event, hissued, huse]
      exact ⟨fun t ht => List.mem_append_left _ ht, fun t ht => ht⟩

theorem scanAt_mono (k : Nat) :
    (∀ t ∈ (scanAt mir callees k).facts.useOfLoan, t ∈ (factsOf mir callees).useOfLoan) ∧
    (∀ t ∈ (scanAt mir callees k).facts.loanIssuedAt,
      t ∈ (factsOf mir callees).loanIssuedAt) := by
  have hfold : ∀ (evs : List ScanEvent) (st : Scan),
      (∀ t ∈ st.facts.useOfLoan,
        t ∈ (evs.foldl (Scan.event (scanContext mir callees)) st).facts.useOfLoan) ∧
      (∀ t ∈ st.facts.loanIssuedAt,
        t ∈ (evs.foldl (Scan.event (scanContext mir callees)) st).facts.loanIssuedAt) := by
    intro evs
    induction evs with
    | nil => exact fun st => ⟨fun t ht => ht, fun t ht => ht⟩
    | cons ev evs ih =>
      intro st
      obtain ⟨h1, h2⟩ := event_mono (scanContext mir callees) st ev
      obtain ⟨h3, h4⟩ := ih (st.event (scanContext mir callees) ev)
      exact ⟨fun t ht => h3 t (h1 t ht), fun t ht => h4 t (h2 t ht)⟩
  have hsplit : scanAt mir callees (scanEvents mir).length
      = ((scanEvents mir).drop k).foldl (Scan.event (scanContext mir callees))
          (scanAt mir callees k) := by
    rw [scanAt, scanAt, ← List.foldl_append, List.take_append_drop, List.take_length]
  obtain ⟨huse, hissued⟩ := @scanAt_length mir callees
  rw [← huse, ← hissued, hsplit]
  exact hfold _ _

/-- The exact effect of a statement on the scan's slot map. -/
theorem scanStatement_slotLoans (s : MirStatement) :
    (st.scanStatement cx s).slotLoans = match s.kind with
      | .assign (.localSlot d) (.borrow _ _) =>
          Function.update st.slotLoans d (some [st.nextLoan])
      | .assign (.localSlot d) rvalue => updateSlotLoanAliases st.slotLoans d rvalue
      | _ => st.slotLoans := by
  have heff : (st.scanStatement cx s).slotLoans
      = ((st.recordPoint s).effect cx s).slotLoans := rfl
  rw [heff]
  cases hk : s.kind with
  | assign place rvalue =>
    cases place with
    | localSlot d =>
      cases rvalue with
      | borrow kind bplace => simp only [Scan.effect, hk]; rfl
      | _ =>
        simp only [Scan.effect, hk, Scan.assign, Scan.assignSinks, Scan.assignLocal]
        split <;> rfl
    | _ => cases rvalue <;> simp only [Scan.effect, hk] <;> rfl
  | _ => simp only [Scan.effect, hk]; rfl

variable {r : SlotId}

theorem callResult_slotLoans_of_ne (func : Operand) (args : List Operand) {dest : SlotId} (h : r ≠ dest) :
    (st.callResult cx func args dest).slotLoans r = st.slotLoans r := by
  have hcompose : ∀ (st : Scan) (argSlot : SlotId) (callee : ReturnReferenceSummary),
      (st.composeSummary argSlot dest callee).slotLoans = st.slotLoans := by
    intro st argSlot callee
    unfold Scan.composeSummary
    split <;> rfl
  have hinherit : ∀ (st : Scan) (argSlot : SlotId),
      (st.inheritLoans argSlot dest).slotLoans r = st.slotLoans r := by
    intro st argSlot
    unfold Scan.inheritLoans
    split
    · exact Function.update_of_ne h _ _
    · rfl
  unfold Scan.callResult
  split
  · split
    · unfold Scan.composeCallee
      split
      · rw [hcompose, hinherit]
      · rfl
    · rfl
  · rfl

theorem updateSlotLoanAliases_of_ne (slotLoans : SlotId → Option (List LoanId)) {d : SlotId}
    (rvalue : Rvalue) (h : r ≠ d) :
    updateSlotLoanAliases slotLoans d rvalue r = slotLoans r := by
  have halias : updateFromAlias slotLoans d rvalue r = slotLoans r := by
    unfold updateFromAlias
    cases aliasSource rvalue <;> exact Function.update_of_ne h _ _
  cases rvalue with
  | borrow kind place => rfl
  | _ => exact halias

/-- **Frame rule.** An event that does not write a slot leaves the scan's entry of it alone. -/
theorem event_slotLoans_frame {ev : ScanEvent} (h : ev.writes r = false) :
    (st.event cx ev).slotLoans r = st.slotLoans r := by
  cases ev with
  | stmt s =>
    simp only [Scan.event, scanStatement_slotLoans]
    cases hk : s.kind with
    | assign place rvalue =>
      cases place with
      | localSlot d =>
        -- only the local that is written gets a new entry
        have hne : r ≠ d := by
          simp only [ScanEvent.writes, hk, beq_eq_false_iff_ne] at h
          exact h.symm
        cases rvalue with
        | borrow kind bplace => exact Function.update_of_ne hne _ _
        | _ => exact updateSlotLoanAliases_of_ne _ _ hne
      | _ => rfl
    | _ => rfl
  | term block =>
    simp only [Scan.event]
    unfold Scan.scanCall
    split
    · rename_i func args destination next hk
      have hne : r ≠ destination.rootLocal := by
        simp only [ScanEvent.writes, hk, beq_eq_false_iff_ne] at h
        exact h.symm
      rw [callResult_slotLoans_of_ne cx _ func args hne]
      exact Function.update_of_ne hne _ _
    · rfl

theorem slotLoans_frame {k k' : Nat} (hkk' : k ≤ k')
    (h : ∀ ev ∈ ((scanEvents mir).take k').drop k, ev.writes r = false) :
    (scanAt mir callees k').slotLoans r = (scanAt mir callees k).slotLoans r := by
  have hfold : ∀ (evs : List ScanEvent) (st : Scan), (∀ ev ∈ evs, ev.writes r = false) →
      (evs.foldl (Scan.event (scanContext mir callees)) st).slotLoans r = st.slotLoans r := by
    intro evs
    induction evs with
    | nil => exact fun st _ => rfl
    | cons ev evs ih =>
      intro st hev
      rw [List.foldl_cons, ih _ fun e he => hev e (List.mem_cons_of_mem _ he)]
      exact event_slotLoans_frame _ _ (hev ev List.mem_cons_self)
  have hsplit : (scanEvents mir).take k'
      = (scanEvents mir).take k ++ ((scanEvents mir).take k').drop k := by
    conv_lhs => rw [← List.take_append_drop k ((scanEvents mir).take k')]
    rw [List.take_take, Nat.min_eq_left hkk']
  rw [scanAt, hsplit, List.foldl_append]
  exact hfold _ _ h

end Scanning

/-! ## Path against scan -/

/-- What the path believes about a slot, the scan knew right behind the write that put it there. -/
def ProvInv (mir : MirFunction) (callees : CalleeSummaries) (σ : Provenance) : Prop :=
  ∀ r L p, σ r = some (L, p) →
    ∃ loans, (scanAt mir callees (eventPos mir p + 1)).slotLoans r = some loans ∧ L ∈ loans

section Soundness

variable {mir : MirFunction} {callees : CalleeSummaries}

/-- The loan issued at a borrow statement is the one the scan handed out there. -/
theorem nextLoan_of_loanIssuedBy {c : Cursor} {s : MirStatement} {dest place : Place}
    {kind : BorrowKind} {L : LoanId} (hs : stmtAt mir c = some s)
    (hk : s.kind = .assign dest (.borrow kind place))
    (hL : loanIssuedBy (factsOf mir callees) s.point = some L) :
    L = (scanAt mir callees (eventPos mir c)).nextLoan := by
  have hissued : (L, s.point) ∈ (factsOf mir callees).loanIssuedAt := by
    obtain ⟨⟨L', p⟩, hfind, rfl⟩ := Option.map_eq_some_iff.mp hL
    have hp : p = s.point := by simpa using List.find?_some hfind
    subst hp
    exact List.mem_of_find?_eq_some hfind
  have hnew : ((scanAt mir callees (eventPos mir c)).nextLoan, s.point)
      ∈ (factsOf mir callees).loanIssuedAt := by
    refine (scanAt_mono (eventPos mir c + 1)).2 _ ?_
    rw [scanAt_succ (scanEvents_getElem? hs)]
    have hrel := (@Scan.scanStatement_borrow (scanContext mir callees)
      (scanAt mir callees (eventPos mir c)) s _ _ _ hk).1
    simp only [BorrowFacts.loanRelations, LoanRelations.mk.injEq] at hrel
    rw [Scan.event, hrel.2.1]
    exact List.mem_append_right _ (List.mem_singleton_self _)
  -- issue points are distinct, so the point determines the loan
  have hnd : ((factsOf mir callees).loanIssuedAt.map Prod.snd).Nodup := by
    rw [show (factsOf mir callees).loanIssuedAt.map Prod.snd = _ from
      (scanInv_scanBlocks mir (ControlFlowGraph.build mir) callees).issuedPoints,
      filterMap_eventStmt_scanEvents]
    exact issuePoints_nodup mir
  have heq := List.inj_on_of_nodup_map hnd hissued hnew rfl
  exact (Prod.mk.injEq .. ▸ heq).1

/-- At an undisturbed cursor the scan still has the entry it had behind the write. -/
theorem ProvInv.lookup {σ : Provenance} (h : ProvInv mir callees σ) {r : SlotId} {L : LoanId}
    {p c : Cursor} (hr : σ r = some (L, p)) (hu : Undisturbed mir r p c) :
    ∃ loans, (scanAt mir callees (eventPos mir c)).slotLoans r = some loans ∧ L ∈ loans := by
  obtain ⟨loans, hloans, hL⟩ := h r L p hr
  exact ⟨loans, (slotLoans_frame hu.1 hu.2).trans hloans, hL⟩

/-- **Step lemma.** Executing the cursor keeps the invariant. -/
theorem ProvInv.step {σ : Provenance} (h : ProvInv mir callees σ) (c : Cursor)
    (hcopy : ∀ s ∈ stmtAt mir c, ∀ src ∈ copiedSlot s, ∀ held ∈ σ src,
      Undisturbed mir src held.2 c) :
    ProvInv mir callees (provStep mir (factsOf mir callees) σ c) := by
  -- clearing a slot asks for nothing
  have hclear : ∀ d, ProvInv mir callees (Function.update σ d none) := by
    intro d r L p hr
    by_cases hrd : r = d
    · subst hrd
      simp at hr
    · rw [Function.update_of_ne hrd] at hr
      exact h r L p hr
  unfold provStep
  cases hs : stmtAt mir c with
  | none =>
    simp only
    split
    · split
      · exact hclear _
      · exact h
    · exact h
  | some s =>
    have hscan := scanStatement_slotLoans (scanContext mir callees)
      (scanAt mir callees (eventPos mir c)) s
    have hsucc : (scanAt mir callees (eventPos mir c + 1)).slotLoans
        = ((scanAt mir callees (eventPos mir c)).scanStatement (scanContext mir callees) s).slotLoans := by
      rw [scanAt_succ (scanEvents_getElem? hs)]
      rfl
    simp only
    split
    · -- a borrow into the slot
      rename_i d kind place hk
      intro r L p hr
      by_cases hrd : r = d
      · subst hrd
        rw [Function.update_self] at hr
        obtain ⟨L', hL', heq⟩ := Option.map_eq_some_iff.mp hr
        obtain ⟨rfl, rfl⟩ := Prod.mk.injEq .. ▸ heq
        refine ⟨[(scanAt mir callees (eventPos mir c)).nextLoan], ?_, ?_⟩
        · rw [hsucc, hscan, hk]
          exact Function.update_self ..
        · rw [nextLoan_of_loanIssuedBy hs hk hL']
          exact List.mem_singleton_self _
      · rw [Function.update_of_ne hrd] at hr
        exact h r L p hr
    · rename_i d op hk
      split
      · -- a copy of a whole local: the source's entry is still there
        rename_i src hop
        intro r L p hr
        by_cases hrd : r = d
        · subst hrd
          rw [Function.update_self] at hr
          obtain ⟨⟨L', p'⟩, hheld, heq⟩ := Option.map_eq_some_iff.mp hr
          obtain ⟨rfl, rfl⟩ := Prod.mk.injEq .. ▸ heq
          have hsrc : copiedSlot s = some src := by simp [copiedSlot, hk, hop]
          obtain ⟨loans, hloans, hL⟩ := h.lookup hheld (hcopy s hs src hsrc (L', p') hheld)
          refine ⟨loans, ?_, hL⟩
          have halias : aliasSource (.use op) = some src := by
            cases op <;> simp [Operand.place?] at hop <;> subst hop <;> rfl
          rw [hsucc, hscan, hk]
          simp only [updateSlotLoanAliases, updateFromAlias, halias, Function.update_self]
          exact hloans
        · rw [Function.update_of_ne hrd] at hr
          exact h r L p hr
      · exact hclear _
    · exact hclear _
    · exact h

/-- **Run lemma.** The invariant holds along every path whose copies are undisturbed. -/
theorem ProvInv.run {π : List Cursor} (h : CopiesUndisturbed mir (factsOf mir callees) π) :
    ProvInv mir callees (provenance mir (factsOf mir callees) π) := by
  induction π using List.reverseRecOn with
  | nil =>
    intro r L p hr
    cases hr
  | append_singleton π c ih =>
    rw [provenance, List.foldl_append]
    refine ProvInv.step (ih ?_) c ?_
    · intro π₁ c' π₂ hπ
      exact h π₁ c' (π₂ ++ [c]) (by rw [hπ]; simp)
    · exact h π c [] (by simp)

/-- On the path `π` the slot `r` last received the reference of loan `L`, by the statement at `p`;
the statement `s` at its end `c` reads `r`, whole or through a projection. -/
structure ReadOnPath (mir : MirFunction) (facts : BorrowFacts) (π : List Cursor) (c : Cursor)
    (r : SlotId) (L : LoanId) (p : Cursor) (s : MirStatement) : Prop where
  path : IsPath mir (π ++ [c])
  held : provenance mir facts π r = some (L, p)
  stmt : stmtAt mir c = some s
  reads : ∃ place ∈ statementReadPlaces s.kind, place.rootLocal = r

/-- **Provenance on undisturbed paths.** If every copy on the path is undisturbed, the last write
of `r` is undisturbed at the read, and the statement reads `r` as a whole local without replacing
its value by another, then the read is recorded as a use of the loan the path put into `r`. -/
theorem use_recorded_on_undisturbed_path (mir : MirFunction) (callees : CalleeSummaries)
    (π : List Cursor) (c : Cursor) (r : SlotId) (L : LoanId) (p : Cursor) (s : MirStatement)
    (h : ReadOnPath mir (factsOf mir callees) π c r L p s)
    (hcopies : CopiesUndisturbed mir (factsOf mir callees) π)
    (hread : Undisturbed mir r p c)
    (hwhole : Place.localSlot r ∈ statementReadPlaces s.kind)
    (hkeep : ∀ rvalue, s.kind = .assign (.localSlot r) rvalue → aliasSource rvalue = some r) :
    (L, s.point) ∈ (factsOf mir callees).useOfLoan := by
  obtain ⟨loans, hloans, hL⟩ := (ProvInv.run hcopies).lookup h.held hread
  have hev := scanEvents_getElem? h.stmt
  -- the statement's own effect leaves the entry of `r` as it found it
  have hafter : ((scanAt mir callees (eventPos mir c)).scanStatement
      (scanContext mir callees) s).slotLoans r = some loans := by
    cases hw : ScanEvent.writes r (.stmt s) with
    | false =>
      rw [← hloans]
      exact event_slotLoans_frame (scanContext mir callees) _ hw
    | true =>
      obtain ⟨rvalue, hk⟩ : ∃ rvalue, s.kind = .assign (.localSlot r) rvalue := by
        simp only [ScanEvent.writes] at hw
        split at hw
        · rename_i d rvalue hk
          exact ⟨rvalue, by rw [hk, beq_iff_eq.mp hw]⟩
        · cases hw
      have halias := hkeep rvalue hk
      rw [scanStatement_slotLoans, hk]
      cases rvalue with
      | borrow kind place => simp [aliasSource] at halias
      | _ =>
        simp only [updateSlotLoanAliases, updateFromAlias, halias, Function.update_self]
        exact hloans
  refine (scanAt_mono (eventPos mir c + 1)).1 _ ?_
  rw [scanAt_succ hev]
  refine List.mem_append_right _ (List.mem_flatMap.mpr ⟨.localSlot r, hwhole, ?_⟩)
  refine List.mem_map.mpr ⟨L, ?_, rfl⟩
  rw [show (((scanAt mir callees (eventPos mir c)).recordPoint s).effect
    (scanContext mir callees) s).slotLoans r = some loans from hafter]
  exact hL

end Soundness

/-! ## Where provenance is lost

Both branches borrow into slot `3`; the join reads it. The scan meets the second borrow last. -/

def joinMir : MirFunction :=
  bareFunction
    [ { id := 0, statements := [], terminator := ⟨.switchBool (.copy (.localSlot 5)) 1 2, ⟨0, 1⟩⟩ },
      { id := 1
        statements := [⟨.assign (.localSlot 3) (.borrow .shared (.localSlot 1)), ⟨2, 3⟩, 0⟩]
        terminator := ⟨.goto 3, ⟨2, 3⟩⟩ },
      { id := 2
        statements := [⟨.assign (.localSlot 3) (.borrow .shared (.localSlot 2)), ⟨4, 5⟩, 1⟩]
        terminator := ⟨.goto 3, ⟨4, 5⟩⟩ },
      { id := 3
        statements := [⟨.assign (.localSlot 4) (.use (.copy (.localSlot 3))), ⟨6, 7⟩, 2⟩]
        terminator := ⟨.ret, ⟨8, 9⟩⟩ } ]
    6 (by decide) (by decide) (by decide) (by decide)

theorem joinMir_isPath_second : IsPath joinMir [⟨0, 0⟩, ⟨2, 0⟩, ⟨2, 1⟩, ⟨3, 0⟩] := by
  have h1 : Step joinMir ⟨0, 0⟩ ⟨2, 0⟩ := .jump (by decide)
  have h2 : Step joinMir ⟨2, 0⟩ ⟨2, 1⟩ := .next (by decide)
  have h3 : Step joinMir ⟨2, 1⟩ ⟨3, 0⟩ := .jump (by decide)
  exact .cons_cons h1 (.cons_cons h2 (.cons_cons h3 (.singleton _)))

/-- Through the second branch the read at the join is undisturbed. -/
theorem use_recorded_on_undisturbed_path_joinMir :
    (1, 2) ∈ (factsOf joinMir fun _ => none).useOfLoan := by
  refine use_recorded_on_undisturbed_path joinMir (fun _ => none) [⟨0, 0⟩, ⟨2, 0⟩, ⟨2, 1⟩] ⟨3, 0⟩
    3 1 ⟨2, 0⟩ _ ⟨joinMir_isPath_second, by decide, rfl, ⟨.localSlot 3, by decide, rfl⟩⟩
    ?_ (by decide) (by decide) ?_
  · intro π₁ c π₂ hπ s hs src hsrc
    -- no statement on this path copies a slot
    have hc : c ∈ [(⟨0, 0⟩ : Cursor), ⟨2, 0⟩, ⟨2, 1⟩] := by rw [hπ]; simp
    have hnone : ∀ c ∈ [(⟨0, 0⟩ : Cursor), ⟨2, 0⟩, ⟨2, 1⟩], ∀ s ∈ stmtAt joinMir c,
        copiedSlot s = none := by decide
    rw [hnone c hc s hs] at hsrc
    cases hsrc
  · intro rvalue hk
    cases hk

/-- **A join loses the loan.** Through the first branch slot `3` holds loan `0`, and the read at
the join is not recorded as a use of it. -/
theorem use_lost_at_join :
    ¬ ∀ (mir : MirFunction) (callees : CalleeSummaries) (π : List Cursor) (c : Cursor)
        (r : SlotId) (L : LoanId) (p : Cursor) (s : MirStatement),
      ReadOnPath mir (factsOf mir callees) π c r L p s →
      (L, s.point) ∈ (factsOf mir callees).useOfLoan := by
  intro hclaim
  have hpath : IsPath joinMir [⟨0, 0⟩, ⟨1, 0⟩, ⟨1, 1⟩, ⟨3, 0⟩] := by
    have h1 : Step joinMir ⟨0, 0⟩ ⟨1, 0⟩ := .jump (by decide)
    have h2 : Step joinMir ⟨1, 0⟩ ⟨1, 1⟩ := .next (by decide)
    have h3 : Step joinMir ⟨1, 1⟩ ⟨3, 0⟩ := .jump (by decide)
    exact .cons_cons h1 (.cons_cons h2 (.cons_cons h3 (.singleton _)))
  have huse := hclaim joinMir (fun _ => none) [⟨0, 0⟩, ⟨1, 0⟩, ⟨1, 1⟩] ⟨3, 0⟩ 3 0 ⟨1, 0⟩ _
    ⟨hpath, by decide, rfl, ⟨.localSlot 3, by decide, rfl⟩⟩
  exact absurd huse (by decide)

end ShapeLang.Mir
