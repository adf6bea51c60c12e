import ShapeLang.Mir.Hidden
import ShapeLang.Mir.SolverFlow

/-!
# ShapeLang — the local-sink exemption

A loan that is stored into a container is an error unless the slot of the container is judged local
(`solve_with_options`), and a slot is judged local when the search of `slot_flows_to_return` does
not find the return slot from it (`detect_escape_status`). The search follows assignments to whole
locals only. Nothing follows a container into another container, into a module binding or into a
call, so an exempted container can leave the frame that way.

  * `slotFlowsToReturn_closed` — the search answers `false` only when the slots it has visited are closed
    under flows and do not contain the return slot;
  * `ExemptedSink.judgedLocal` — a container sink without an error was judged local;
  * `hidden_of_localRun` — a run that stores the container only where the same judgement holds keeps
    it in the frame.
-/

namespace ShapeLang.Mir

open ObjectGraph

/-! ## Flows to the return slot -/

/-- A statement assigns to the local `dest` and uses `slot`. -/
def Flows (mir : MirFunction) (slot dest : SlotId) : Prop :=
  ∃ stmt ∈ mir.allStatements, ∃ rv, stmt.kind = .assign (.localSlot dest) rv ∧ rvalueUsesSlot rv slot = true

/-- A chain of assignments to locals, each using the local before it, ends in the return slot. -/
def FlowsToReturn (mir : MirFunction) (slot : SlotId) : Prop := Relation.ReflTransGen (Flows mir) slot 0

section

variable {mir : MirFunction}

/-- One turn of the loop of `slot_flows_to_return`. -/
def flowStep (mir : MirFunction) (fuel : Nat) (slot : SlotId) (st : Bool × List SlotId)
    (stmt : MirStatement) :
    Bool × List SlotId :=
  if st.1 then (true, st.2)
  else match stmt.kind with
    | .assign (.localSlot dest) rvalue =>
        if !rvalueUsesSlot rvalue slot then (false, st.2)
        else if dest = 0 then (true, st.2)
        else if dest ≠ slot then slotFlowsToReturn mir fuel dest st.2
        else (false, st.2)
    | _ => (false, st.2)

theorem slotFlowsToReturn_succ (fuel : Nat) (slot : SlotId) (visited : List SlotId) :
    slotFlowsToReturn mir (fuel + 1) slot visited =
      if slot ∈ visited then (false, visited)
      else mir.allStatements.foldl (flowStep mir fuel slot) (false, slot :: visited) := rfl

theorem foldl_flowStep_true (fuel : Nat) (slot : SlotId) (stmts : List MirStatement)
    (visited : List SlotId) :
    (stmts.foldl (flowStep mir fuel slot) (true, visited)).1 = true := by
  induction stmts with
  | nil => rfl
  | cons stmt stmts ih => exact ih

/-- Every flow out of the slot stays among the visited ones, and away from the return slot. -/
def ClosedUnder (mir : MirFunction) (visited : List SlotId) (slot : SlotId) : Prop :=
  ∀ dest, Flows mir slot dest → dest ≠ 0 ∧ dest ∈ visited

variable {slot : SlotId} {visited visited' : List SlotId}

theorem ClosedUnder.mono (h : ClosedUnder mir visited slot) (hsub : visited ⊆ visited') :
    ClosedUnder mir visited' slot :=
  fun dest hdest => ⟨(h dest hdest).1, hsub (h dest hdest).2⟩

/-- What a search that found nothing leaves: it visited more slots, and these are closed. -/
structure Searched (mir : MirFunction) (visited visited' : List SlotId) : Prop where
  subset : visited ⊆ visited'
  closed : ∀ slot ∈ visited', slot ∉ visited → ClosedUnder mir visited' slot

theorem Searched.refl (visited : List SlotId) : Searched mir visited visited :=
  ⟨List.Subset.refl _, fun _ hmem hnot => absurd hmem hnot⟩

theorem Searched.trans {v₁ v₂ v₃ : List SlotId} (h : Searched mir v₁ v₂) (h' : Searched mir v₂ v₃) :
    Searched mir v₁ v₃ := by
  refine ⟨List.Subset.trans h.subset h'.subset, fun slot hmem hnot => ?_⟩
  by_cases hmid : slot ∈ v₂
  · exact (h.closed slot hmid hnot).mono h'.subset
  · exact h'.closed slot hmem hmid

/-- The slots that some statement assigns, with the one the search starts from. -/
def assignedOr (mir : MirFunction) (start : SlotId) : Finset SlotId :=
  insert start (mir.allStatements.filterMap fun stmt =>
    match stmt.kind with
    | .assign (.localSlot dest) _ => some dest
    | _ => none).toFinset

theorem card_assignedOr_le (start : SlotId) :
    (assignedOr mir start).card ≤ mir.allStatements.length + 1 := by
  refine (Finset.card_insert_le _ _).trans (Nat.succ_le_succ ?_)
  exact (List.toFinset_card_le _).trans (List.length_filterMap_le _ _)

variable {start : SlotId} {stmt : MirStatement}

theorem mem_assignedOr {dest : SlotId} {rv : Rvalue} (hmem : stmt ∈ mir.allStatements)
    (hkind : stmt.kind = .assign (.localSlot dest) rv) :
    dest ∈ assignedOr mir start := by
  refine Finset.mem_insert_of_mem (List.mem_toFinset.mpr (List.mem_filterMap.mpr ⟨stmt, hmem, ?_⟩))
  rw [hkind]

/-- The fuel lasts for the slots that can still be visited. -/
def Enough (mir : MirFunction) (start : SlotId) (fuel : Nat) (visited : List SlotId) : Prop :=
  (assignedOr mir start \ visited.toFinset).card ≤ fuel

variable {fuel : Nat}

theorem Enough.mono (h : Enough mir start fuel visited) (hsub : visited ⊆ visited') :
    Enough mir start fuel visited' := by
  refine (Finset.card_le_card (Finset.sdiff_subset_sdiff (Finset.Subset.refl _) fun slot hslot =>
    ?_)).trans h
  exact List.mem_toFinset.mpr (hsub (List.mem_toFinset.mp hslot))

theorem Enough.visit (h : Enough mir start (fuel + 1) visited) (hslot : slot ∈ assignedOr mir start)
    (hnot : slot ∉ visited) :
    Enough mir start fuel (slot :: visited) := by
  have hlt : (assignedOr mir start \ (slot :: visited).toFinset).card <
      (assignedOr mir start \ visited.toFinset).card := by
    refine Finset.card_lt_card (Finset.ssubset_iff_of_subset ?_ |>.mpr ⟨slot, ?_, ?_⟩)
    · refine Finset.sdiff_subset_sdiff (Finset.Subset.refl _) fun s hs => ?_
      rw [List.mem_toFinset] at hs ⊢
      exact List.mem_cons_of_mem _ hs
    · exact Finset.mem_sdiff.mpr ⟨hslot, fun hmem => hnot (List.mem_toFinset.mp hmem)⟩
    · exact fun hmem => (Finset.mem_sdiff.mp hmem).2 (List.mem_toFinset.mpr List.mem_cons_self)
  exact Nat.le_of_lt_succ (Nat.lt_of_lt_of_le hlt h)

/-- The nested searches of one turn of fuel leave closed slots, the one they start from among them. -/
def SearchesClosed (mir : MirFunction) (start : SlotId) (fuel : Nat) : Prop :=
  ∀ slot visited visited', slot ∈ assignedOr mir start → Enough mir start fuel visited →
    slotFlowsToReturn mir fuel slot visited = (false, visited') →
    Searched mir visited visited' ∧ slot ∈ visited'

theorem flowStep_closed (hsearch : SearchesClosed mir start fuel) (hmem : stmt ∈ mir.allStatements)
    (hslot : slot ∈ visited) (hfuel : Enough mir start fuel visited)
    (h : flowStep mir fuel slot (false, visited) stmt = (false, visited')) :
    Searched mir visited visited' ∧ ∀ dest rv, stmt.kind = .assign (.localSlot dest) rv →
      rvalueUsesSlot rv slot = true → dest ≠ 0 ∧ dest ∈ visited' := by
  by_cases hkind : ∃ dest rv, stmt.kind = .assign (.localSlot dest) rv ∧ rvalueUsesSlot rv slot = true
  · obtain ⟨dest, rv, hkind, huses⟩ := hkind
    have hdest : dest ≠ 0 ∧ Searched mir visited visited' ∧ dest ∈ visited' := by
      simp only [flowStep, hkind, huses, Bool.false_eq_true, if_false, Bool.not_true] at h
      split at h
      · cases h
      · rename_i hzero
        split at h
        · exact ⟨hzero, hsearch dest visited visited' (mem_assignedOr hmem hkind) hfuel h⟩
        · rename_i hsame
          obtain rfl := (Prod.mk.injEq .. ▸ h).2
          exact ⟨hzero, .refl _, Decidable.not_not.mp hsame ▸ hslot⟩
    refine ⟨hdest.2.1, fun dest' rv' hkind' _ => ?_⟩
    cases hkind.symm.trans hkind'
    exact ⟨hdest.1, hdest.2.2⟩
  · -- a statement that the slot does not flow through
    have hsame : visited' = visited := by
      unfold flowStep at h
      simp only [Bool.false_eq_true, if_false] at h
      split at h
      · rename_i dest rv hassign
        have huses : rvalueUsesSlot rv slot = false :=
          Bool.eq_false_iff.mpr fun huses => hkind ⟨dest, rv, hassign, huses⟩
        rw [huses] at h
        exact (Prod.mk.inj h).2.symm
      · exact (Prod.mk.inj h).2.symm
    subst hsame
    exact ⟨.refl _, fun dest rv hassign huses => absurd ⟨dest, rv, hassign, huses⟩ hkind⟩

theorem foldl_flowStep_closed (hsearch : SearchesClosed mir start fuel) (stmts : List MirStatement)
    (hstmts : stmts ⊆ mir.allStatements) (hslot : slot ∈ visited) (hfuel : Enough mir start fuel visited)
    (h : stmts.foldl (flowStep mir fuel slot) (false, visited) = (false, visited')) :
    Searched mir visited visited' ∧ ∀ stmt ∈ stmts, ∀ dest rv, stmt.kind = .assign (.localSlot dest) rv →
      rvalueUsesSlot rv slot = true → dest ≠ 0 ∧ dest ∈ visited' := by
  induction stmts generalizing visited with
  | nil =>
    obtain rfl := (Prod.mk.inj h).2
    exact ⟨.refl _, fun _ hmem => absurd hmem List.not_mem_nil⟩
  | cons stmt stmts ih =>
    rw [List.foldl_cons] at h
    -- a turn that finds the return slot ends the search with `true`
    have hturn : ∃ v, flowStep mir fuel slot (false, visited) stmt = (false, v) := by
      rcases hst : flowStep mir fuel slot (false, visited) stmt with ⟨found, v⟩
      cases found with
      | false => exact ⟨v, rfl⟩
      | true =>
        have htrue : (stmts.foldl (flowStep mir fuel slot) (true, v)).1 = true :=
          foldl_flowStep_true fuel slot stmts v
        rw [← hst, h] at htrue
        cases htrue
    obtain ⟨v, hv⟩ := hturn
    obtain ⟨hone, hdest⟩ := flowStep_closed hsearch (hstmts List.mem_cons_self) hslot hfuel hv
    rw [hv] at h
    obtain ⟨hrest, hstep⟩ := ih (fun s hs => hstmts (List.mem_cons_of_mem _ hs)) (hone.subset hslot)
      (hfuel.mono hone.subset) h
    refine ⟨hone.trans hrest, fun s hs dest rv hkind huses => ?_⟩
    rcases List.mem_cons.mp hs with rfl | hs
    · obtain ⟨hne, hmem⟩ := hdest dest rv hkind huses
      exact ⟨hne, hrest.subset hmem⟩
    · exact hstep s hs dest rv hkind huses

/-- A search that answers `false` leaves closed slots. -/
theorem slotFlowsToReturn_closed (start : SlotId) (fuel : Nat) : SearchesClosed mir start fuel := by
  induction fuel with
  | zero =>
    -- nothing is left to visit
    intro slot visited visited' hslot hfuel h
    obtain rfl : visited = visited' := (Prod.mk.inj h).2
    refine ⟨.refl _, ?_⟩
    by_contra hnot
    have hempty := Finset.card_eq_zero.mp (Nat.le_zero.mp hfuel)
    have hin : slot ∈ assignedOr mir start \ visited.toFinset :=
      Finset.mem_sdiff.mpr ⟨hslot, fun hmem => hnot (List.mem_toFinset.mp hmem)⟩
    rw [hempty] at hin
    exact absurd hin (Finset.notMem_empty slot)
  | succ fuel ih =>
    intro slot visited visited' hslot hfuel h
    rw [slotFlowsToReturn_succ] at h
    split at h
    · rename_i hmem
      obtain rfl := (Prod.mk.inj h).2
      exact ⟨.refl _, hmem⟩
    · rename_i hnot
      obtain ⟨hfold, hdest⟩ := foldl_flowStep_closed ih mir.allStatements (List.Subset.refl _)
        List.mem_cons_self (hfuel.visit hslot hnot) h
      have hself : slot ∈ visited' := hfold.subset List.mem_cons_self
      refine ⟨⟨fun s hs => hfold.subset (List.mem_cons_of_mem _ hs), fun s hs hsnot => ?_⟩, hself⟩
      by_cases hsame : s = slot
      · subst hsame
        rintro dest ⟨stmt, hmem, rv, hkind, huses⟩
        exact hdest stmt hmem dest rv hkind huses
      · exact hfold.closed s hs fun hcons => (List.mem_cons.mp hcons).elim hsame hsnot

/-- The verdict `Local` of a slot other than the return slot: no chain of assignments to locals
leads from it to the return slot. -/
theorem not_flowsToReturn_of_local {captures : List SlotId}
    (h : detectEscapeStatus slot mir captures = .localOnly) (hslot : slot ≠ 0) :
    ¬ FlowsToReturn mir slot := by
  have hfalse : (slotFlowsToReturn mir (mir.allStatements.length + 1) slot []).1 = false := by
    by_contra htrue
    unfold detectEscapeStatus at h
    rw [if_pos ⟨hslot, Bool.eq_true_of_not_eq_false htrue⟩] at h
    cases h
  obtain ⟨hsearched, hself⟩ := slotFlowsToReturn_closed slot (mir.allStatements.length + 1) slot []
    (slotFlowsToReturn mir (mir.allStatements.length + 1) slot []).2 (Finset.mem_insert_self _ _)
    ((Finset.card_le_card Finset.sdiff_subset).trans (card_assignedOr_le slot)) (Prod.ext hfalse rfl)
  -- the visited slots are closed under flows, and no flow ends in the return slot
  intro hflows
  have hinv : ∀ dest, Relation.ReflTransGen (Flows mir) slot dest → dest ≠ 0 ∧ dest ∈
      (slotFlowsToReturn mir (mir.allStatements.length + 1) slot []).2 := by
    intro dest hdest
    induction hdest with
    | refl => exact ⟨hslot, hself⟩
    | tail _ hflow ih => exact hsearched.closed _ ih.2 List.not_mem_nil _ hflow
  exact (hinv 0 hflows).1 rfl

end

/-! ## The exemption -/

theorem Scan.event_slotEscapeStatus (cx : ScanContext) (st : Scan) (e : ScanEvent) :
    (st.event cx e).facts.slotEscapeStatus = st.facts.slotEscapeStatus := by
  cases e with
  | stmt s =>
    show ((st.recordPoint s).effect cx s).facts.slotEscapeStatus = _
    unfold Scan.effect
    split
    -- a borrow, an assignment, and the statements that record a sink or nothing
    · rename_i dest kind place _
      cases dest with
      | localSlot slot =>
        simp only [Scan.borrow, Scan.borrowIntoLocal]
        split
        · split <;> rfl
        · rfl
      | _ => rfl
    · rename_i place rvalue _ _
      cases place with
      | localSlot dest =>
        simp only [Scan.assign, Scan.assignSinks, Scan.assignLocal]
        split <;> rfl
      | _ => rfl
    all_goals rfl
  | term block =>
    show (st.scanCall cx block).facts.slotEscapeStatus = _
    unfold Scan.scanCall
    split
    · rw [(Scan.callResult_facts _ _ _).1]
      rfl
    · rfl

/-- The scan leaves the escape status of the slots as it was computed at the start. -/
theorem factsOf_slotEscapeStatus (mir : MirFunction) (callees : CalleeSummaries) (slot : SlotId) :
    (factsOf mir callees).slotEscapeStatus slot =
      if slot < mir.numLocals then some (detectEscapeStatus slot mir (collectClosureCaptures mir).1)
      else none := by
  have hfold : ∀ (events : List ScanEvent) (st : Scan),
      (events.foldl (Scan.event (scanContext mir callees)) st).facts.slotEscapeStatus =
        st.facts.slotEscapeStatus := by
    intro events
    induction events with
    | nil => exact fun _ => rfl
    | cons e events ih => exact fun st => (ih _).trans (Scan.event_slotEscapeStatus _ st e)
  show (scanBlocks mir (ControlFlowGraph.build mir) callees).facts.slotEscapeStatus slot = _
  rw [scanBlocks_eq_foldl, hfold]
  rfl

/-- The sinks that are exempted when their slot is judged local. -/
def LoanSinkKind.isContainer : LoanSinkKind → Bool
  | .closureEnv | .arrayStore | .arrayAssignment | .objectStore | .objectAssignment | .enumStore => true
  | _ => false

/-- A loan of a local place is stored into the container of slot `k`, and the solver has no error for it. -/
structure ExemptedSink (D : Datafrog) (mir : MirFunction) (callees : CalleeSummaries)
    (options : BorrowAnalysisOptions) (sink : LoanSink) (k : SlotId) : Prop where
  mem : sink ∈ (factsOf mir callees).loanSinks
  container : sink.kind.isContainer = true
  slot : sink.sinkSlot = some k
  ofLocal : ∃ info, (factsOf mir callees).infoOf sink.loanId = some info ∧
    info.borrowedPlace.rootLocal ∉ mir.paramSlots
  quiet : ∀ e ∈ (solveWithOptions D (factsOf mir callees) options).errors, e.conflictingLoan ≠ sink.loanId

theorem mem_firstByKey_id {α : Type} [DecidableEq α] {xs : List α} {x : α} :
    ∀ {seen : List α}, x ∈ xs → x ∉ seen → x ∈ firstByKey id seen xs := by
  induction xs with
  | nil => exact fun h => absurd h List.not_mem_nil
  | cons y xs ih =>
    intro seen hx hseen
    rw [firstByKey]
    by_cases hxy : x = y
    · subst hxy
      rw [if_neg (show id x ∉ seen from hseen)]
      exact List.mem_cons_self
    · have hx : x ∈ xs := (List.mem_cons.mp hx).resolve_left hxy
      split
      · exact ih hx hseen
      · refine List.mem_cons_of_mem _ (ih hx fun hmem => ?_)
        exact (List.mem_cons.mp hmem).elim hxy hseen

section

variable {D : Datafrog} {mir : MirFunction} {callees : CalleeSummaries} {options : BorrowAnalysisOptions}
  {sink : LoanSink} {k : SlotId}

/-- The sink loop reports a container sink whose slot is not judged local. -/
theorem ExemptedSink.judgedLocal (h : ExemptedSink D mir callees options sink k) :
    (factsOf mir callees).slotEscapeStatus k = some .localOnly := by
  obtain ⟨info, hinfo, -⟩ := h.ofLocal
  -- otherwise the sink would be reported, and the solver is quiet
  by_contra hnot
  have hpromoted : sinkIsPromotedFloor options sink = false := by
    have hcontainer := h.container
    unfold sinkIsPromotedFloor
    cases hkind : sink.kind <;> rw [hkind] at hcontainer <;> first | rfl | cases hcontainer
  have hreported : ∃ kind, sinkErrorKind sink.kind false info.kind = some kind := by
    have hcontainer := h.container
    cases hkind : sink.kind <;> rw [hkind] at hcontainer <;> first | exact ⟨_, rfl⟩ | cases hcontainer
  obtain ⟨kind, hkind⟩ := hreported
  have hlocal : (sink.sinkSlot.bind (factsOf mir callees).slotEscapeStatus == some EscapeStatus.localOnly)
      = false := by
    rw [h.slot]
    exact beq_eq_false_iff_ne.mpr hnot
  refine h.quiet (loanError (factsOf mir callees) kind sink.span sink.loanId info) ?_ rfl
  -- the sink is among those that the loop goes over, and none of its exemptions applies
  have hmem : loanError (factsOf mir callees) kind sink.span sink.loanId info ∈
      (solveSinks (factsOf mir callees) options).1 := by
    refine List.mem_filterMap.mpr ⟨(sink, info), List.mem_filterMap.mpr ⟨sink, ?_, ?_⟩, ?_⟩
    · exact mem_firstByKey_id h.mem List.not_mem_nil
    · rw [hinfo]
      rfl
    · simp only [hpromoted, Bool.false_and, Bool.false_eq_true, if_false, hlocal, hkind, Option.map_some]
  simp only [solveWithOptions, List.mem_append]
  exact Or.inl (Or.inl (Or.inr hmem))

theorem ExemptedSink.not_flowsToReturn (h : ExemptedSink D mir callees options sink k) (hk : k ≠ 0) :
    ¬ FlowsToReturn mir k := by
  have hlocal := h.judgedLocal
  rw [factsOf_slotEscapeStatus] at hlocal
  split at hlocal
  · exact not_flowsToReturn_of_local (Option.some.inj hlocal) hk
  · cases hlocal

end

/-! ## Executions -/

/-- Where a value leaves the frame from: slots that flow to the return slot, and what outlives the frame. -/
def returning (mir : MirFunction) : Outside := ⟨FlowsToReturn mir, fun _ => False, False⟩

/-- The object is referred to from the return slot or from what outlives the frame: a module
binding, a task, something that a callee keeps. -/
def Outlives (σ : Heap) (o : ObjId) : Prop := ∃ r, (σ.slot 0 = some r ∨ r ∈ σ.kept) ∧ Reach σ.cell r o

/-- A step that stores the object, if at all, where nothing leaves the frame from. -/
def LocalStep (mir : MirFunction) (o : ObjId) (x y : Config) : Prop :=
  Guarded (returning mir) mir o x y ∧ HeapStep mir x y

/-- An assignment to a whole local is a flow. -/
theorem guardedLocal_of_hidden {mir : MirFunction} {x : Config} {o : ObjId}
    (h : Hidden (returning mir) x.heap o) :
    GuardedLocal (returning mir) mir o x := by
  rintro stmt d rv hstmt hkind ⟨s, r, huses, hr, hreach⟩ hret
  have hflow : FlowsToReturn mir s :=
    Relation.ReflTransGen.head ⟨stmt, mem_allStatements hstmt, rv, hkind, huses⟩ hret
  exact h r (.slot hflow hr) hreach

theorem hidden_of_localRun {mir : MirFunction} {x y : Config} {o : ObjId}
    (h : Hidden (returning mir) x.heap o) (hwf : x.heap.Wf) (ho : o < x.heap.next)
    (hrun : Relation.ReflTransGen (LocalStep mir o) x y) :
    Hidden (returning mir) y.heap o := by
  have hall : Hidden (returning mir) y.heap o ∧ y.heap.Wf ∧ o < y.heap.next := by
    induction hrun with
    | refl => exact ⟨h, hwf, ho⟩
    | tail _ hstep ih =>
      obtain ⟨h, hwf, ho⟩ := ih
      obtain ⟨hg, hs⟩ := hstep
      have hnext := h.step hwf (fun r hr => hr.elim) ho hg (guardedLocal_of_hidden h) hs
      exact ⟨hnext, hwf.step hs, Nat.lt_of_lt_of_le ho hs.next_le⟩
  exact hall.1

/-- **An exempted container stays in the frame** in every execution that comes to a state with the
container in slot `k`, not the return slot, and in no other place that it leaves the frame from, and
that goes on storing it locally. -/
theorem exempted_container_stays (D : Datafrog) (mir : MirFunction) (callees : CalleeSummaries)
    (options : BorrowAnalysisOptions) (sink : LoanSink) (k : SlotId)
    (h : ExemptedSink D mir callees options sink k) (hk : k ≠ 0) (x z y : Config) (hx : Enters mir x)
    (hxz : Relation.ReflTransGen (HeapStep mir) x z) (o : ObjId) (ho : z.heap.slot k = some o)
    (hslots : ∀ s r, s ≠ k → z.heap.slot s = some r → Reach z.heap.cell r o → ¬ FlowsToReturn mir s)
    (hkept : ∀ r ∈ z.heap.kept, ¬ Reach z.heap.cell r o)
    (hzy : Relation.ReflTransGen (LocalStep mir o) z y) : ¬ Outlives y.heap o := by
  have hwf := hx.wf_of_run hxz
  have hhidden : Hidden (returning mir) z.heap o := by
    intro r hroot hreach
    cases hroot with
    | object hr => exact hr
    | kept hr => exact hkept r hr hreach
    | @slot s hs hr =>
      by_cases hsk : s = k
      · subst hsk
        exact h.not_flowsToReturn hk hs
      · exact hslots s r hsk hr hreach hs
    | captured hc _ _ => exact hc
  have hend := hidden_of_localRun hhidden hwf (hwf.slot k o ho) hzy
  rintro ⟨r, hr | hr, hreach⟩
  · exact hend r (.slot .refl hr) hreach
  · exact hend r (.kept hr) hreach

/-! ### A reference in an array -/

/-- `let x = 1; let r = &x; let a = [r]; let b = a; m = b`, with `m` a module binding. -/
def publishedArrayMir : MirFunction :=
  bareFunction (straightLine [.assign (.localSlot 1) (.use (.constant (.int 1))),
    .assign (.localSlot 2) (.borrow .shared (.localSlot 1)),
    .assign (.localSlot 3) (.aggregate [.copy (.localSlot 2)]), .arrayStore 3 [.copy (.localSlot 2)],
    .assign (.localSlot 4) (.use (.copy (.localSlot 3))), .moduleBindingStore "m" [.copy (.localSlot 4)]]) 5
    (by decide) (by decide) (by decide) (by decide)

def arraySink : LoanSink := ⟨0, .arrayStore, some 3, ⟨0, 0⟩⟩

theorem publishedArrayMir_exempted :
    ExemptedSink Datafrog.worklist publishedArrayMir (fun _ => none) {} arraySink 3 where
  mem := by decide
  container := rfl
  slot := rfl
  ofLocal := ⟨_, rfl, by decide⟩
  quiet := by decide

/-- The array is the only object: the number and the reference to its slot are none. -/
def withArray : Heap := (emptyHeap.alloc (fun _ => none) none).setSlot 3 (some 0)

theorem withArray_slot {s : SlotId} (hs : s ≠ 3) : withArray.slot s = none := by
  simp [withArray, Heap.setSlot, Heap.alloc, emptyHeap, hs]

theorem emptyHeap_setSlot (s : SlotId) : emptyHeap.setSlot s none = emptyHeap := by
  unfold Heap.setSlot
  rw [show (none : Option ObjId) = emptyHeap.slot s from rfl, Function.update_eq_self]

/-- The execution up to the store of the reference. -/
theorem publishedArrayMir_stores : Relation.ReflTransGen (HeapStep publishedArrayMir)
    ⟨entryCursor publishedArrayMir, emptyHeap⟩ ⟨⟨0, 4⟩, withArray⟩ := by
  have h₁ : HeapStep publishedArrayMir ⟨⟨0, 0⟩, emptyHeap⟩ ⟨⟨0, 1⟩, emptyHeap.setSlot 1 none⟩ :=
    .statement rfl (.assign (.use (.constant (.int 1))) (.localSlot 1))
  have h₂ : HeapStep publishedArrayMir ⟨⟨0, 1⟩, emptyHeap⟩ ⟨⟨0, 2⟩, emptyHeap.setSlot 2 none⟩ :=
    .statement rfl (.assign (.borrow (.localSlot 1)) (.localSlot 2))
  have h₃ : HeapStep publishedArrayMir ⟨⟨0, 2⟩, emptyHeap⟩ ⟨⟨0, 3⟩, withArray⟩ :=
    .statement rfl (.assign (.aggregate (.cons (.place rfl (.localSlot 2)) .nil) holds_none) (.localSlot 3))
  -- the array holds the reference already
  have h₄ : HeapStep publishedArrayMir ⟨⟨0, 3⟩, withArray⟩
      ⟨⟨0, 4⟩, { withArray with cell := Function.update withArray.cell 0 (withArray.cell 0) }⟩ :=
    .statement rfl (.storeInto rfl (.cons (.place rfl (.localSlot 2)) .nil) rfl rfl fun _ => Or.inl rfl)
  rw [emptyHeap_setSlot] at h₁ h₂
  rw [Function.update_eq_self] at h₄
  exact .tail (.tail (.tail (.tail .refl h₁) h₂) h₃) h₄

/-- Then it goes to another local, and stays in the frame. -/
theorem exempted_container_stays_publishedArray : ∃ y,
    Relation.ReflTransGen (LocalStep publishedArrayMir 0) ⟨⟨0, 4⟩, withArray⟩ y ∧ y.heap.slot 4 = some 0 ∧
      ¬ Outlives y.heap 0 := by
  -- the statement assigns to a local, which the guard leaves open
  have hlocal : Guarded (returning publishedArrayMir) publishedArrayMir 0 ⟨⟨0, 4⟩, withArray⟩
      ⟨⟨0, 5⟩, withArray.setSlot 4 (some 0)⟩ := by
    refine ⟨fun stmt ops op hstmt hkind => ?_, fun stmt s ops op hstmt hkind => ?_,
      fun stmt s ops op hstmt hkind => ?_, fun stmt place rv hstmt hkind hplace => ?_,
      fun blk func args dest next op hblk _ hterm => ?_⟩
    · obtain rfl := Option.some.inj hstmt
      cases hkind
    · obtain rfl := Option.some.inj hstmt
      cases hkind
    · obtain rfl := Option.some.inj hstmt
      cases hkind
    · obtain rfl := Option.some.inj hstmt
      cases hkind
      exact absurd rfl (hplace 4)
    · obtain rfl := Option.some.inj hblk
      cases hterm
  have hstep : LocalStep publishedArrayMir 0 ⟨⟨0, 4⟩, withArray⟩ ⟨⟨0, 5⟩, withArray.setSlot 4 (some 0)⟩ :=
    ⟨hlocal, .statement rfl (.assign (.use (.place rfl (.localSlot 3))) (.localSlot 4))⟩
  refine ⟨_, .single hstep, rfl, ?_⟩
  refine exempted_container_stays Datafrog.worklist publishedArrayMir (fun _ => none) {} arraySink 3
    publishedArrayMir_exempted (by decide) _ _ _ (emptyHeap_enters publishedArrayMir)
      publishedArrayMir_stores 0 rfl
    (fun s r hs hr => ?_) (fun r hr => ?_) (.single hstep)
  · rw [withArray_slot hs] at hr
    cases hr
  · exact absurd hr (Set.notMem_empty r)

/-- The array with the reference is judged local, and leaves through a module binding. -/
theorem exempted_array_published : ¬ ∀ (D : Datafrog) (mir : MirFunction) (callees : CalleeSummaries)
    (options : BorrowAnalysisOptions) (sink : LoanSink)
    (k : SlotId), ExemptedSink D mir callees options sink k →
    ∀ x z y, Enters mir x → Relation.ReflTransGen (HeapStep mir) x z → ∀ o, z.heap.slot k = some o →
      Relation.ReflTransGen (HeapStep mir) z y → ¬ Outlives y.heap o := by
  intro h
  have h₁ : HeapStep publishedArrayMir ⟨⟨0, 4⟩, withArray⟩ ⟨⟨0, 5⟩, withArray.setSlot 4 (some 0)⟩ :=
    .statement rfl (.assign (.use (.place rfl (.localSlot 3))) (.localSlot 4))
  have h₂ : HeapStep publishedArrayMir ⟨⟨0, 5⟩, withArray.setSlot 4 (some 0)⟩
      ⟨⟨0, 6⟩, (withArray.setSlot 4 (some 0)).keep [some 0]⟩ :=
    .statement rfl (.keep rfl (.cons (.place rfl (.localSlot 4)) .nil))
  refine h Datafrog.worklist publishedArrayMir (fun _ => none)
    {} arraySink 3 publishedArrayMir_exempted _ _ _
    (emptyHeap_enters publishedArrayMir) publishedArrayMir_stores 0 rfl (.tail (.single h₁) h₂)
    ⟨0, Or.inr (Or.inr ?_), .refl 0⟩
  exact List.mem_singleton_self _

end ShapeLang.Mir
