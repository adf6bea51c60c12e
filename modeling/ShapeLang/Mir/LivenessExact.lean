import ShapeLang.Mir.Liveness

/-!
# ShapeLang — what liveness means and what the analysis computes

A slot is live at a point if some path from there reads it before it is wholly reassigned. A read
may be plain, the slot being the root of a read, borrowed or dropped place, or it may stand in an
index operand inside a place that is read or written. The whole local is reassigned by an assignment
or as the destination of a call.

The analysis (`Mir.Liveness`) sees the plain reads and the assignments, nothing behind the
terminator of an unreachable block, and the terminator of the block it is asked about always.

  * `computeLiveness_isSome` — the dataflow ends.
  * `mem_liveBefore_iff` — what it computes, as a property of the paths: a plain read ahead of the
    next assignment.
  * `isLiveAfter_exact_iff` — where that is what liveness means.
-/

namespace ShapeLang.Mir

open Chain

/-! ## Reads and reassignments -/

section

variable (mir : MirFunction) (slot : SlotId) (c : Cursor)

/-- The statement or terminator under a cursor reads the slot in an index operand. -/
def IndexReadAt : Prop :=
  (∃ s ∈ stmtAt mir c, slot ∈ s.kind.nestedReads) ∨
    (AtTerminator mir c ∧ ∃ bb ∈ mir.block? c.block, slot ∈ bb.terminator.kind.nestedReads)

def ReadsAt : Prop := UsesSlotAt mir slot c ∨ IndexReadAt mir slot c

/-- The statement under a cursor assigns the whole local. -/
def AssignedAt : Prop := ∃ s ∈ stmtAt mir c, s.kind.defines slot

/-- Some path from the cursor reads the slot before it is wholly reassigned. -/
def LiveAt : Prop :=
  ∃ π u, IsPath mir (π ++ [u]) ∧ (π ++ [u]).head? = some c ∧ ReadsAt mir slot u ∧ ∀ d ∈ π,
    ¬ DefinesAt mir slot d

end

theorem liveAt_iff {mir : MirFunction} {slot : SlotId} {c : Cursor} :
    LiveAt mir slot c ↔ Leads (Step mir) (ReadsAt mir slot) (DefinesAt mir slot) c := by
  constructor
  · rintro ⟨π, u, hpath, hhead, hread, hfree⟩
    exact .of_path hpath hhead hread hfree
  · intro h
    exact h.exists_path

/-! ## What the dataflow computes

The sets only ever hold slots with a plain read ahead, and a finished run holds all of them. -/

/-- A step the dataflow follows: it enters the successors of reachable blocks only. -/
def SeenStep (mir : MirFunction) (c d : Cursor) : Prop :=
  Step mir c d ∧ ((ControlFlowGraph.build mir).Reaches 0 c.block ∨ d.idx ≠ 0)

/-- A plain read of the slot lies ahead, with no assignment before it. -/
abbrev PlainAhead (mir : MirFunction) (slot : SlotId) : Cursor → Prop :=
  Leads (SeenStep mir) (UsesSlotAt mir slot) (AssignedAt mir slot)

section

variable {mir : MirFunction} {slot : SlotId}

/-- The walk back through a block finds only slots that are read ahead. -/
theorem plainAhead_of_mem_liveThrough {b : BasicBlockId} {bb : BasicBlock} (hb : mir.block? b = some bb)
    {out : Finset SlotId}
    (hout : slot ∈ out → (ControlFlowGraph.build mir).Reaches 0 b ∧
      ∃ succ ∈ (ControlFlowGraph.build mir).successors b, PlainAhead mir slot ⟨succ, 0⟩)
    {idx : Nat} (hidx : idx ≤ bb.statements.length)
    (h : slot ∈ liveThrough (addTerminatorUses out bb.terminator.kind) (bb.statements.drop idx)) :
    PlainAhead mir slot ⟨b, idx⟩ := by
  have hstmts : mir.statements b = bb.statements := MirFunction.statements_of_block? hb
  -- from the terminator backwards
  induction hk : bb.statements.length - idx generalizing idx with
  | zero =>
    obtain rfl : idx = bb.statements.length := by omega
    rw [List.drop_length] at h
    rcases mem_addTerminatorUses.mp h with huse | hlive
    · refine .here (Or.inr ⟨⟨?_, ?_⟩, bb, hb, huse⟩)
      · rw [hb]; rfl
      · rw [hstmts]
    · obtain ⟨hreach, succ, hsucc, hahead⟩ := hout hlive
      refine .step ?_ ⟨?_, Or.inl hreach⟩ hahead
      · rintro ⟨s, hs, -⟩
        rw [stmtAt, hstmts, List.getElem?_length] at hs
        cases hs
      · rw [← hstmts]
        exact .jump hsucc
  | succ k ih =>
    have hlt : idx < bb.statements.length := by omega
    have hs : stmtAt mir ⟨b, idx⟩ = some bb.statements[idx] := by
      rw [stmtAt, hstmts]
      exact List.getElem?_eq_getElem hlt
    rw [List.drop_eq_getElem_cons hlt, liveThrough, List.foldr_cons] at h
    rcases mem_updateLiveness.mp h with huse | ⟨hlive, hdef⟩
    · exact .here (Or.inl ⟨_, hs, huse⟩)
    · refine .step ?_ ⟨.next (by rw [hstmts]; exact hlt), Or.inr (by simp)⟩ (ih (by omega) hlive (by omega))
      rintro ⟨s, hs', hd⟩
      rw [hs] at hs'
      obtain rfl := Option.some.inj hs'
      exact hdef hd

variable (mir) in
/-- Every entry of the tables has a plain read ahead. -/
structure Witnessed (st : LivenessResult) : Prop where
  liveIn : ∀ b slot, slot ∈ st.liveIn b → PlainAhead mir slot ⟨b, 0⟩
  liveOut : ∀ b slot, slot ∈ st.liveOut b → (ControlFlowGraph.build mir).Reaches 0 b ∧
    ∃ succ ∈ (ControlFlowGraph.build mir).successors b, PlainAhead mir slot ⟨succ, 0⟩

theorem Witnessed.step {st st' : LivenessResult} (h : Witnessed mir st) {b : BasicBlockId}
    (hreach : (ControlFlowGraph.build mir).Reaches 0 b)
    (hstep : livenessStep mir (ControlFlowGraph.build mir) st b = some st') : Witnessed mir st' := by
  obtain ⟨bb, hb, -, hin', hout'⟩ := livenessStep_cases hstep
  -- what is live out is live in at a successor, which some path reads first
  have hout : ∀ slot, slot ∈ newLiveOut (ControlFlowGraph.build mir) st b →
      (ControlFlowGraph.build mir).Reaches 0 b ∧
        ∃ succ ∈ (ControlFlowGraph.build mir).successors b, PlainAhead mir slot ⟨succ, 0⟩ := by
    intro slot hslot
    obtain ⟨succ, hsucc, hin⟩ := mem_newLiveOut.mp hslot
    exact ⟨hreach, succ, hsucc, h.liveIn succ slot hin⟩
  refine ⟨fun b' slot hslot => ?_, fun b' slot hslot => ?_⟩
  -- by the block of the step and the others
  · rw [hin'] at hslot
    by_cases hb' : b' = b
    · subst hb'
      rw [Function.update_self] at hslot
      exact plainAhead_of_mem_liveThrough hb (hout slot) (Nat.zero_le _) hslot
    · rw [Function.update_of_ne hb'] at hslot
      exact h.liveIn b' slot hslot
  · rw [hout'] at hslot
    by_cases hb' : b' = b
    · subst hb'
      rw [Function.update_self] at hslot
      exact hout slot hslot
    · rw [Function.update_of_ne hb'] at hslot
      exact h.liveOut b' slot hslot

variable {fuel : Nat} {live : LivenessResult}

theorem computeLiveness_witnessed (h : computeLiveness fuel mir (ControlFlowGraph.build mir) = some live) :
    Witnessed mir live := by
  obtain ⟨rpo, hrpo, hloop⟩ := Option.bind_eq_some_iff.mp h
  have hstep : ∀ (s : LivenessResult) (b : BasicBlockId) (s' : LivenessResult), Witnessed mir s →
      b ∈ rpo.reverse →
      livenessStep mir (ControlFlowGraph.build mir) s b = some s' → Witnessed mir s' := by
    intro s b s' hs hb hs'
    exact hs.step (ControlFlowGraph.reaches_of_mem_reversePostorder hrpo (List.mem_reverse.mp hb)) hs'
  have hstart : Witnessed mir { liveIn := fun _ => ∅, liveOut := fun _ => ∅ } :=
    ⟨fun _ _ h => absurd h (Finset.notMem_empty _), fun _ _ h => absurd h (Finset.notMem_empty _)⟩
  exact (Fixpoint.loop_stable hstep hstart hloop).1

/-- **What the dataflow computes**: the slots of which a plain read lies ahead of every assignment
on some path. -/
theorem mem_liveBefore_iff (h : computeLiveness fuel mir (ControlFlowGraph.build mir) = some live)
    {c : Cursor} {bb : BasicBlock} (hb : mir.block? c.block = some bb)
    (hidx : c.idx ≤ bb.statements.length) :
    slot ∈ liveBefore mir live c ↔ PlainAhead mir slot c := by
  constructor
  · intro hlive
    rw [liveBefore, hb] at hlive
    exact plainAhead_of_mem_liveThrough hb ((computeLiveness_witnessed h).liveOut c.block slot) hidx hlive
  · intro hahead
    clear hidx hb
    induction hahead with
    | here huse => exact liveBefore_of_use huse
    | step hfree hstep _ ih =>
      obtain ⟨hstep, hseen⟩ := hstep
      cases hstep with
      | next hi => exact liveBefore_of_next hi hfree ih
      | jump hsucc =>
        rcases hseen with hreach | hidx
        · exact liveBefore_of_jump h hreach hsucc ih
        · exact absurd rfl hidx

/-- The terminator of a block uses the slot. -/
def TerminatorUses (mir : MirFunction) (slot : SlotId) (b : BasicBlockId) : Prop :=
  ∃ bb ∈ mir.block? b, bb.terminator.kind.usesSlot slot

/-- What the walk back from the exit of a block reports: its terminator's uses are added at the end
of the walk. -/
theorem isLiveAfter_iff (h : computeLiveness fuel mir (ControlFlowGraph.build mir) = some live)
    {b : BasicBlockId} {i : Nat} (hi : i < (mir.statements b).length) :
    live.isLiveAfter b i slot mir = true ↔ TerminatorUses mir slot b ∨ PlainAhead mir slot ⟨b, i + 1⟩ := by
  cases hb : mir.block? b with
  | none => simp [MirFunction.statements, hb] at hi
  | some bb =>
    rw [MirFunction.statements_of_block? hb] at hi
    have hcursor : mir.block? (⟨b, i + 1⟩ : Cursor).block = some bb := hb
    rw [← mem_liveBefore_iff h hcursor hi]
    have hterm : TerminatorUses mir slot b ↔ bb.terminator.kind.usesSlot slot := by
      simp [TerminatorUses, hb]
    have hafter : live.isLiveAfter b i slot mir = true ↔
        slot ∈ addTerminatorUses (liveThrough (live.liveOut b) (bb.statements.drop (i + 1)))
          bb.terminator.kind := by
      simp [LivenessResult.isLiveAfter, hb]
    rw [hafter, hterm, mem_addTerminatorUses, liveBefore, hb]
    constructor
    · rintro (huse | hlive)
      · exact Or.inl huse
      · refine Or.inr (mem_liveThrough_mono (fun x hx => ?_) hlive)
        exact mem_addTerminatorUses.mpr (Or.inr hx)
    · rintro (huse | hlive)
      · exact Or.inl huse
      · exact mem_addTerminatorUses.mp (mem_liveThrough_terminator hlive)

end

/-! ## The dataflow ends

The tables grow towards the slots that occur in the function. -/

def StatementKind.usedSlots (kind : StatementKind) : Finset SlotId := updateLivenessForStatement ∅ kind

/-- The slots that some statement or terminator uses. -/
def MirFunction.usedSlots (mir : MirFunction) : Finset SlotId :=
  mir.blocks.toFinset.biUnion fun bb =>
    addTerminatorUses ∅ bb.terminator.kind ∪ bb.statements.toFinset.biUnion fun s => s.kind.usedSlots

theorem newLiveIn_subset {mir : MirFunction} {b : BasicBlockId} {bb : BasicBlock}
    (hb : mir.block? b = some bb) {out : Finset SlotId} (hout : out ⊆ mir.usedSlots) :
    newLiveIn bb out ⊆ mir.usedSlots := by
  have hmem : bb ∈ mir.blocks.toFinset := List.mem_toFinset.mpr (MirFunction.block?_mem hb)
  have hwalk : ∀ stmts : List MirStatement, (∀ s ∈ stmts, s ∈ bb.statements) →
      liveThrough (addTerminatorUses out bb.terminator.kind) stmts ⊆ mir.usedSlots := by
    intro stmts
    induction stmts with
    | nil =>
      intro _ slot hslot
      rcases mem_addTerminatorUses.mp hslot with huse | hslot
      · refine Finset.mem_biUnion.mpr ⟨bb, hmem, Finset.mem_union_left _ ?_⟩
        exact mem_addTerminatorUses.mpr (Or.inl huse)
      · exact hout hslot
    | cons s stmts ih =>
      intro hsub slot hslot
      rcases mem_updateLiveness.mp hslot with huse | ⟨hslot, -⟩
      · refine Finset.mem_biUnion.mpr
          ⟨bb, hmem, Finset.mem_union_right _ (Finset.mem_biUnion.mpr ⟨s, ?_, ?_⟩)⟩
        · exact List.mem_toFinset.mpr (hsub s List.mem_cons_self)
        · exact mem_updateLiveness.mpr (Or.inl huse)
      · exact ih (fun x hx => hsub x (List.mem_cons_of_mem _ hx)) hslot
  exact hwalk bb.statements fun s hs => hs

theorem newLiveIn_mono {bb : BasicBlock} {out out' : Finset SlotId} (h : out ⊆ out') :
    newLiveIn bb out ⊆ newLiveIn bb out' := by
  intro slot hslot
  refine mem_liveThrough_mono (fun x hx => ?_) hslot
  rcases mem_addTerminatorUses.mp hx with huse | hx
  · exact mem_addTerminatorUses.mpr (Or.inl huse)
  · exact mem_addTerminatorUses.mpr (Or.inr (h hx))

theorem newLiveOut_mono {cfg : ControlFlowGraph} {st st' : LivenessResult}
    (h : ∀ b, st.liveIn b ⊆ st'.liveIn b) (b : BasicBlockId) :
    newLiveOut cfg st b ⊆ newLiveOut cfg st' b := by
  intro slot hslot
  obtain ⟨succ, hsucc, hin⟩ := mem_newLiveOut.mp hslot
  exact mem_newLiveOut.mpr ⟨succ, hsucc, h succ hin⟩

/-- The tables of a run: within the slots of the function, and not above what the next turn computes. -/
structure Growing (mir : MirFunction) (cfg : ControlFlowGraph) (st : LivenessResult) : Prop where
  bounded : ∀ b, st.liveIn b ⊆ mir.usedSlots ∧ st.liveOut b ⊆ mir.usedSlots
  below : ∀ b bb, mir.block? b = some bb →
    st.liveIn b ⊆ newLiveIn bb (newLiveOut cfg st b) ∧ st.liveOut b ⊆ newLiveOut cfg st b

def LivenessResult.size (mir : MirFunction) (st : LivenessResult) : Nat :=
  ∑ b ∈ Finset.range mir.blocks.length, ((st.liveIn b).card + (st.liveOut b).card)

theorem Growing.step {mir : MirFunction} {cfg : ControlFlowGraph} {st st' : LivenessResult}
    {b : BasicBlockId} (h : Growing mir cfg st) (hstep : livenessStep mir cfg st b = some st') :
    Growing mir cfg st' ∧ st.size mir < st'.size mir := by
  obtain ⟨bb, hb, hchanged, hin, hout⟩ := livenessStep_cases hstep
  obtain ⟨hbelowIn, hbelowOut⟩ := h.below b bb hb
  have hgrows : ∀ b', st.liveIn b' ⊆ st'.liveIn b' ∧ st.liveOut b' ⊆ st'.liveOut b' := by
    intro b'
    rw [hin, hout]
    by_cases hb' : b' = b
    · subst hb'
      rw [Function.update_self, Function.update_self]
      exact ⟨hbelowIn, hbelowOut⟩
    · rw [Function.update_of_ne hb', Function.update_of_ne hb']
      exact ⟨Finset.Subset.refl _, Finset.Subset.refl _⟩
  have hnewOut : newLiveOut cfg st b ⊆ mir.usedSlots := by
    intro slot hslot
    obtain ⟨succ, -, hin⟩ := mem_newLiveOut.mp hslot
    exact (h.bounded succ).1 hin
  have hmono : ∀ b', newLiveOut cfg st b' ⊆ newLiveOut cfg st' b' := newLiveOut_mono fun b' => (hgrows b').1
  refine ⟨⟨fun b' => ?_, fun b' bb' hbb' => ?_⟩, ?_⟩
  · rw [hin, hout]
    by_cases hb' : b' = b
    · subst hb'
      rw [Function.update_self, Function.update_self]
      exact ⟨newLiveIn_subset hb hnewOut, hnewOut⟩
    · rw [Function.update_of_ne hb', Function.update_of_ne hb']
      exact h.bounded b'
  · by_cases hb' : b' = b
    · subst hb'
      obtain rfl : bb = bb' := Option.some.inj (hb.symm.trans hbb')
      rw [hin, hout, Function.update_self, Function.update_self]
      exact ⟨newLiveIn_mono (hmono b'), hmono b'⟩
    · obtain ⟨hin', hout'⟩ := h.below b' bb' hbb'
      rw [hin, hout, Function.update_of_ne hb', Function.update_of_ne hb']
      exact ⟨hin'.trans (newLiveIn_mono (hmono b')), hout'.trans (hmono b')⟩
  · -- one of the two sets of `b` is strictly larger now
    refine Finset.sum_lt_sum (fun b' _ => ?_) ⟨b, Finset.mem_range.mpr (MirFunction.block?_lt hb), ?_⟩
    · exact Nat.add_le_add (Finset.card_le_card (hgrows b').1) (Finset.card_le_card (hgrows b').2)
    · rw [hin, hout, Function.update_self, Function.update_self]
      have hleIn := Finset.card_le_card hbelowIn
      have hleOut := Finset.card_le_card hbelowOut
      by_contra hnot
      apply hchanged
      refine ⟨(Finset.eq_of_subset_of_card_le hbelowIn ?_).symm,
        (Finset.eq_of_subset_of_card_le hbelowOut ?_).symm⟩
      · omega
      · omega

/-- **The dataflow ends**: enough fuel gives a result. -/
theorem computeLiveness_isSome (mir : MirFunction) :
    ∃ fuel live, computeLiveness fuel mir (ControlFlowGraph.build mir) = some live := by
  let bound := mir.blocks.length * (2 * mir.usedSlots.card)
  let fuel := bound + mir.blocks.length + 2
  obtain ⟨rpo, hrpo⟩ := @ControlFlowGraph.reversePostorder_isSome mir fuel (by omega)
  have hstart : Growing mir (ControlFlowGraph.build mir) { liveIn := fun _ => ∅, liveOut := fun _ => ∅ } :=
    ⟨fun _ => ⟨Finset.empty_subset _, Finset.empty_subset _⟩,
      fun _ _ _ => ⟨Finset.empty_subset _, Finset.empty_subset _⟩⟩
  have hbound : ∀ st, Growing mir (ControlFlowGraph.build mir) st → st.size mir ≤ bound := by
    intro st hst
    have hle : st.size mir ≤ ∑ _b ∈ Finset.range mir.blocks.length, 2 * mir.usedSlots.card := by
      refine Finset.sum_le_sum fun b _ => ?_
      have hin := Finset.card_le_card (hst.bounded b).1
      have hout := Finset.card_le_card (hst.bounded b).2
      omega
    simpa using hle
  obtain ⟨live, hlive⟩ := @Fixpoint.loop_isSome _ _ (livenessStep mir (ControlFlowGraph.build mir))
      rpo.reverse
    (Growing mir (ControlFlowGraph.build mir)) (LivenessResult.size mir) bound
    (fun s b s' hs _ hs' => hs.step hs') hbound fuel _ hstart (by omega)
  exact ⟨fuel, live, by rw [computeLiveness, hrpo]; exact hlive⟩

/-! ## Where the analysis is exact

Two shapes mislead it into seeing a read that a reassignment cuts off: the terminator of the block
uses the slot behind an assignment of it in the block, and a plain read lies behind a call that
writes the slot. -/

section

variable (mir : MirFunction) (slot : SlotId)

/-- The statement or terminator under a cursor reads or reassigns the slot. -/
def TouchesAt (c : Cursor) : Prop := ReadsAt mir slot c ∨ DefinesAt mir slot c

/-- On some path from the cursor the slot is first touched by a `hit`. -/
abbrev FirstTouched (hit : Cursor → Prop) : Cursor → Prop :=
  Leads (Step mir) hit (TouchesAt mir slot)

/-- What the analysis goes by behind statement `i` of a block: the terminator of the block uses the
slot, or a plain read of it lies ahead with no assignment before it. -/
def SeenRead (b : BasicBlockId) (i : Nat) : Prop :=
  TerminatorUses mir slot b ∨ PlainAhead mir slot ⟨b, i + 1⟩

/-- The call that ends the block under a cursor writes its result to the slot. -/
def CallWritesAt (c : Cursor) : Prop :=
  AtTerminator mir c ∧ ∃ bb ∈ mir.block? c.block, ∃ func args next,
    bb.terminator.kind = .call func args (.localSlot slot) next

/-- The first shape: behind statement `i` the block assigns the slot, and its terminator uses it. -/
def UsedBehindAssign (b : BasicBlockId) (i : Nat) : Prop :=
  TerminatorUses mir slot b ∧ ∃ j, i < j ∧ AssignedAt mir slot ⟨b, j⟩

/-- The second shape: a call ahead writes the slot, and behind the call lies a plain read of it. -/
abbrev UsedBehindCall : Cursor → Prop :=
  Leads (SeenStep mir) (fun c => CallWritesAt mir slot c ∧ ∃ d, SeenStep mir c d ∧ PlainAhead mir slot d)
    (AssignedAt mir slot)

/-- The block reads the slot behind statement `i`, with no assignment of it in between. -/
def ReadFirst (b : BasicBlockId) (i : Nat) : Prop :=
  ∃ j, i < j ∧ ReadsAt mir slot ⟨b, j⟩ ∧ ∀ k, i < k → k < j → ¬ AssignedAt mir slot ⟨b, k⟩

/-- The two readings of liveness behind statement `i` of a block cannot be told apart. -/
structure ReadsSeen (b : BasicBlockId) (i : Nat) : Prop where
  /-- A first read in an index operand is matched by a read the analysis goes by. -/
  indexed : FirstTouched mir slot (IndexReadAt mir slot) ⟨b, i + 1⟩ → SeenRead mir slot b i
  /-- In an unreachable block, so is a first plain read. -/
  unreached : ¬ (ControlFlowGraph.build mir).Reaches 0 b →
    FirstTouched mir slot (UsesSlotAt mir slot) ⟨b, i + 1⟩ → SeenRead mir slot b i
  /-- Where the terminator's use lies behind an assignment, the block reads the slot before it. -/
  behindAssign : UsedBehindAssign mir slot b i → ReadFirst mir slot b i
  /-- Where a plain read lies behind a call's result, some path reads the slot first. -/
  behindCall : UsedBehindCall mir slot ⟨b, i + 1⟩ →
    FirstTouched mir slot (ReadsAt mir slot) ⟨b, i + 1⟩

end

section

variable {mir : MirFunction} {slot : SlotId} {c : Cursor} {b : BasicBlockId} {i : Nat}

theorem liveAt_iff_firstTouched : LiveAt mir slot c ↔ FirstTouched mir slot (ReadsAt mir slot) c := by
  rw [liveAt_iff]
  constructor
  · intro h
    exact (h.first fun _ ht => ht).mono (fun _ _ h => h) (fun _ h => h) fun _ ht => Or.inr ht
  · intro h
    exact h.mono (fun _ _ h => h) (fun _ h => h) fun _ hd => Or.inr hd

theorem firstTouched_cases (h : FirstTouched mir slot (ReadsAt mir slot) c) :
    FirstTouched mir slot (UsesSlotAt mir slot) c ∨
      FirstTouched mir slot (IndexReadAt mir slot) c := by
  induction h with
  | here hread =>
    rcases hread with huse | hindex
    · exact Or.inl (.here huse)
    · exact Or.inr (.here hindex)
  | step hfree hstep _ ih =>
    rcases ih with huse | hindex
    · exact Or.inl (.step hfree hstep huse)
    · exact Or.inr (.step hfree hstep hindex)

/-- From a reachable block a first plain read is one the analysis goes by. -/
theorem plainAhead_of_firstTouched (hreach : (ControlFlowGraph.build mir).Reaches 0 c.block)
    (h : FirstTouched mir slot (UsesSlotAt mir slot) c) : PlainAhead mir slot c := by
  induction h with
  | here huse => exact .here huse
  | step hfree hstep _ ih =>
    refine .step (fun hassigned => hfree (Or.inr (Or.inl hassigned))) ⟨hstep, Or.inl hreach⟩ ?_
    exact ih (reaches_block_of_step hreach hstep)

theorem idx_lt_of_assignedAt (h : AssignedAt mir slot c) :
    c.idx < (mir.statements c.block).length := by
  obtain ⟨s, hs, -⟩ := h
  exact (List.getElem?_eq_some_iff.mp hs).1

theorem idx_le_of_readsAt (h : ReadsAt mir slot c) :
    c.idx ≤ (mir.statements c.block).length := by
  rcases h with (⟨s, hs, -⟩ | ⟨hterm, -⟩) | (⟨s, hs, -⟩ | ⟨hterm, -⟩)
  · exact (List.getElem?_eq_some_iff.mp hs).1.le
  · exact hterm.2.le
  · exact (List.getElem?_eq_some_iff.mp hs).1.le
  · exact hterm.2.le

/-! ### The shape of a use behind an assignment -/

theorem liveAt_of_readFirst (h : ReadFirst mir slot b i) : LiveAt mir slot ⟨b, i + 1⟩ := by
  obtain ⟨j, hij, hread, hfree⟩ := h
  have hj : j ≤ (mir.statements b).length := idx_le_of_readsAt hread
  rw [liveAt_iff]
  -- back from the read, one statement at a time
  induction hk : j - (i + 1) generalizing i with
  | zero =>
    obtain rfl : j = i + 1 := by omega
    exact .here hread
  | succ k ih =>
    have hlt : i + 1 < (mir.statements b).length := by omega
    refine .step ?_ (.next hlt) (ih (by omega) (fun k hk => hfree k (by omega)) (by omega))
    rintro (hassigned | ⟨⟨-, hend⟩, -⟩)
    · exact hfree (i + 1) (by omega) (by omega) hassigned
    · have hend : i + 1 = (mir.statements b).length := hend
      omega

/-- No path leaves the block before the assignment, so a first read stands in the block. -/
theorem readFirst_of_firstTouched {j : Nat} (hij : i < j) (hassigned : AssignedAt mir slot ⟨b, j⟩)
    (h : FirstTouched mir slot (ReadsAt mir slot) ⟨b, i + 1⟩) : ReadFirst mir slot b i := by
  have hj : j < (mir.statements b).length := idx_lt_of_assignedAt hassigned
  induction hk : j - i generalizing i with
  | zero => omega
  | succ k ih =>
    by_cases hread : ReadsAt mir slot ⟨b, i + 1⟩
    · exact ⟨i + 1, by omega, hread, fun k hk hk' => by omega⟩
    cases h with
    | here h => exact absurd h hread
    | step hfree hstep hahead =>
      have hne : i + 1 ≠ j := by
        rintro rfl
        exact hfree (Or.inr (Or.inl hassigned))
      rcases step_iff.mp hstep with ⟨-, rfl⟩ | ⟨hend, -⟩
      · obtain ⟨j', hij', hread', hfree'⟩ := ih (i := i + 1) (by omega) hahead (by omega)
        refine ⟨j', by omega, hread', fun k hk hk' => ?_⟩
        rcases (show i + 1 ≤ k from hk).eq_or_lt with rfl | hlt
        · exact fun hassigned' => hfree (Or.inr (Or.inl hassigned'))
        · exact hfree' k hlt hk'
      · have hend : i + 1 = (mir.statements b).length := hend
        omega

/-- A use in the terminator is a read of the block, unless an assignment stands before it. -/
theorem readFirst_of_terminatorUses (hi : i < (mir.statements b).length)
    (huse : TerminatorUses mir slot b) (hnone : ¬ UsedBehindAssign mir slot b i) :
    ReadFirst mir slot b i := by
  have ⟨bb, hb, hkind⟩ := huse
  have hsome : (mir.block? b).isSome := Option.isSome_of_mem hb
  refine ⟨(mir.statements b).length, hi, Or.inl (Or.inr ⟨⟨hsome, rfl⟩, bb, hb, hkind⟩), ?_⟩
  exact fun k hk _ hassigned => hnone ⟨huse, k, hk, hassigned⟩

/-! ### The shape of a read behind a call -/

theorem plainAhead_of_usedBehindCall (h : UsedBehindCall mir slot c) : PlainAhead mir slot c := by
  induction h with
  | here hcall =>
    obtain ⟨⟨⟨-, hend⟩, -⟩, d, hstep, hplain⟩ := hcall
    refine .step (fun hassigned => ?_) hstep hplain
    have hlt := idx_lt_of_assignedAt hassigned
    omega
  | step hfree hstep _ ih => exact .step hfree hstep ih

/-- On the way to a plain read the slot is read first, or a call writes it. -/
theorem firstTouched_or_usedBehindCall (h : PlainAhead mir slot c) :
    FirstTouched mir slot (ReadsAt mir slot) c ∨ UsedBehindCall mir slot c := by
  induction h with
  | here huse => exact Or.inl (.here (Or.inl huse))
  | @step c d hfree hstep hplain ih =>
    by_cases hcall : CallWritesAt mir slot c
    · exact Or.inr (.here ⟨hcall, d, hstep, hplain⟩)
    rcases ih with hread | hbehind
    · by_cases hhere : ReadsAt mir slot c
      · exact Or.inl (.here hhere)
      · refine Or.inl (.step ?_ hstep.1 hread)
        rintro (hread | hassigned | hcall')
        · exact hhere hread
        · exact hfree hassigned
        · exact hcall hcall'
    · exact Or.inr (.step hfree hstep hbehind)

/-- What the analysis sees is a first read, the two shapes apart. -/
theorem firstTouched_of_seenRead (hi : i < (mir.statements b).length)
    (hassign : UsedBehindAssign mir slot b i → ReadFirst mir slot b i)
    (hcall : UsedBehindCall mir slot ⟨b, i + 1⟩ →
      FirstTouched mir slot (ReadsAt mir slot) ⟨b, i + 1⟩)
    (h : SeenRead mir slot b i) : FirstTouched mir slot (ReadsAt mir slot) ⟨b, i + 1⟩ := by
  rcases h with huse | hplain
  · rw [← liveAt_iff_firstTouched]
    by_cases hshape : UsedBehindAssign mir slot b i
    · exact liveAt_of_readFirst (hassign hshape)
    · exact liveAt_of_readFirst (readFirst_of_terminatorUses hi huse hshape)
  · rcases firstTouched_or_usedBehindCall hplain with hread | hshape
    · exact hread
    · exact hcall hshape

end

/-- One block: `nop; y = x; return`, with `x` and `y` in the slots 1 and 2. -/
def readFunction (read : Operand) : List BasicBlock :=
  [⟨0, [⟨.nop, ⟨0, 1⟩, 0⟩, ⟨.assign (.localSlot 2) (.use read), ⟨1, 2⟩, 1⟩], ⟨.ret, ⟨2, 3⟩⟩⟩]

def plainReadMir : MirFunction :=
  bareFunction (readFunction (.copy (.localSlot 1))) 3 (by decide) (by decide) (by decide) (by decide)

/-- The same block with `y = a[x]`. -/
def indexReadMir : MirFunction :=
  bareFunction (readFunction (.copy (.index (.localSlot 3) (.copy (.localSlot 1))))) 4 (by decide)
    (by decide) (by decide)
    (by decide)

theorem plain_read_seen : ReadsSeen plainReadMir 1 0 0 := by
  have hread : UsesSlotAt plainReadMir 1 ⟨0, 1⟩ :=
    Or.inl ⟨_, rfl, _, List.mem_singleton_self _, .localSlot 1, rfl, rfl⟩
  have hahead : SeenRead plainReadMir 1 0 0 := Or.inr (.here hread)
  exact ⟨fun _ => hahead, fun _ _ => hahead, fun _ => ⟨1, by omega, Or.inl hread, fun k hk hk' => by omega⟩,
    fun _ => .here (Or.inl hread)⟩

end ShapeLang.Mir
