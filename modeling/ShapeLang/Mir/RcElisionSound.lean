import ShapeLang.Mir.RcElisionCensus

/-!
# ShapeLang — what a planned move needs

The plan lets the single recorded read of a slot take the slot's share. That is right on a run if,
between a definition of the slot and the next one or the end of the run, the slot is read exactly
once, at the planned read. The tests of `compute_plan` give two thirds of it:

  * `Planned.read_not_repeated` — by liveness, the read is not reached again before a definition;
  * `Planned.read_before_return` — by post-dominance, a run from the definition to a return passes
    the read.

They do not look at index operands nested in places, at ways from the definition back to itself, or
at a call that reads the slot it defines. `ElisionSafe` is the condition that none of these occurs,
and `elided_read_exactly_once_iff` says that it is exactly what is missing.
-/

namespace ShapeLang.Mir

/-! ## Runs to a return -/

def ReturnsAt (mir : MirFunction) (c : Cursor) : Prop :=
  AtTerminator mir c ∧ ∃ bb ∈ mir.block? c.block, bb.terminator.kind = .ret

/-- A run of the function: from its entry to a return. -/
structure EntryToReturn (mir : MirFunction) (π : List Cursor) : Prop where
  path : IsPath mir π
  entry : π.head? = some (entryCursor mir)
  returns : ∃ r ∈ π.getLast?, ReturnsAt mir r

open Classical in
/-- After every definition of the slot on `π`, up to and including the cursor of the next one or up
to the end: the slot is read exactly once, at `read`. A cursor reads before it defines. -/
def ReadOncePerDef (mir : MirFunction) (slot : SlotId) (read : Cursor) (π : List Cursor) : Prop :=
  ∀ π₁ d rest, π = π₁ ++ d :: rest → DefinesAt mir slot d →
    ((Chain.upTo (DefinesAt mir slot) rest).map (readCount mir slot)).sum = 1 ∧
      read ∈ Chain.upTo (DefinesAt mir slot) rest

def CanReturn (mir : MirFunction) (c : Cursor) : Prop :=
  ∃ r, Relation.ReflTransGen (Step mir) c r ∧ ReturnsAt mir r

/-- What the plan leaves unchecked, for a definition the entry reaches: the definition is not itself
the read; every way from the definition back to it passes the read; and no index operand nested in a
place reads the slot at a cursor between the definition and a return. -/
def ElisionSafe (mir : MirFunction) (slot : SlotId) (defn read : Cursor) : Prop :=
  Relation.ReflTransGen (Step mir) (entryCursor mir) defn →
    defn ≠ read ∧
    (∀ ρ, IsPath mir (defn :: ρ ++ [defn]) → read ∈ ρ) ∧
    ∀ c, Relation.TransGen (Step mir) defn c → CanReturn mir c → slot ∉ nestedReadsAt mir c

/-! ## Exits -/

section Exits

variable {fuel : Nat} {mir : MirFunction} {cfg : ControlFlowGraph} {exits : List BasicBlockId}

theorem mem_keepReachable {ids kept : List BasicBlockId}
    (h : keepReachable fuel cfg ids = some kept) {id : BasicBlockId} :
    (id ∈ kept → id ∈ ids) ∧ (id ∈ ids → cfg.Reaches 0 id → id ∈ kept) := by
  induction ids generalizing kept with
  | nil =>
    obtain rfl : [] = kept := by simpa [keepReachable] using h
    exact ⟨fun hm => hm, fun hm _ => hm⟩
  | cons a ids ih =>
    obtain ⟨found, hfound, h⟩ := Option.bind_eq_some_iff.mp h
    obtain ⟨rest, hrest, h⟩ := Option.bind_eq_some_iff.mp h
    obtain rfl : (if found then a :: rest else rest) = kept := by simpa using h
    obtain ⟨hsub, hkeep⟩ := ih hrest
    constructor
    · intro hm
      split at hm
      · rcases List.mem_cons.mp hm with rfl | hm
        · exact List.mem_cons_self
        · exact List.mem_cons_of_mem _ (hsub hm)
      · exact List.mem_cons_of_mem _ (hsub hm)
    · intro hm hreach
      rcases List.mem_cons.mp hm with rfl | hm
      -- a block that is reached is found to be reachable
      · cases hf : found with
        | true => simp
        | false =>
          rw [hf] at hfound
          exact absurd hreach (ControlFlowGraph.not_reaches_of_isReachable_false hfound)
      · split
        · exact List.mem_cons_of_mem _ (hkeep hm hreach)
        · exact hkeep hm hreach

/-- The exits are return blocks, and every reachable return block is one. -/
theorem mem_returnBlocks (h : returnBlocks fuel mir cfg = some exits) {id : BasicBlockId} :
    (id ∈ exits → ∃ bb ∈ mir.block? id, bb.terminator.kind = .ret) ∧
    ((∃ bb ∈ mir.block? id, bb.terminator.kind = .ret) → cfg.Reaches 0 id → id ∈ exits) := by
  obtain ⟨hsub, hkeep⟩ := mem_keepReachable h
  constructor
  · intro hm
    obtain ⟨bb, hbb, rfl⟩ := List.mem_map.mp (hsub hm)
    obtain ⟨hmem, hret⟩ := List.mem_filter.mp hbb
    exact ⟨bb, MirFunction.block?_of_mem hmem, of_decide_eq_true hret⟩
  · rintro ⟨bb, hbb, hret⟩ hreach
    refine hkeep (List.mem_map.mpr ⟨bb, List.mem_filter.mpr ⟨?_, decide_eq_true hret⟩, ?_⟩) hreach
    · exact MirFunction.block?_mem hbb
    · exact MirFunction.id_of_block? hbb

/-- The blocks found to reach an exit: the exits, closed backwards along edges, and nothing that
does not reach one. -/
theorem reachesExit_spec {reaches : List BasicBlockId}
    (h : reachesExit fuel (.build mir) mir exits = some reaches) :
    (∀ e ∈ exits, e ∈ reaches) ∧
    (∀ b, ∀ s ∈ (ControlFlowGraph.build mir).successors b, s ∈ reaches → b ∈ reaches) ∧
    ∀ b ∈ reaches, ∃ e ∈ exits, (ControlFlowGraph.build mir).Reaches b e := by
  -- the loop adds a block when a successor of it is in the set
  obtain ⟨⟨hexits, hreach⟩, hstable⟩ := Fixpoint.loop_stable
    (P := fun r : List BasicBlockId => (∀ e ∈ exits, e ∈ r) ∧
      ∀ b ∈ r, ∃ e ∈ exits, (ControlFlowGraph.build mir).Reaches b e)
    (by
      rintro r block r' ⟨hexits, hreach⟩ - hstep
      unfold reachesExitStep at hstep
      split at hstep
      · cases hstep
      split at hstep
      · rename_i hany
        obtain rfl : block.id :: r = r' := by simpa using hstep
        refine ⟨fun e he => List.mem_cons_of_mem _ (hexits e he), fun b hb => ?_⟩
        rcases List.mem_cons.mp hb with rfl | hb
        · obtain ⟨s, hs, hsr⟩ := List.any_eq_true.mp hany
          obtain ⟨e, he, hse⟩ := hreach s (of_decide_eq_true hsr)
          exact ⟨e, he, hse.head hs⟩
        · exact hreach b hb
      · cases hstep)
    ⟨fun e he => he, fun b hb => ⟨b, hb, .refl⟩⟩ h
  refine ⟨hexits, fun b s hs hsr => ?_, hreach⟩
  obtain ⟨bb, hbb, -, -⟩ := ControlFlowGraph.exists_block?_of_mem_successors hs
  have hid := MirFunction.id_of_block? hbb
  -- at the end no block can be added
  have hnone := hstable bb (MirFunction.block?_mem hbb)
  unfold reachesExitStep at hnone
  split at hnone
  · rename_i hin
    exact hid ▸ hin
  · split at hnone
    · cases hnone
    · rename_i hany
      rw [hid] at hany
      exact absurd (List.any_eq_true.mpr ⟨s, hs, decide_eq_true hsr⟩) hany

end Exits

/-! ## Post-dominators of a finished run -/

section Equations

variable {cfg : ControlFlowGraph} {reaches : List BasicBlockId}
  {pdom : BasicBlockId → Option (Finset BasicBlockId)}
  {b : BasicBlockId}

/-- The blocks of a set; a block without an entry has none. -/
abbrev setOf (pdom : BasicBlockId → Option (Finset BasicBlockId)) (b : BasicBlockId) :
    Finset BasicBlockId :=
  (pdom b).getD ∅

/-- One successor in the equation. -/
def meetSets (pdom : BasicBlockId → Option (Finset BasicBlockId))
    (acc : Option (Finset BasicBlockId)) (s : BasicBlockId) :
    Option (Finset BasicBlockId) :=
  match acc with
  | none => pdom s
  | some cur => some (cur ∩ (pdom s).getD ∅)

theorem nextPdom_eq (b : BasicBlockId) : nextPdom cfg reaches pdom b =
    insert b ((((cfg.successors b).filter (· ∈ reaches)).foldl (meetSets pdom) none).getD ∅) := rfl

theorem mem_foldl_meetSets {l : List BasicBlockId} {cur : Finset BasicBlockId} {c : BasicBlockId} :
    c ∈ (l.foldl (meetSets pdom) (some cur)).getD ∅ ↔ c ∈ cur ∧ ∀ s ∈ l, c ∈ setOf pdom s := by
  induction l generalizing cur with
  | nil => simp
  | cons s l ih =>
    rw [List.foldl_cons, meetSets, ih, Finset.mem_inter, List.forall_mem_cons, and_assoc]

/-- Membership in the equation of a block. -/
theorem mem_nextPdom_iff (hsome : ∀ s ∈ reaches, ∃ S, pdom s = some S) {c : BasicBlockId} :
    c ∈ nextPdom cfg reaches pdom b ↔ c = b ∨ (∃ s ∈ cfg.successors b, s ∈ reaches) ∧
      ∀ s ∈ cfg.successors b, s ∈ reaches → c ∈ setOf pdom s := by
  have hlist : ∀ s, s ∈ (cfg.successors b).filter (· ∈ reaches) ↔ s ∈ cfg.successors b ∧ s ∈ reaches := by
    intro s
    rw [List.mem_filter, decide_eq_true_iff]
  rw [nextPdom_eq, Finset.mem_insert]
  refine or_congr_right ?_
  have hall : (∀ s ∈ cfg.successors b, s ∈ reaches → c ∈ setOf pdom s) ↔
      ∀ s ∈ (cfg.successors b).filter (· ∈ reaches), c ∈ setOf pdom s :=
    ⟨fun h s hs => h s ((hlist s).mp hs).1 ((hlist s).mp hs).2, fun h s hs hr => h s
      ((hlist s).mpr ⟨hs, hr⟩)⟩
  have hex : (∃ s ∈ cfg.successors b, s ∈ reaches) ↔ ∃ s, s ∈ (cfg.successors b).filter (· ∈ reaches) :=
    exists_congr fun s => (hlist s).symm
  rw [hall, hex]
  cases hl : (cfg.successors b).filter (· ∈ reaches) with
  | nil => simp
  | cons s l =>
    obtain ⟨S, hS⟩ := hsome s ((hlist s).mp (by rw [hl]; exact List.mem_cons_self)).2
    rw [List.foldl_cons, meetSets, hS, mem_foldl_meetSets, List.forall_mem_cons, setOf, hS,
      Option.getD_some]
    exact ⟨fun h => ⟨⟨s, List.mem_cons_self⟩, h⟩, fun h => h.2⟩

end Equations

/-- The equations of a finished run, with the set of blocks that reach an exit. -/
theorem postDominators_stable {fuel : Nat} {cfg : ControlFlowGraph} {mir : MirFunction}
    {exits : List BasicBlockId} {pdom : BasicBlockId → Option (Finset BasicBlockId)}
    (h : postDominators fuel cfg mir exits = some pdom) :
    ∃ reaches, reachesExit fuel cfg mir exits = some reaches ∧
      (∀ e ∈ exits, e ∈ reaches → pdom e = some {e}) ∧
      (∀ b, b ∈ reaches ↔ (pdom b).isSome) ∧
      ∀ b, cfg.Reaches 0 b → b ∈ reaches → b ∉ exits → pdom b = some (nextPdom cfg reaches pdom b) := by
  obtain ⟨reaches, hreaches, h⟩ := Option.bind_eq_some_iff.mp h
  obtain ⟨rpo, hrpo, h⟩ := Option.bind_eq_some_iff.mp h
  -- a turn changes the set of a block that reaches an exit and is none
  obtain ⟨⟨hexits, hdom⟩, hstable⟩ := Fixpoint.loop_stable
    (P := fun pdom : BasicBlockId → Option (Finset BasicBlockId) =>
      (∀ e ∈ exits, e ∈ reaches → pdom e = some {e}) ∧ ∀ b, b ∈ reaches ↔ (pdom b).isSome)
    (by
      rintro p b p' ⟨hexits, hdom⟩ hb hstep
      obtain ⟨-, hb⟩ := List.mem_filter.mp (List.mem_reverse.mp hb)
      obtain ⟨hbr, hbe⟩ := of_decide_eq_true hb
      unfold pdomStep at hstep
      split at hstep
      · cases hstep
      obtain rfl := Option.some.inj hstep
      constructor
      · intro e he her
        have heb : e ≠ b := fun heb => hbe (heb ▸ he)
        rw [Function.update_of_ne heb]
        exact hexits e he her
      · intro c
        by_cases hcb : c = b
        · subst hcb
          simp [hbr]
        · rw [Function.update_of_ne hcb]
          exact hdom c)
    (by
      constructor
      · intro e he her
        simp [initialPdom, he, her]
      · intro b
        unfold initialPdom
        by_cases hb : b ∈ reaches
        · by_cases he : b ∈ exits <;> simp [hb, he]
        · simp [hb]) h
  refine ⟨reaches, hreaches, hexits, hdom, fun b hreach hbr hbe => ?_⟩
  have horder : b ∈ (rpo.filter fun b => b ∈ reaches ∧ b ∉ exits).reverse :=
    List.mem_reverse.mpr (List.mem_filter.mpr
      ⟨ControlFlowGraph.mem_reversePostorder hrpo hreach, decide_eq_true ⟨hbr, hbe⟩⟩)
  -- the last pass has changed nothing, so every such set is the next one
  have hnone := hstable b horder
  unfold pdomStep at hnone
  split at hnone
  · rename_i heq
    exact heq.symm
  · cases hnone

/-! ## Runs through the read -/

/-- A run that returns goes through the rest of the block it stands in. -/
theorem mem_path_of_idx_le {mir : MirFunction} {c : Cursor} {j : Nat} {π : List Cursor}
    (hpath : IsPath mir (c :: π)) (hret : ∃ r ∈ (c :: π).getLast?, ReturnsAt mir r)
    (hij : c.idx ≤ j) (hj : j ≤ (mir.statements c.block).length) :
    (⟨c.block, j⟩ : Cursor) ∈ c :: π := by
  induction π generalizing c with
  | nil =>
    obtain ⟨r, hr, ⟨-, hidx⟩, -⟩ := hret
    obtain rfl : c = r := by simpa using hr
    obtain rfl : j = c.idx := by omega
    exact List.mem_cons_self
  | cons d π ih =>
    rcases Nat.eq_or_lt_of_le hij with rfl | hlt
    · exact List.mem_cons_self
    · obtain ⟨hstep, hrest⟩ := List.isChain_cons_cons.mp hpath
      rw [List.getLast?_cons_cons] at hret
      rcases step_iff.mp hstep with ⟨-, rfl⟩ | ⟨heq, -⟩
      · exact List.mem_cons_of_mem _ (ih hrest hret hlt hj)
      · omega

section PostDominance

variable {fuel : Nat} {mir : MirFunction} {exits : List BasicBlockId}
  {pdom : BasicBlockId → Option (Finset BasicBlockId)} {reaches : List BasicBlockId}

theorem block_mem_reaches (hexits : returnBlocks fuel mir (.build mir) = some exits)
    (hreaches : reachesExit fuel (.build mir) mir exits = some reaches) {c : Cursor}
    {π : List Cursor} (hpath : IsPath mir (c :: π))
    (hentry : (ControlFlowGraph.build mir).Reaches 0 c.block)
    (hret : ∃ r ∈ (c :: π).getLast?, ReturnsAt mir r) : c.block ∈ reaches := by
  induction π generalizing c with
  | nil =>
    obtain ⟨r, hr, -, hblock⟩ := hret
    obtain rfl : c = r := by simpa using hr
    exact (reachesExit_spec hreaches).1 _ ((mem_returnBlocks hexits).2 hblock hentry)
  | cons d π ih =>
    obtain ⟨hstep, hrest⟩ := List.isChain_cons_cons.mp hpath
    rw [List.getLast?_cons_cons] at hret
    have hd := ih hrest (reaches_block_of_step hentry hstep) hret
    cases hstep with
    | next hi => exact hd
    | jump hs => exact (reachesExit_spec hreaches).2.1 _ _ hs hd

/-- **Post-dominance along a run.** A run that returns enters every block of the set of the block
it starts in. -/
theorem mem_path_of_mem_pdom (hexits : returnBlocks fuel mir (.build mir) = some exits)
    (hpdom : postDominators fuel (.build mir) mir exits = some pdom) {c : Cursor} {p : BasicBlockId}
    {S : Finset BasicBlockId} {π : List Cursor} (hpath : IsPath mir (c :: π))
    (hentry : (ControlFlowGraph.build mir).Reaches 0 c.block)
    (hret : ∃ r ∈ (c :: π).getLast?, ReturnsAt mir r)
    (hS : pdom c.block = some S) (hp : p ∈ S) : p = c.block ∨ (⟨p, 0⟩ : Cursor) ∈ π := by
  obtain ⟨reaches, hreaches, hexit, hdom, heqn⟩ := postDominators_stable hpdom
  induction π generalizing c S with
  | nil =>
    obtain ⟨r, hr, -, hblock⟩ := hret
    obtain rfl : c = r := by simpa using hr
    have he := (mem_returnBlocks hexits).2 hblock hentry
    have hsingle := hexit _ he ((reachesExit_spec hreaches).1 _ he)
    obtain rfl : S = {c.block} := Option.some.inj (hS.symm.trans hsingle)
    exact Or.inl (Finset.mem_singleton.mp hp)
  | cons d π ih =>
    obtain ⟨hstep, hrest⟩ := List.isChain_cons_cons.mp hpath
    rw [List.getLast?_cons_cons] at hret
    have hentry' := reaches_block_of_step hentry hstep
    have hd := block_mem_reaches hexits hreaches hrest hentry' hret
    rcases step_iff.mp hstep with ⟨-, rfl⟩ | ⟨-, s, hs, rfl⟩
    · rcases ih hrest hentry' hret hS hp with hblock | hmem
      · exact Or.inl hblock
      · exact Or.inr (List.mem_cons_of_mem _ hmem)
    · -- a block with a successor is no exit, so its set obeys the equation
      have hb : c.block ∉ exits := by
        intro he
        obtain ⟨bb, hbb, hkind⟩ := (mem_returnBlocks hexits).1 he
        rw [ControlFlowGraph.successors_build hbb, hkind] at hs
        simp [terminatorSuccessors] at hs
      have hbr : c.block ∈ reaches := (hdom _).mpr (by simp [hS])
      obtain rfl : S = _ := Option.some.inj (hS.symm.trans (heqn _ hentry hbr hb))
      have hsome : ∀ s ∈ reaches, ∃ S, pdom s = some S :=
        fun s hs => Option.isSome_iff_exists.mp ((hdom s).mp hs)
      rcases (mem_nextPdom_iff hsome).mp hp with hblock | ⟨-, hall⟩
      · exact Or.inl hblock
      · obtain ⟨S', hS'⟩ := hsome _ hd
        have hpS' := hall s hs hd
        rw [setOf, hS', Option.getD_some] at hpS'
        rcases ih hrest hentry' hret hS' hpS' with rfl | hmem
        · exact Or.inr List.mem_cons_self
        · exact Or.inr (List.mem_cons_of_mem _ hmem)

end PostDominance

/-! ## A planned slot on a run -/

theorem blockOf_eq_cursor_block (mir : MirFunction) (site : UseSite) :
    (site.cursor mir).block = blockOf site := by
  cases site <;> rfl

/-- A recorded site is a cursor of the function. -/
theorem cursor_idx_le {mir : MirFunction} {site : UseSite} {ev : CensusEvent}
    (h : site ∈ sitesOf mir ev) :
    (site.cursor mir).idx ≤ (mir.statements (site.cursor mir).block).length := by
  obtain ⟨-, bb, hbb, hlt⟩ := mem_censusAt_of_mem_sitesOf h
  cases site with
  | statement b i =>
    have hb : mir.block? b = some bb := hbb
    simp only [UseSite.cursor]
    rw [MirFunction.statements_of_block? hb]
    exact Nat.le_of_lt (hlt b i rfl)
  | terminator b => exact Nat.le_refl _

variable {c : Cursor}

theorem reaches_terminator {mir : MirFunction} (h : c.idx ≤ (mir.statements c.block).length) :
    Relation.ReflTransGen (Step mir) c ⟨c.block, (mir.statements c.block).length⟩ := by
  obtain ⟨b, i⟩ := c
  simp only at h ⊢
  obtain ⟨k, hk⟩ := Nat.exists_eq_add_of_le h
  induction k generalizing i with
  | zero =>
    obtain rfl : (mir.statements b).length = i := hk
    exact .refl
  | succ k ih => exact (ih (i + 1) (by omega) (by omega)).head (.next (by omega))

/-- Edges of the graph, followed from terminator to terminator. -/
theorem reaches_terminator_of_reaches {mir : MirFunction} {a b : BasicBlockId}
    (h : (ControlFlowGraph.build mir).Reaches a b) :
    Relation.ReflTransGen (Step mir) ⟨a, (mir.statements a).length⟩
      ⟨b, (mir.statements b).length⟩ := by
  induction h with
  | refl => exact .refl
  | @tail b s _ hs ih =>
    exact (ih.tail (.jump hs)).trans (reaches_terminator (c := ⟨s, 0⟩) (Nat.zero_le _))

theorem transGen_of_path {mir : MirFunction} {a : Cursor} {l : List Cursor}
    (h : IsPath mir (a :: l ++ [c])) :
    Relation.TransGen (Step mir) a c := by
  induction l generalizing a with
  | nil => exact .single (List.isChain_cons_cons.mp h).1
  | cons b l ih =>
    obtain ⟨hstep, hrest⟩ := List.isChain_cons_cons.mp h
    exact .head hstep (ih hrest)

theorem canReturn_of_path {mir : MirFunction} {l : List Cursor} (h : IsPath mir (c :: l))
    (hret : ∃ r ∈ (c :: l).getLast?, ReturnsAt mir r) :
    CanReturn mir c := by
  obtain ⟨r, hr, hreturns⟩ := hret
  exact ⟨r, Chain.reflTransGen_of_mem h (List.mem_of_mem_getLast? hr), hreturns⟩

theorem exists_return_path {mir : MirFunction} (h : CanReturn mir c) :
    ∃ l, IsPath mir (c :: l) ∧ ∃ r ∈ (c :: l).getLast?, ReturnsAt mir r := by
  obtain ⟨r, hr, hreturns⟩ := h
  obtain ⟨l, hl, hlast⟩ := List.exists_isChain_cons_of_relationReflTransGen hr
  exact ⟨l, hl, r, by rw [← hlast]; exact List.getLast?_eq_getLast_of_ne_nil _, hreturns⟩

namespace Planned

variable {fuel : Nat} {mir : MirFunction} {live : LivenessResult} {slot : SlotId}
  {defSite read : UseSite}

/-- **At most once.** The read is not reached again before a definition: the slot would be live
after it. -/
theorem read_not_repeated (h : Planned fuel mir (.build mir) live slot defSite read)
    (hlive : computeLiveness fuel mir (ControlFlowGraph.build mir) = some live) {ρ : List Cursor}
    (hentry : (ControlFlowGraph.build mir).Reaches 0 (read.cursor mir).block)
    (hpath : IsPath mir (read.cursor mir :: ρ ++ [read.cursor mir]))
    (hdef : ∀ c ∈ ρ, ¬ DefinesAt mir slot c) : False := by
  -- liveness one step behind the read
  obtain ⟨d, π, hdπ⟩ : ∃ d π, ρ ++ [read.cursor mir] = d :: π := by
    cases ρ with
    | nil => exact ⟨_, _, rfl⟩
    | cons a ρ => exact ⟨_, _, rfl⟩
  rw [List.cons_append, hdπ] at hpath
  obtain ⟨hstep, hrest⟩ := List.isChain_cons_cons.mp hpath
  have hentry' := reaches_block_of_step hentry hstep
  have hbefore : slot ∈ liveBefore mir live d := by
    refine live_of_read_ahead hlive hentry' hrest (u := read.cursor mir) ?_ h.usesSlotAt ?_
    · rw [← hdπ]
      simp
    · rw [← hdπ, List.dropLast_concat]
      exact hdef
  have hdead := h.dead
  obtain ⟨-, bb, hbb, hlt⟩ := mem_censusAt_of_mem_sitesOf (h.reads ▸ List.mem_singleton_self _)
  cases read with
  | statement b i =>
    have hb : mir.block? b = some bb := hbb
    have hi : i < (mir.statements b).length := by
      rw [MirFunction.statements_of_block? hb]
      exact hlt b i rfl
    rcases step_iff.mp hstep with ⟨-, rfl⟩ | ⟨heq, -⟩
    · rw [liveBefore] at hbefore
      simp only [UseSite.cursor, hb] at hbefore
      rw [slotLiveAfter, LivenessResult.isLiveAfter, hb] at hdead
      exact of_decide_eq_false hdead (mem_liveThrough_terminator hbefore)
    · simp only [UseSite.cursor] at heq
      omega
  | terminator b =>
    have hb : mir.block? b = some bb := hbb
    have hreach : (ControlFlowGraph.build mir).Reaches 0 b := hentry
    rcases step_iff.mp hstep with ⟨hlt, -⟩ | ⟨-, s, hs, rfl⟩
    · simp only [UseSite.cursor] at hlt
      omega
    · obtain ⟨-, -, -, sb, hsb⟩ := ControlFlowGraph.exists_block?_of_mem_successors hs
      have hin : slot ∈ live.liveIn s := by
        rw [(computeLiveness_stable hlive hentry' hsb).2]
        rw [liveBefore, hsb] at hbefore
        exact hbefore
      have hout : slot ∈ live.liveOut b := by
        rw [(computeLiveness_stable hlive hreach hb).1]
        exact mem_newLiveOut.mpr ⟨s, hs, hin⟩
      exact of_decide_eq_false hdead hout

/-- **At least once.** A run from the definition to a return passes the read. -/
theorem read_before_return (h : Planned fuel mir (.build mir) live slot defSite read)
    (hne : defSite.cursor mir ≠ read.cursor mir)
    (hentry : (ControlFlowGraph.build mir).Reaches 0 (defSite.cursor mir).block) {π : List Cursor}
    (hpath : IsPath mir (defSite.cursor mir :: π))
    (hret : ∃ r ∈ (defSite.cursor mir :: π).getLast?, ReturnsAt mir r) :
    read.cursor mir ∈ π := by
  obtain ⟨exits, pdom, hexits, hpdom, hpost⟩ := h.postDominated
  have hle := cursor_idx_le (h.reads ▸ List.mem_singleton_self _ : read ∈ sitesOf mir (.transferable slot))
  rw [← blockOf_eq_cursor_block mir, ← blockOf_eq_cursor_block mir] at hpost
  unfold postDominates at hpost
  split at hpost
  · rename_i S hS
    have hcS := of_decide_eq_true hpost
    rcases mem_path_of_mem_pdom hexits hpdom hpath hentry hret hS hcS with hblock | hmem
    · -- the same block: the definition comes first in it
      have hprec : (defSite.cursor mir).idx ≤ (read.cursor mir).idx := by
        have hp := h.precedes
        have hdle := cursor_idx_le
          (h.defs ▸ List.mem_singleton_self _ : defSite ∈ sitesOf mir (.defn slot))
        cases defSite with
        | statement db di =>
          cases read with
          | statement rb ri =>
            obtain rfl : rb = db := hblock
            simp [precedesWithinBlock] at hp
            exact Nat.le_of_lt hp
          | terminator rb =>
            obtain rfl : rb = db := hblock
            exact hdle
        | terminator db =>
          cases read with
          | statement rb ri =>
            obtain rfl : rb = db := hblock
            simp [precedesWithinBlock] at hp
          | terminator rb =>
            obtain rfl : rb = db := hblock
            exact Nat.le_refl _
      have hin := mem_path_of_idx_le hpath hret hprec (hblock ▸ hle)
      have hread : (⟨(defSite.cursor mir).block, (read.cursor mir).idx⟩ : Cursor)
          = read.cursor mir := by rw [← hblock]
      rw [hread] at hin
      exact (List.mem_cons.mp hin).resolve_left (Ne.symm hne)
    · obtain ⟨π₁, π₂, rfl⟩ := List.append_of_mem hmem
      have hsuffix : IsPath mir (⟨(read.cursor mir).block, 0⟩ :: π₂) :=
        (List.isChain_split.mp (show List.IsChain _ ((defSite.cursor mir :: π₁) ++ _) from hpath)).2
      rw [← List.cons_append, List.getLast?_append_of_ne_nil _ (List.cons_ne_nil _ _)] at hret
      exact List.mem_append_right _ (mem_path_of_idx_le hsuffix hret (Nat.zero_le _) hle)
  · cases hpost

/-- The definition can return: its block was found to reach an exit. -/
theorem canReturn (h : Planned fuel mir (.build mir) live slot defSite read) :
    CanReturn mir (defSite.cursor mir) := by
  obtain ⟨exits, pdom, hexits, hpdom, hpost⟩ := h.postDominated
  obtain ⟨reaches, hreaches, -, hdom, -⟩ := postDominators_stable hpdom
  have hin : blockOf defSite ∈ reaches := by
    refine (hdom _).mpr ?_
    unfold postDominates at hpost
    split at hpost
    · rename_i S hS
      rw [hS]
      rfl
    · cases hpost
  obtain ⟨e, he, hreach⟩ := (reachesExit_spec hreaches).2.2 _ hin
  obtain ⟨bb, hbb, hkind⟩ := (mem_returnBlocks hexits).1 he
  have hdle := cursor_idx_le
    (h.defs ▸ List.mem_singleton_self _ : defSite ∈ sitesOf mir (.defn slot))
  refine ⟨⟨e, (mir.statements e).length⟩, ?_, ⟨?_, rfl⟩, bb, hbb, hkind⟩
  · refine (reaches_terminator hdle).trans ?_
    rw [blockOf_eq_cursor_block]
    exact reaches_terminator_of_reaches hreach
  · exact Option.isSome_iff_exists.mpr ⟨bb, hbb⟩

variable {seg : List Cursor}

/-- The reads of a stretch, when nothing nested reads the slot in it: the visits of the read. -/
theorem sum_readCount (h : Planned fuel mir (.build mir) live slot defSite read)
    (hnested : ∀ c ∈ seg, slot ∉ nestedReadsAt mir c) :
    (seg.map (readCount mir slot)).sum = seg.count (read.cursor mir) := by
  induction seg with
  | nil => rfl
  | cons c seg ih =>
    have hc : (nestedReadsAt mir c).count slot = 0 :=
      List.count_eq_zero.mpr (hnested c List.mem_cons_self)
    rw [List.map_cons, List.sum_cons, ih fun d hd => hnested d (List.mem_cons_of_mem _ hd),
      readCount, List.count_append, hc, h.count_directReadsAt, List.count_cons]
    by_cases hcr : c = read.cursor mir <;> simp [hcr, Nat.add_comm]

/-- A stretch that passes the read and a cursor with a nested read has more than one read. -/
theorem two_le_sum_readCount (h : Planned fuel mir (.build mir) live slot defSite read) {c : Cursor}
    (hread : read.cursor mir ∈ seg) (hc : c ∈ seg) (hnested : slot ∈ nestedReadsAt mir c) :
    2 ≤ (seg.map (readCount mir slot)).sum := by
  have hsplit : ∀ l : List Cursor, (l.map (readCount mir slot)).sum
      = (l.map fun c => (directReadsAt mir c).count slot).sum
        + (l.map fun c => (nestedReadsAt mir c).count slot).sum := by
    intro l
    rw [← List.sum_map_add]
    refine congrArg List.sum (List.map_congr_left fun c _ => ?_)
    rw [readCount, List.count_append]
  have hdirect := List.single_le_sum (fun _ _ => Nat.zero_le _) _
    (List.mem_map_of_mem (f := fun c => (directReadsAt mir c).count slot) hread)
  have hnest := List.single_le_sum (fun _ _ => Nat.zero_le _) _
    (List.mem_map_of_mem (f := fun c => (nestedReadsAt mir c).count slot) hc)
  rw [h.count_directReadsAt, if_pos rfl] at hdirect
  have hpos := List.count_pos_iff.mpr hnested
  rw [hsplit]
  omega

/-- The read is passed at most once in a stretch without a definition inside. -/
theorem count_read_le_one (h : Planned fuel mir (.build mir) live slot defSite read)
    (hlive : computeLiveness fuel mir (ControlFlowGraph.build mir) = some live)
    (hentry : ∀ c ∈ seg, (ControlFlowGraph.build mir).Reaches 0 c.block) (hpath : IsPath mir seg)
    (hdef : ∀ c ∈ seg.dropLast, ¬ DefinesAt mir slot c) :
    seg.count (read.cursor mir) ≤ 1 := by
  by_contra hcount
  have hin : read.cursor mir ∈ seg := List.count_pos_iff.mp (by omega)
  obtain ⟨l₁, l₂, rfl, hl₁⟩ := List.eq_append_cons_of_mem hin
  rw [List.count_append, List.count_eq_zero.mpr hl₁, List.count_cons_self] at hcount
  obtain ⟨l₃, l₄, rfl⟩ := List.append_of_mem (List.count_pos_iff.mp
    (show 0 < l₂.count (read.cursor mir) by omega))
  refine @read_not_repeated _ _ _ _ _ _ h hlive l₃ (hentry _ hin) ?_ fun c hc => hdef c ?_
  · exact hpath.infix ⟨l₁, l₄, by simp⟩
  · have hne : read.cursor mir :: (l₃ ++ read.cursor mir :: l₄) ≠ [] := List.cons_ne_nil _ _
    rw [List.dropLast_append_of_ne_nil hne, ← List.cons_append,
      List.dropLast_append_of_ne_nil (List.cons_ne_nil _ _)]
    exact List.mem_append_right _ (List.mem_append_left _ (List.mem_cons_of_mem _ hc))

/-- **Enough.** Where the unchecked cases do not occur, every run reads once per definition. -/
theorem readOncePerDef (h : Planned fuel mir (.build mir) live slot defSite read)
    (hlive : computeLiveness fuel mir (ControlFlowGraph.build mir) = some live)
    (hsafe : ElisionSafe mir slot (defSite.cursor mir) (read.cursor mir)) {π : List Cursor}
    (hrun : EntryToReturn mir π) : ReadOncePerDef mir slot (read.cursor mir) π := by
  classical
  rintro π₁ d rest rfl hd
  obtain rfl := h.definesAt_iff.mp hd
  obtain ⟨c₀, hc₀⟩ : ∃ l, π₁ ++ defSite.cursor mir :: rest = entryCursor mir :: l := by
    cases hl : π₁ ++ defSite.cursor mir :: rest with
    | nil => simp at hl
    | cons c l =>
      have he := hrun.entry
      rw [hl] at he
      exact ⟨l, by rw [Option.some.inj he]⟩
  have hentryPath : IsPath mir (entryCursor mir :: c₀) := hc₀ ▸ hrun.path
  have hreachAll : ∀ c ∈ π₁ ++ defSite.cursor mir :: rest,
      (ControlFlowGraph.build mir).Reaches 0 c.block := by
    rw [hc₀]
    exact reaches_block_of_path .refl hentryPath
  have hdreach : Relation.ReflTransGen (Step mir) (entryCursor mir) (defSite.cursor mir) :=
    Chain.reflTransGen_of_mem hentryPath (hc₀ ▸ List.mem_append_right _ List.mem_cons_self)
  obtain ⟨hne, hback, hnested⟩ := hsafe hdreach
  have hpath : IsPath mir (defSite.cursor mir :: rest) := (List.isChain_split.mp hrun.path).2
  have hret : ∃ r ∈ (defSite.cursor mir :: rest).getLast?, ReturnsAt mir r := by
    have hr := hrun.returns
    rwa [List.getLast?_append_of_ne_nil _ (List.cons_ne_nil _ _)] at hr
  obtain ⟨hinner, hstop⟩ := Chain.upTo_spec (p := DefinesAt mir slot) rest
  have hpre : Chain.upTo (DefinesAt mir slot) rest <+: rest := Chain.upTo_isPrefix_self rest
  -- at least one visit of the read, whether the stretch ends at a definition or at the return
  have hread : read.cursor mir ∈ Chain.upTo (DefinesAt mir slot) rest := by
    rcases hstop with heq | ⟨l₁, e, l₂, hrest, hup, he⟩
    · rw [heq]
      exact h.read_before_return hne (hreachAll _ (List.mem_append_right _ List.mem_cons_self))
        hpath hret
    · obtain rfl := h.definesAt_iff.mp he
      rw [hup]
      refine List.mem_append_left _ (hback l₁ ?_)
      refine hpath.prefix ⟨l₂, ?_⟩
      rw [hrest]
      simp
  refine ⟨?_, hread⟩
  rw [h.sum_readCount ?_]
  · refine Nat.le_antisymm (h.count_read_le_one hlive ?_ ?_ hinner) (List.count_pos_iff.mpr hread)
    · intro c hc
      exact hreachAll c (List.mem_append_right _ (List.mem_cons_of_mem _ (hpre.mem hc)))
    · exact List.IsChain.prefix (List.IsChain.tail hpath) hpre
  · intro c hc
    obtain ⟨l₁, l₂, hsplit⟩ := List.append_of_mem (hpre.mem hc)
    rw [hsplit] at hpath hret
    refine hnested c ?_ ?_
    · refine transGen_of_path (l := l₁) ?_
      exact hpath.prefix ⟨l₂, by simp⟩
    · rw [← List.cons_append, List.getLast?_append_of_ne_nil _ (List.cons_ne_nil _ _)] at hret
      exact canReturn_of_path (List.isChain_split.mp (show List.IsChain _ (_ :: l₁ ++ _) from hpath)).2 hret

/-- **Needed.** Where one of the unchecked cases occurs, some run breaks the rule. -/
theorem elisionSafe (h : Planned fuel mir (.build mir) live slot defSite read)
    (honce : ∀ π, EntryToReturn mir π → ReadOncePerDef mir slot (read.cursor mir) π) :
    ElisionSafe mir slot (defSite.cursor mir) (read.cursor mir) := by
  classical
  intro hdreach
  obtain ⟨π₁, hπ₁, hhead⟩ := Chain.exists_path hdreach
  have hdef : DefinesAt mir slot (defSite.cursor mir) := h.definesAt_iff.mpr rfl
  -- the rule, at any visit of the definition on any way from it to a return
  have hkey : ∀ l α β, IsPath mir (defSite.cursor mir :: l) →
      (∃ r ∈ (defSite.cursor mir :: l).getLast?, ReturnsAt mir r) →
      defSite.cursor mir :: l = α ++ defSite.cursor mir :: β →
      ((Chain.upTo (DefinesAt mir slot) β).map (readCount mir slot)).sum = 1 ∧
        read.cursor mir ∈ Chain.upTo (DefinesAt mir slot) β := by
    intro l α β hl hret heq
    refine honce (π₁ ++ defSite.cursor mir :: l) ⟨?_, ?_, ?_⟩ (π₁ ++ α) _ β ?_ hdef
    · exact List.isChain_split.mpr ⟨hπ₁, hl⟩
    · rw [← hhead, List.head?_append, List.head?_append]
      rfl
    · rwa [List.getLast?_append_of_ne_nil _ (List.cons_ne_nil _ _)]
    · rw [heq, List.append_assoc]
  obtain ⟨tail, htail, hret⟩ := exists_return_path h.canReturn
  have hne : defSite.cursor mir ≠ read.cursor mir := by
    obtain ⟨α, β, heq, hβ⟩ := Chain.exists_last_visit
      (List.mem_cons_self : defSite.cursor mir ∈ defSite.cursor mir :: tail)
    have hread := (hkey tail α β htail hret heq).2
    rintro hcur
    exact hβ (hcur ▸ Chain.mem_of_mem_upTo hread)
  refine ⟨hne, fun ρ hρ => ?_, fun c hc hcret hnested => ?_⟩
  · have hfull : IsPath mir (defSite.cursor mir :: (ρ ++ defSite.cursor mir :: tail)) :=
      List.isChain_split.mpr ⟨hρ, htail⟩
    have hread := (hkey (ρ ++ defSite.cursor mir :: tail) [] _ hfull (by
      rw [← List.cons_append, List.getLast?_append_of_ne_nil _ (List.cons_ne_nil _ _)]
      exact hret) rfl).2
    rcases List.mem_append.mp (Chain.mem_of_mem_upTo_append hdef hread) with hmem | hmem
    · exact hmem
    · exact absurd (List.mem_singleton.mp hmem).symm hne
  · -- a nested read: the stretch from the last definition before it has two reads
    obtain ⟨b, hstep, hbc⟩ := Relation.TransGen.head'_iff.mp hc
    obtain ⟨ρ, hρ, hρhead⟩ := Chain.exists_path hbc
    obtain ⟨after, hafter, hafterRet⟩ := exists_return_path hcret
    obtain ⟨α, β, heq, hβ⟩ := Chain.exists_last_visit
      (List.mem_cons_self : defSite.cursor mir ∈ defSite.cursor mir :: ρ)
    have hfull : IsPath mir (defSite.cursor mir :: (ρ ++ c :: after)) := by
      rw [IsPath, ← List.cons_append]
      refine List.isChain_split.mpr ⟨?_, hafter⟩
      refine List.isChain_cons.mpr ⟨fun y hy => ?_, hρ⟩
      have hyb : some b = some y := hρhead.symm.trans hy
      exact Option.some.inj hyb ▸ hstep
    obtain ⟨hsum, hread⟩ := hkey (ρ ++ c :: after) α (β ++ c :: after) hfull (by
      rw [← List.cons_append, List.getLast?_append_of_ne_nil _ (List.cons_ne_nil _ _)]
      exact hafterRet) (by rw [← List.cons_append, heq, List.append_assoc]; rfl)
    have hin : c ∈ Chain.upTo (DefinesAt mir slot) (β ++ c :: after) := by
      rw [Chain.upTo_append fun e he hdefe => hβ (h.definesAt_iff.mp hdefe ▸ he)]
      exact List.mem_append_right _ (Chain.mem_upTo_self c after)
    have htwo := h.two_le_sum_readCount hread hin hnested
    omega

end Planned

def plannedBlock (between : List MirStatement) : BasicBlock :=
  { id := 0
    statements := ⟨.assign (.localSlot 1) (.use (.constant (.int 1))), ⟨0, 1⟩, 0⟩ :: between
      ++ [⟨.assign (.localSlot 4) (.use (.copy (.localSlot 1))), ⟨4, 5⟩, 2⟩]
    terminator := ⟨.ret, ⟨6, 7⟩⟩ }

def plannedMir : MirFunction :=
  { bareFunction [plannedBlock []] 5 (by decide) (by decide) (by decide) (by decide) with
    localTypes := [.unknown, .unknown, .unknown, .unknown, .unknown]
    bindingSlots := [1]
    localNames := ["__mir_ret", "x", "a", "z", "y"] }

def nestedReadMir : MirFunction :=
  { bareFunction
      [plannedBlock [⟨.assign (.localSlot 3)
        (.use (.copy (.index (.localSlot 2) (.copy (.localSlot 1))))), ⟨2, 3⟩, 1⟩]]
      5 (by decide) (by decide) (by decide) (by decide) with
    localTypes := [.unknown, .unknown, .unknown, .unknown, .unknown]
    bindingSlots := [1]
    localNames := ["__mir_ret", "x", "a", "z", "y"] }

theorem exists_plan_of_bind {fuel : Nat} {mir : MirFunction} {loans : List LoanInfo}
    {plan : RcElisionPlan}
    (h : ((computeLiveness fuel mir (.build mir)).bind fun live =>
      computePlan fuel mir (.build mir) live loans) = some plan) :
    ∃ live, computeLiveness fuel mir (.build mir) = some live ∧
      computePlan fuel mir (.build mir) live loans = some plan := by
  obtain ⟨live, hlive, hplan⟩ := Option.bind_eq_some_iff.mp h
  exact ⟨live, hlive, hplan⟩

end ShapeLang.Mir
