import ShapeLang.Mir.DominatorsExact
import ShapeLang.Mir.RcElisionSound

/-!
# ShapeLang — the post-dominators are exact

The sets of `post_dominators` (`crates/shape-vm/src/mir/rc_elision.rs`) start with every block that
reaches an exit and only shrink: `Shrinking` says that the equation of a block never gives more than
the block has, which one turn keeps because the equations are monotone. What post-dominates a block
is never removed, and a set that obeys its equation holds nothing else.
-/

namespace ShapeLang.Mir

open Dominance

namespace ControlFlowGraph

variable {cfg : ControlFlowGraph}

/-! ## The search from the entry ends -/

theorem enqueue_measure {nodes : Finset BasicBlockId} {succs queue visited : List BasicBlockId}
    (hsuccs : ∀ s ∈ succs, s ∈ nodes) :
    (enqueue succs queue visited).1.length + (nodes.filter (· ∉ (enqueue succs queue visited).2)).card ≤
      queue.length + (nodes.filter (· ∉ visited)).card := by
  induction succs generalizing queue visited with
  | nil => exact Nat.le_refl _
  | cons s succs ih =>
    have hrest : ∀ t ∈ succs, t ∈ nodes := fun t ht => hsuccs t (List.mem_cons_of_mem _ ht)
    rw [enqueue, List.foldl_cons]
    dsimp only
    split
    · exact ih hrest
    · rename_i hnew
      have hless : (nodes.filter (· ∉ s :: visited)).card < (nodes.filter (· ∉ visited)).card := by
        refine Finset.card_lt_card (Finset.ssubset_iff_of_subset ?_ |>.mpr ⟨s, ?_, ?_⟩)
        · intro x hx
          simp only [Finset.mem_filter, List.mem_cons, not_or] at hx ⊢
          exact ⟨hx.1, hx.2.2⟩
        · simp [hsuccs s List.mem_cons_self, hnew]
        · simp
      have hstep := @ih (queue ++ [s]) (s :: visited) hrest
      rw [enqueue] at hstep
      simp only [List.length_append, List.length_singleton] at hstep
      omega

variable {queue visited : List BasicBlockId}

theorem mem_queue_enqueue {succs : List BasicBlockId} {x : BasicBlockId}
    (h : x ∈ (enqueue succs queue visited).1) :
    x ∈ queue ∨ x ∈ succs := by
  induction succs generalizing queue visited with
  | nil => exact .inl h
  | cons s succs ih =>
    rw [enqueue, List.foldl_cons] at h
    dsimp only at h
    split at h
    · exact (ih h).imp_right (List.mem_cons_of_mem _)
    · rcases ih h with hqueue | hsuccs
      · rcases List.mem_append.mp hqueue with hqueue | hs
        · exact .inl hqueue
        · exact .inr (List.mem_singleton.mp hs ▸ List.mem_cons_self)
      · exact .inr (List.mem_cons_of_mem _ hsuccs)

theorem search_isSome {nodes : Finset BasicBlockId}
    (hclosed : ∀ x ∈ nodes, ∀ y ∈ cfg.successors x, y ∈ nodes) (target : BasicBlockId) {fuel : Nat}
    (hqueue : ∀ x ∈ queue, x ∈ nodes)
    (hfuel : queue.length + (nodes.filter (· ∉ visited)).card ≤ fuel) :
    ∃ answer, cfg.search target fuel queue visited = some answer := by
  induction fuel generalizing queue visited with
  | zero =>
    obtain rfl : queue = [] := List.length_eq_zero_iff.mp (by omega)
    exact ⟨false, rfl⟩
  | succ fuel ih =>
    cases queue with
    | nil => exact ⟨false, rfl⟩
    | cons block queue =>
      rw [search]
      split
      · exact ⟨true, rfl⟩
      · have hblock := hclosed block (hqueue block List.mem_cons_self)
        have hmeasure := @enqueue_measure nodes (cfg.successors block) queue visited hblock
        simp only [List.length_cons] at hfuel
        refine ih (fun x hx => ?_) (by omega)
        rcases mem_queue_enqueue hx with hold | hnew
        · exact hqueue x (List.mem_cons_of_mem _ hold)
        · exact hblock x hnew

/-- The blocks of a function, and the entry. -/
abbrev nodesOf (mir : MirFunction) : Finset BasicBlockId := insert 0 (Finset.range mir.blocks.length)

theorem nodesOf_closed (mir : MirFunction) (x : BasicBlockId) :
    ∀ y ∈ (build mir).successors x, y ∈ nodesOf mir := by
  intro y hy
  obtain ⟨_, _, _, _, hs⟩ := exists_block?_of_mem_successors hy
  exact Finset.mem_insert_of_mem (Finset.mem_range.mpr (MirFunction.block?_lt hs))

theorem isReachable_isSome (mir : MirFunction) (target : BasicBlockId) {fuel : Nat}
    (hfuel : mir.blocks.length + 2 ≤ fuel) :
    ∃ answer, (build mir).isReachable fuel target = some answer := by
  refine search_isSome (fun x _ => nodesOf_closed mir x) target (fun x hx => ?_) ?_
  · rw [List.mem_singleton.mp hx]
    exact Finset.mem_insert_self _ _
  · have hle : (nodesOf mir).card ≤ _ := Finset.card_insert_le 0 (Finset.range mir.blocks.length)
    have hfilter := Finset.card_filter_le (nodesOf mir) (· ∉ [0])
    rw [Finset.card_range] at hle
    simp only [List.length_singleton]
    omega

end ControlFlowGraph

theorem returnBlocks_isSome (mir : MirFunction) {fuel : Nat} (hfuel : mir.blocks.length + 2 ≤ fuel) :
    ∃ exits, returnBlocks fuel mir (.build mir) = some exits := by
  have hkeep : ∀ ids, ∃ kept, keepReachable fuel (.build mir) ids = some kept := by
    intro ids
    induction ids with
    | nil => exact ⟨[], rfl⟩
    | cons id ids ih =>
      obtain ⟨found, hfound⟩ := ControlFlowGraph.isReachable_isSome mir id hfuel
      obtain ⟨kept, hkept⟩ := ih
      exact ⟨if found then id :: kept else kept, by rw [keepReachable, hfound, hkept]; rfl⟩
  exact hkeep _

/-! ## The blocks that reach an exit -/

theorem reachesExit_isSome (mir : MirFunction) (exits : List BasicBlockId) {fuel : Nat}
    (hfuel : mir.blocks.length < fuel) :
    ∃ reaches, reachesExit fuel (.build mir) mir exits = some reaches := by
  refine @Fixpoint.loop_isSome _ _ (reachesExitStep (.build mir)) mir.blocks (fun _ => True)
    (fun r => ((Finset.range mir.blocks.length).filter (· ∈ r)).card) mir.blocks.length
    (fun r block r' _ hblock hstep => ⟨trivial, ?_⟩) (fun r _ => ?_) fuel exits trivial (by omega)
  · unfold reachesExitStep at hstep
    split at hstep
    · cases hstep
    rename_i hnew
    split at hstep
    · obtain rfl := Option.some.inj hstep
      have hid : block.id < mir.blocks.length := MirFunction.block?_lt (MirFunction.block?_of_mem hblock)
      refine Finset.card_lt_card (Finset.ssubset_iff_of_subset ?_ |>.mpr ⟨block.id, ?_, ?_⟩)
      · intro x hx
        simp only [Finset.mem_filter, List.mem_cons] at hx ⊢
        exact ⟨hx.1, .inr hx.2⟩
      · simp [hid]
      · simp [hnew]
    · cases hstep
  · exact (Finset.card_filter_le _ _).trans (Finset.card_range _).le

/-! ## The sets only shrink -/

section Sets

variable {cfg : ControlFlowGraph} {reaches exits : List BasicBlockId}
  {pdom : BasicBlockId → Option (Finset BasicBlockId)}

variable {b : BasicBlockId}

/-- Every path from `b` to one of the exits goes through `a`. -/
abbrev PostDominates (cfg : ControlFlowGraph) (exits : List BasicBlockId) (a b : BasicBlockId) : Prop :=
  Dominance.Dominates (fun x y => x ∈ cfg.successors y) (· ∈ exits) a b

/-- The sets on the way. -/
structure Shrinking (cfg : ControlFlowGraph) (exits reaches : List BasicBlockId)
    (pdom : BasicBlockId → Option (Finset BasicBlockId)) : Prop where
  domain : ∀ s, s ∈ reaches ↔ ∃ S, pdom s = some S
  inside : ∀ s, setOf pdom s ⊆ reaches.toFinset
  next_subset : ∀ b ∈ reaches, b ∉ exits → nextPdom cfg reaches pdom b ⊆ setOf pdom b
  complete : ∀ b ∈ reaches, ∀ a, PostDominates cfg exits a b → a ∈ setOf pdom b

theorem nextPdom_mono {pdom' : BasicBlockId → Option (Finset BasicBlockId)}
    (hsome : ∀ s ∈ reaches, ∃ S, pdom s = some S) (hsome' : ∀ s ∈ reaches, ∃ S, pdom' s = some S)
    (hsub : ∀ s, setOf pdom' s ⊆ setOf pdom s) (b : BasicBlockId) :
    nextPdom cfg reaches pdom' b ⊆ nextPdom cfg reaches pdom b := by
  intro c hc
  rcases (mem_nextPdom_iff hsome').mp hc with rfl | ⟨hex, hall⟩
  · exact (mem_nextPdom_iff hsome).mpr (.inl rfl)
  · exact (mem_nextPdom_iff hsome).mpr (.inr ⟨hex, fun s hs hr => hsub s (hall s hs hr)⟩)

/-- What the blocks that reach an exit are: the exits and the blocks with such a successor. -/
structure Backward (cfg : ControlFlowGraph) (exits reaches : List BasicBlockId) : Prop where
  mem_of_exit : ∀ e ∈ exits, e ∈ reaches
  mem_of_succ : ∀ b, ∀ s ∈ cfg.successors b, s ∈ reaches → b ∈ reaches
  reaches_exit : ∀ b ∈ reaches, ∃ e ∈ exits, cfg.Reaches b e

theorem Backward.mem_of_reaches (h : Backward cfg exits reaches) {e : BasicBlockId} (he : e ∈ exits)
    (hreach : cfg.Reaches b e) : b ∈ reaches := by
  induction hreach using Relation.ReflTransGen.head_induction_on with
  | refl => exact h.mem_of_exit e he
  | head hstep _ ih => exact h.mem_of_succ _ _ hstep ih

theorem Backward.exists_succ (h : Backward cfg exits reaches) (hb : b ∈ reaches) (he : b ∉ exits) :
    ∃ s ∈ cfg.successors b, s ∈ reaches := by
  obtain ⟨e, hexit, hreach⟩ := h.reaches_exit b hb
  rcases hreach.cases_head with rfl | ⟨s, hs, hrest⟩
  · exact absurd hexit he
  · exact ⟨s, hs, h.mem_of_reaches hexit hrest⟩

theorem Shrinking.complete_next (h : Shrinking cfg exits reaches pdom) (hback : Backward cfg exits reaches)
    {a : BasicBlockId} (hb : b ∈ reaches) (he : b ∉ exits) (ha : PostDominates cfg exits a b) :
    a ∈ nextPdom cfg reaches pdom b := by
  refine (mem_nextPdom_iff fun s => (h.domain s).mp).mpr ?_
  by_cases hab : a = b
  · exact .inl hab
  · exact .inr ⟨hback.exists_succ hb he, fun s hs hr => h.complete s hr a
      (Dominance.Dominates.pred ha hab hs)⟩

theorem Shrinking.update (h : Shrinking cfg exits reaches pdom) (hback : Backward cfg exits reaches)
    (hb : b ∈ reaches) (he : b ∉ exits) :
    Shrinking cfg exits reaches (Function.update pdom b (some (nextPdom cfg reaches pdom b))) := by
  have hsome : ∀ s ∈ reaches, ∃ S, pdom s = some S := fun s => (h.domain s).mp
  -- a turn only takes blocks out of the set of `b`
  have hsub : ∀ s, setOf (Function.update pdom b (some (nextPdom cfg reaches pdom b))) s ⊆
      setOf pdom s := by
    intro s
    by_cases hsb : s = b
    · subst hsb
      rw [setOf, Function.update_self, Option.getD_some]
      exact h.next_subset s hb he
    · rw [setOf, Function.update_of_ne hsb]
  have hdomain : ∀ s, s ∈ reaches ↔ ∃ S, Function.update pdom b (some (nextPdom cfg reaches pdom b))
      s = some S := by
    intro s
    by_cases hsb : s = b
    · subst hsb
      simp [hb]
    · rw [Function.update_of_ne hsb]
      exact h.domain s
  refine ⟨hdomain, fun s => (hsub s).trans (h.inside s), fun c hc hce => ?_, fun c hc a ha => ?_⟩
  -- smaller sets at the successors give a smaller next set
  · have hmono := @nextPdom_mono cfg reaches pdom _ hsome (fun s => (hdomain s).mp) hsub c
    by_cases hcb : c = b
    · subst hcb
      rw [setOf, Function.update_self, Option.getD_some]
      exact hmono
    · rw [setOf, Function.update_of_ne hcb]
      exact hmono.trans (h.next_subset c hc hce)
  · by_cases hcb : c = b
    · subst hcb
      rw [setOf, Function.update_self, Option.getD_some]
      exact h.complete_next hback hb he ha
    · rw [setOf, Function.update_of_ne hcb]
      exact h.complete c hc a ha

theorem mem_reaches_of_mem_walk (hback : Backward cfg exits reaches) {a : BasicBlockId}
    {π : List BasicBlockId} (h : Walk (fun x y => x ∈ cfg.successors y) (· ∈ exits) b π)
    (ha : a ∈ π) : a ∈ reaches := by
  have hlast : ∀ {b π}, Walk (fun x y => x ∈ cfg.successors y) (· ∈ exits) b π → b ∈ reaches := by
    intro b π hwalk
    induction hwalk with
    | start he => exact hback.mem_of_exit _ he
    | step _ he ih => exact hback.mem_of_succ _ _ he ih
  induction h with
  | start he => exact List.mem_singleton.mp ha ▸ hback.mem_of_exit _ he
  | step hwalk he ih =>
    rcases List.mem_append.mp ha with ha | ha
    · exact ih ha
    · exact List.mem_singleton.mp ha ▸ hlast (hwalk.step he)

theorem shrinking_initialPdom (hback : Backward cfg exits reaches) :
    Shrinking cfg exits reaches (initialPdom exits reaches) := by
  have hset : ∀ s ∈ reaches, setOf (initialPdom exits reaches) s = if s ∈ exits then {s}
      else reaches.toFinset := by
    intro s hs
    rw [setOf, initialPdom, if_pos hs]
    split <;> rfl
  have hdomain : ∀ s, s ∈ reaches ↔ ∃ S, initialPdom exits reaches s = some S := by
    intro s
    unfold initialPdom
    by_cases hs : s ∈ reaches
    · by_cases he : s ∈ exits <;> simp [hs, he]
    · simp [hs]
  have hinside : ∀ s, setOf (initialPdom exits reaches) s ⊆ reaches.toFinset := by
    intro s
    by_cases hs : s ∈ reaches
    · rw [hset s hs]
      split
      · exact Finset.singleton_subset_iff.mpr (List.mem_toFinset.mpr hs)
      · exact Finset.Subset.refl _
    · rw [setOf, initialPdom, if_neg hs]
      exact Finset.empty_subset _
  refine ⟨hdomain, hinside, fun b hb he c hc => ?_, fun b hb a ha => ?_⟩
  · rw [hset b hb, if_neg he, List.mem_toFinset]
    rcases (mem_nextPdom_iff fun s => (hdomain s).mp).mp hc with rfl | ⟨⟨s, hs, hr⟩, hall⟩
    · exact hb
    · exact List.mem_toFinset.mp (hinside s (hall s hs hr))
  · rw [hset b hb]
    split
    · rename_i he
      exact Finset.mem_singleton.mpr (Dominance.Dominates.eq_of_root ha he)
    · -- a block on a path to an exit reaches the exit itself
      obtain ⟨e, he, hreach⟩ := hback.reaches_exit b hb
      rw [List.mem_toFinset]
      have hwalk : ∃ π, Walk (fun x y => x ∈ cfg.successors y) (· ∈ exits) b π :=
        exists_walk he (Relation.reflTransGen_swap.mpr hreach)
      obtain ⟨π, hπ⟩ := hwalk
      exact mem_reaches_of_mem_walk hback hπ (ha π hπ)

/-- The loop over the sets ends. -/
theorem pdomLoop_isSome (hback : Backward cfg exits reaches) {order : List BasicBlockId}
    (horder : ∀ b ∈ order, b ∈ reaches ∧ b ∉ exits) {fuel : Nat}
    (hfuel : order.length * reaches.toFinset.card < fuel) :
    ∃ pdom, Fixpoint.loop (pdomStep cfg reaches) order fuel (initialPdom exits reaches) = some pdom := by
  refine @Fixpoint.loop_isSome _ _ (pdomStep cfg reaches) order (Shrinking cfg exits reaches)
    (fun pdom => (order.map fun b => reaches.toFinset.card - (setOf pdom b).card).sum)
    (order.length * reaches.toFinset.card)
    ?_ ?_ fuel _ (shrinking_initialPdom hback) (by omega)
  · intro pdom b pdom' h hb hstep
    obtain ⟨hbr, hbe⟩ := horder b hb
    unfold pdomStep at hstep
    split at hstep
    · cases hstep
    rename_i hne
    obtain rfl := Option.some.inj hstep
    refine ⟨h.update hback hbr hbe, List.sum_lt_sum _ _ (fun x _ => ?_) ⟨b, hb, ?_⟩⟩
    -- the set of the block gets smaller, those of the others stay
    · by_cases hxb : x = b
      · subst hxb
        have := Finset.card_le_card (h.next_subset x hbr hbe)
        simp only [setOf, Function.update_self, Option.getD_some] at *
        omega
      · simp [setOf, Function.update_of_ne hxb]
    · obtain ⟨S, hS⟩ := (h.domain b).mp hbr
      have hsub := h.next_subset b hbr hbe
      have hinside := Finset.card_le_card (h.inside b)
      rw [setOf, hS, Option.getD_some] at hsub hinside
      have hlt := Finset.card_lt_card (hsub.ssubset_of_ne fun heq => hne (by rw [heq, hS]))
      simp only [setOf, hS, Function.update_self, Option.getD_some]
      omega
  · intro pdom _
    have hle := List.sum_le_card_nsmul
        (order.map fun b => reaches.toFinset.card - (setOf pdom b).card) reaches.toFinset.card (by
      intro n hn
      obtain ⟨x, _, rfl⟩ := List.mem_map.mp hn
      exact Nat.sub_le _ _)
    simpa using hle

/-- A set of a finished run holds what post-dominates its block, and nothing else. -/
theorem mem_setOf_iff (hback : Backward cfg exits reaches) (hshrinking : Shrinking cfg exits reaches pdom)
    (hsingle : ∀ e ∈ exits, pdom e = some {e}) (hexit : ∀ e ∈ exits, cfg.successors e = [])
    (hstable : ∀ b, cfg.Reaches 0 b → b ∈ reaches → b ∉ exits → pdom b = some (nextPdom cfg reaches pdom b))
    {a b : BasicBlockId} (hb : cfg.Reaches 0 b) (hbr : b ∈ reaches) :
    a ∈ setOf pdom b ↔ PostDominates cfg exits a b := by
  refine ⟨fun ha => ?_, hshrinking.complete b hbr a⟩
  refine dominates_of_invariant (R := fun x => cfg.Reaches 0 x ∧ x ∈ reaches ∧ a ∈ setOf pdom x) ?_
    ?_ ⟨hb, hbr, ha⟩
  · rintro e he ⟨_, _, ha⟩
    rw [setOf, hsingle e he] at ha
    exact Finset.mem_singleton.mp ha
  · rintro s b ⟨e, he, hreach⟩ hs ⟨hb, hbr, ha⟩
    have hsr : s ∈ reaches := hback.mem_of_reaches he (Relation.reflTransGen_swap.mp hreach)
    have hbe : b ∉ exits := by
      intro hbe
      rw [hexit b hbe] at hs
      cases hs
    rw [setOf, hstable b hb hbr hbe, Option.getD_some] at ha
    rcases (mem_nextPdom_iff fun s => (hshrinking.domain s).mp).mp ha with hab | ⟨_, hall⟩
    · exact .inl hab
    · exact .inr ⟨hb.tail hs, hsr, hall s hs hsr⟩

end Sets

/-! ## The claims of both analyses -/

/-- The blocks of a path from `a` to `b`. -/
def PathFromTo (cfg : ControlFlowGraph) (a b : BasicBlockId) (π : List BasicBlockId) : Prop :=
  π.head? = some a ∧ π.getLast? = some b ∧ π.IsChain fun x y => y ∈ cfg.successors x

def IsReturn (mir : MirFunction) (b : BasicBlockId) : Prop := ∃ bb ∈ mir.block? b, bb.terminator.kind = .ret

variable {a b : BasicBlockId}

theorem dominates_iff_paths {cfg : ControlFlowGraph} :
    cfg.Dominates a b ↔ ∀ π, PathFromTo cfg 0 b π → a ∈ π := by
  refine forall_congr' fun π => ?_
  rw [walk_iff, PathFromTo]
  simp

theorem postDominates_iff_paths {cfg : ControlFlowGraph} {exits : List BasicBlockId} :
    PostDominates cfg exits a b ↔ ∀ e ∈ exits, ∀ π, PathFromTo cfg b e π → a ∈ π := by
  constructor
  · intro h e he π ⟨hhead, hlast, hchain⟩
    have hwalk : Walk (fun x y => x ∈ cfg.successors y) (· ∈ exits) b π.reverse :=
      walk_iff.mpr ⟨⟨e, he, by simpa using hlast⟩, by simpa using hhead, List.isChain_reverse.mpr hchain⟩
    exact List.mem_reverse.mp (h _ hwalk)
  · intro h π hwalk
    obtain ⟨⟨e, he, hhead⟩, hlast, hchain⟩ := walk_iff.mp hwalk
    refine List.mem_reverse.mp (h e he π.reverse ⟨by simpa using hlast, by simpa using hhead, ?_⟩)
    exact List.isChain_reverse.mpr hchain

theorem reaches_of_path {cfg : ControlFlowGraph} {π : List BasicBlockId}
    (h : PathFromTo cfg a b π) : cfg.Reaches a b := by
  obtain ⟨hhead, hlast, hchain⟩ := h
  have hwalk : Walk (fun x y => y ∈ cfg.successors x) (· = a) b π :=
    walk_iff.mpr ⟨⟨a, rfl, hhead⟩, hlast, hchain⟩
  obtain ⟨r, rfl, hreaches⟩ := hwalk.reaches
  exact hreaches

theorem exists_path {cfg : ControlFlowGraph} (h : cfg.Reaches a b) :
    ∃ π, PathFromTo cfg a b π := by
  have hwalk : ∃ π, Walk (fun x y => y ∈ cfg.successors x) (· = a) b π := exists_walk rfl h
  obtain ⟨π, hπ⟩ := hwalk
  obtain ⟨⟨r, rfl, hhead⟩, hlast, hchain⟩ := walk_iff.mp hπ
  exact ⟨π, hhead, hlast, hchain⟩

/-- The walk along the table says whether the candidate stands above the target. -/
theorem dominates_spec {number : BasicBlockId → Nat} {idom : BasicBlockId → Option BasicBlockId}
    (h : IsTree number idom) (a : BasicBlockId) {fuel : Nat} (hb : ∃ u, idom b = some u)
    (hfuel : number b < fuel) :
    ∃ answer, dominates idom a fuel b = some answer ∧ (answer = true ↔ Above idom b a) := by
  induction fuel generalizing b with
  | zero => omega
  | succ fuel ih =>
    obtain ⟨u, hu⟩ := hb
    rw [dominates]
    split
    · rename_i heq
      subst heq
      exact ⟨true, rfl, by simp [Relation.ReflTransGen.refl]⟩
    · rename_i hne
      rw [hu]
      dsimp only
      by_cases hub : u = b
      · -- only the entry block is its own parent
        have hroot : b = 0 := by
          by_contra hroot
          have := h.decreasing hroot hu
          rw [hub] at this
          omega
        refine ⟨false, by simp [hub], ?_⟩
        simp only [Bool.false_eq_true, false_iff]
        intro habove
        rw [hroot] at habove hne
        exact hne (h.above_root habove).symm
      · have hroot : b ≠ 0 := by
          rintro rfl
          exact hub (Option.some.inj (hu.symm.trans h.root))
        have hless := h.decreasing hroot hu
        obtain ⟨answer, hanswer, hiff⟩ := ih (h.closed hu) (by omega)
        refine ⟨answer,
          by simp [hub, hanswer], hiff.trans ⟨fun habove => .head hu habove, fun habove => ?_⟩⟩
        rcases habove.cases_head with heq | ⟨v, hv, hrest⟩
        · exact absurd heq hne
        · obtain rfl := Option.some.inj (hu.symm.trans hv)
          exact hrest

/-- The analysis of the reverse graph ends, with the exact sets. -/
theorem postDominators_isSome (mir : MirFunction) {fuel : Nat}
    (hfuel : ControlFlowGraph.turnsFor mir < fuel) :
    ∃ exits pdom, returnBlocks fuel mir (.build mir) = some exits ∧
      postDominators fuel (.build mir) mir exits = some pdom ∧
      ∀ a b, (ControlFlowGraph.build mir).Reaches 0 b → (postDominates pdom a b = true ↔
        (∃ e ∈ exits, (ControlFlowGraph.build mir).Reaches b e) ∧ PostDominates
          (.build mir) exits a b) := by
  have hsquare : mir.blocks.length + 2 ≤ (mir.blocks.length + 2) * (mir.blocks.length + 2) :=
    Nat.le_mul_self _
  unfold ControlFlowGraph.turnsFor at hfuel
  obtain ⟨exits, hexits⟩ := returnBlocks_isSome mir (show mir.blocks.length + 2 ≤ fuel by omega)
  obtain ⟨reaches, hreaches⟩ := reachesExit_isSome mir exits (show mir.blocks.length < fuel by omega)
  obtain ⟨rpo, hrpo⟩ := ControlFlowGraph.reversePostorder_isSome mir
      (show mir.blocks.length + 1 < fuel by omega)
  obtain ⟨hmem, hsucc, hreach⟩ := reachesExit_spec hreaches
  have hback : Backward (.build mir) exits reaches := ⟨hmem, hsucc, hreach⟩
  have hreturn : ∀ e ∈ exits, ∃ bb, mir.block? e = some bb ∧ bb.terminator.kind = .ret := fun e he =>
    (mem_returnBlocks hexits).1 he
  have hno : ∀ e ∈ exits, (ControlFlowGraph.build mir).successors e = [] := by
    intro e he
    obtain ⟨bb, hbb, hret⟩ := hreturn e he
    rw [ControlFlowGraph.successors_build hbb, hret]
    rfl
  -- the sets are sets of blocks of the function, which bounds the number of passes
  have hcard : reaches.toFinset.card ≤ mir.blocks.length := by
    have hsub : reaches.toFinset ⊆ Finset.range mir.blocks.length := by
      intro b hb
      obtain ⟨e, he, hbe⟩ := hreach b (List.mem_toFinset.mp hb)
      rw [Finset.mem_range]
      rcases hbe.cases_head with rfl | ⟨s, hs, _⟩
      · obtain ⟨_, hbb, _⟩ := hreturn b he
        exact MirFunction.block?_lt hbb
      · obtain ⟨_, hbb, _⟩ := ControlFlowGraph.exists_block?_of_mem_successors hs
        exact MirFunction.block?_lt hbb
    simpa using Finset.card_le_card hsub
  have horder : ∀ b ∈ (rpo.filter fun b => b ∈ reaches ∧ b ∉ exits).reverse, b ∈ reaches ∧
      b ∉ exits := fun b hb =>
    of_decide_eq_true (List.mem_filter.mp (List.mem_reverse.mp hb)).2
  have hlength : (rpo.filter fun b => b ∈ reaches ∧ b ∉ exits).reverse.length ≤ mir.blocks.length + 1 := by
    rw [List.length_reverse]
    exact (List.length_filter_le _ _).trans (ControlFlowGraph.length_reversePostorder_le hrpo)
  have hproduct : (rpo.filter fun b => b ∈ reaches ∧ b ∉ exits).reverse.length * reaches.toFinset.card ≤
      (mir.blocks.length + 2) * (mir.blocks.length + 2) := Nat.mul_le_mul (by omega) (by omega)
  obtain ⟨pdom, hpdom⟩ := pdomLoop_isSome hback horder
    (show (rpo.filter fun b => b ∈ reaches ∧ b ∉ exits).reverse.length * reaches.toFinset.card <
      fuel by omega)
  have hresult : postDominators fuel (.build mir) mir exits = some pdom := by
    rw [postDominators, hreaches, Option.bind_eq_bind, Option.bind_some, hrpo]
    exact hpdom
  have hkeeps : ∀ s b s', Shrinking (.build mir) exits reaches s →
      b ∈ (rpo.filter fun b => b ∈ reaches ∧ b ∉ exits).reverse →
        pdomStep (.build mir) reaches s b = some s' →
      Shrinking (.build mir) exits reaches s' := by
    intro s b s' h hb hstep
    obtain ⟨hbr, hbe⟩ := horder b hb
    unfold pdomStep at hstep
    split at hstep
    · cases hstep
    · obtain rfl := Option.some.inj hstep
      exact h.update hback hbr hbe
  have hshrinking := (Fixpoint.loop_stable hkeeps (shrinking_initialPdom hback) hpdom).1
  obtain ⟨reaches', hreaches', hsingle, _, hstable⟩ := postDominators_stable hresult
  obtain rfl := Option.some.inj (hreaches.symm.trans hreaches')
  refine ⟨exits, pdom, hexits, hresult, fun a b hb => ?_⟩
  by_cases hbr : b ∈ reaches
  · have hiff := @mem_setOf_iff _ _ _ _ hback hshrinking (fun e he => hsingle e he (hmem e he)) hno
        hstable a b hb hbr
    obtain ⟨S, hS⟩ := (hshrinking.domain b).mp hbr
    rw [← hiff, setOf, postDominates, hS]
    simpa using fun _ => hreach b hbr
  · have hnone : pdom b = none := by
      cases hS : pdom b with
      | none => rfl
      | some S => exact absurd ((hshrinking.domain b).mpr ⟨S, hS⟩) hbr
    rw [postDominates, hnone]
    simp only [Bool.false_eq_true, false_iff]
    rintro ⟨⟨e, he, hbe⟩, _⟩
    exact hbr (hback.mem_of_reaches he hbe)

/-- **Both analyses are exact** on the blocks that the entry reaches. -/
theorem dominators_exact (mir : MirFunction) : ∃ bound, ∀ fuel > bound, ∃ idom exits pdom,
    (ControlFlowGraph.build mir).dominators fuel = some idom ∧
    returnBlocks fuel mir (.build mir) = some exits ∧
    postDominators fuel (.build mir) mir exits = some pdom ∧
    ∀ a b, (ControlFlowGraph.build mir).Reaches 0 a → (ControlFlowGraph.build mir).Reaches 0 b →
      (∃ answer, dominates idom a fuel b = some answer ∧
        (answer = true ↔ ∀ π, PathFromTo (.build mir) 0 b π → a ∈ π)) ∧
      (postDominates pdom a b = true ↔
        (∀ e π, IsReturn mir e → (ControlFlowGraph.build mir).Reaches 0 e →
          PathFromTo (.build mir) b e π → a ∈ π) ∧
        ∃ e π, IsReturn mir e ∧ (ControlFlowGraph.build mir).Reaches 0 e ∧ PathFromTo
          (.build mir) b e π) := by
  refine ⟨ControlFlowGraph.turnsFor mir, fun fuel hfuel => ?_⟩
  obtain ⟨rpo, idom, hrpo, hidom, hsettled, hmet⟩ := ControlFlowGraph.dominators_isSome mir hfuel
  obtain ⟨exits, pdom, hexits, hpdom, hpost⟩ := postDominators_isSome mir hfuel
  have hord := ControlFlowGraph.ordered_reversePostorder hrpo
  refine ⟨idom, exits, pdom, hidom, hexits, hpdom, fun a b _ hb => ⟨?_, ?_⟩⟩
  -- the climb from `b` ends within the fuel, and the tree above `b` is what dominates it
  · have hbr := hord.mem_iff.mpr hb
    have hlt := hord.number_lt hbr
    have hlength := ControlFlowGraph.length_reversePostorder_le hrpo
    unfold ControlFlowGraph.turnsFor at hfuel
    obtain ⟨answer, hanswer, hiff⟩ := dominates_spec hsettled.tree a (hsettled.handled hbr hlt)
      (show ControlFlowGraph.rpoNumber rpo b < fuel by omega)
    refine ⟨answer, hanswer, hiff.trans ?_⟩
    rw [hsettled.above_iff_dominates hord hmet hbr, dominates_iff_paths]
  -- the exits are the return blocks that the entry reaches
  · have hexit : ∀ {e}, (ControlFlowGraph.build mir).Reaches 0 e → (e ∈ exits ↔ IsReturn mir e) := fun he =>
      ⟨(mem_returnBlocks hexits).1, fun hret => (mem_returnBlocks hexits).2 hret he⟩
    rw [hpost a b hb, postDominates_iff_paths, and_comm]
    refine and_congr ⟨fun h e π hret hreach hpath => ?_, fun h e he π hpath => ?_⟩ ⟨?_, ?_⟩
    · exact h e ((hexit hreach).mpr hret) π hpath
    · have hreach := hb.trans (reaches_of_path hpath)
      exact h e π ((hexit hreach).mp he) hreach hpath
    · rintro ⟨e, he, hbe⟩
      obtain ⟨π, hpath⟩ := exists_path hbe
      exact ⟨e, π, (hexit (hb.trans hbe)).mp he, hb.trans hbe, hpath⟩
    · rintro ⟨e, π, hret, hreach, hpath⟩
      exact ⟨e, (hexit hreach).mpr hret, reaches_of_path hpath⟩

end ShapeLang.Mir
