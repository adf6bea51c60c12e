import ShapeLang.Mir.DominatorTree

/-!
# ShapeLang — the dominators are exact

A depth-first traversal puts before every block but the first one of its predecessors. So a pass
over the reverse postorder finds for every block a predecessor that was handled before it, and the
entry moves up in the tree or stays.

`Settling` is what holds in the middle of a pass. That lines only get shorter rests on its last
part: a block whose parent is still to be handled in this pass has its forward predecessors below
the same blocks. Without the order of the pass this is not so, and a block could move back down.

  * `dominators_isSome` — the loops end;
  * `above_iff_dominates` — the blocks above a block in the final tree are those on every path from
    the entry.
-/

namespace ShapeLang.Mir

open Dominance

namespace ControlFlowGraph

variable {cfg : ControlFlowGraph}

/-! ## The order of the traversal -/

/-- What a visit appends: new blocks, each of them one of `roots` or before a block that jumps to it. -/
structure Appends (cfg : ControlFlowGraph) (roots : List BasicBlockId)
    (st st' : List BasicBlockId × List BasicBlockId) (added : List BasicBlockId) : Prop where
  postorder : st'.2 = st.2 ++ added
  visited : ∀ x ∈ st.1, x ∈ st'.1
  fresh : ∀ x ∈ added, x ∉ st.1 ∧ x ∈ st'.1
  nodup : added.Nodup
  entered : ∀ x ∈ added, x ∈ roots ∨ ∃ p, x ∈ cfg.successors p ∧ [x, p].Sublist added

variable {st st' : List BasicBlockId × List BasicBlockId}

theorem Appends.append {roots roots' : List BasicBlockId} {st'' : List BasicBlockId × List BasicBlockId}
    {added added' : List BasicBlockId} (h : Appends cfg roots st st' added)
    (h' : Appends cfg roots' st' st'' added') :
    Appends cfg (roots ++ roots') st st'' (added ++ added') where
  postorder := by rw [h'.postorder, h.postorder, List.append_assoc]
  visited x hx := h'.visited x (h.visited x hx)
  fresh x hx := by
    rcases List.mem_append.mp hx with hx | hx
    · exact ⟨(h.fresh x hx).1, h'.visited x (h.fresh x hx).2⟩
    · exact ⟨fun hold => (h'.fresh x hx).1 (h.visited x hold), (h'.fresh x hx).2⟩
  nodup := by
    refine List.nodup_append'.mpr ⟨h.nodup, h'.nodup, fun x hx hx' => ?_⟩
    exact (h'.fresh x hx').1 (h.fresh x hx).2
  entered x hx := by
    rcases List.mem_append.mp hx with hx | hx
    · rcases h.entered x hx with hroot | ⟨p, hp, hbefore⟩
      · exact .inl (List.mem_append_left _ hroot)
      · exact .inr ⟨p, hp, hbefore.trans (List.sublist_append_left _ _)⟩
    · rcases h'.entered x hx with hroot | ⟨p, hp, hbefore⟩
      · exact .inl (List.mem_append_right _ hroot)
      · exact .inr ⟨p, hp, hbefore.trans (List.sublist_append_right _ _)⟩

theorem appends_refl (st : List BasicBlockId × List BasicBlockId) (roots : List BasicBlockId) :
    Appends cfg roots st st [] :=
  ⟨by simp, fun _ hx => hx, by simp, .nil, by simp⟩

theorem appends_foldlM
    {f : BasicBlockId → List BasicBlockId × List BasicBlockId →
      Option (List BasicBlockId × List BasicBlockId)}
    (hf : ∀ b st st', f b st = some st' → ∃ added, Appends cfg [b] st st' added)
    {succs : List BasicBlockId} (h : succs.foldlM (fun st succ => f succ st) st = some st') :
    ∃ added, Appends cfg succs st st' added := by
  induction succs generalizing st with
  | nil =>
    obtain rfl : st = st' := by simpa using h
    exact ⟨[], appends_refl st []⟩
  | cons b succs ih =>
    rw [List.foldlM_cons] at h
    obtain ⟨st1, h1, h2⟩ := Option.bind_eq_some_iff.mp h
    obtain ⟨first, hfirst⟩ := hf b st st1 h1
    obtain ⟨later, hlater⟩ := ih h2
    exact ⟨first ++ later, hfirst.append hlater⟩

variable {fuel : Nat}

theorem appends_dfsPostorder {block : BasicBlockId} (h : cfg.dfsPostorder fuel block st = some st') :
    ∃ added, Appends cfg [block] st st' added := by
  induction fuel generalizing block st st' with
  | zero => cases h
  | succ fuel ih =>
    obtain ⟨visited, postorder⟩ := st
    rw [dfsPostorder] at h
    split at h
    · obtain rfl : (visited, postorder) = st' := by simpa using h
      exact ⟨[], appends_refl _ _⟩
    · rename_i hnew
      obtain ⟨st1, h1, h2⟩ := Option.bind_eq_some_iff.mp h
      obtain rfl : (st1.1, st1.2 ++ [block]) = st' := by simpa using h2
      obtain ⟨added, hadded⟩ := appends_foldlM (fun b st st' => ih) h1
      refine ⟨added ++ [block], ?_, ?_, ?_, ?_, ?_⟩
      · rw [hadded.postorder, List.append_assoc]
      · exact fun x hx => hadded.visited x (List.mem_cons_of_mem _ hx)
      · intro x hx
        rcases List.mem_append.mp hx with hx | hx
        · exact ⟨fun hold => (hadded.fresh x hx).1 (List.mem_cons_of_mem _ hold), (hadded.fresh x hx).2⟩
        · rw [List.mem_singleton.mp hx]
          exact ⟨hnew, hadded.visited block List.mem_cons_self⟩
      · refine List.nodup_append'.mpr ⟨hadded.nodup, List.nodup_singleton _, fun x hx hx' => ?_⟩
        rw [List.mem_singleton.mp hx'] at hx
        exact (hadded.fresh block hx).1 List.mem_cons_self
      · intro x hx
        rcases List.mem_append.mp hx with hx | hx
        · right
          rcases hadded.entered x hx with hsucc | ⟨p, hp, hbefore⟩
          · -- a successor of `block` is listed before it
            exact ⟨block, hsucc, (List.singleton_sublist.mpr hx).append (List.Sublist.refl [block])⟩
          · exact ⟨p, hp, hbefore.trans (List.sublist_append_left _ _)⟩
        · exact .inl hx

/-- The numbers of a traversal. -/
def rpoNumber (rpo : List BasicBlockId) (b : BasicBlockId) : Nat := (rpo.findIdx? (· == b)).getD 0

/-- What the passes use of the order. -/
structure Ordered (cfg : ControlFlowGraph) (rpo : List BasicBlockId) (number : BasicBlockId → Nat) :
    Prop where
  root : 0 ∈ rpo
  number_root : number 0 = 0
  mem_iff : ∀ {b}, b ∈ rpo ↔ cfg.Reaches 0 b
  numbered : ∀ {i b}, rpo[i]? = some b → number b = i
  forward : ∀ {b}, b ∈ rpo → b ≠ 0 → ∃ p ∈ rpo, p ∈ cfg.predecessors b ∧ number p < number b
  edge : ∀ {p b}, p ∈ cfg.predecessors b ↔ b ∈ cfg.successors p

theorem number_of_nodup {rpo : List BasicBlockId} (h : rpo.Nodup) {i : Nat} {b : BasicBlockId}
    (hb : rpo[i]? = some b) :
    rpoNumber rpo b = i := by
  have hfind : rpo.findIdx? (· == b) = some i := by
    obtain ⟨hi, hget⟩ := List.getElem?_eq_some_iff.mp hb
    refine List.findIdx?_eq_some_iff_getElem.mpr ⟨hi, by simp [hget], fun j hj => ?_⟩
    intro heq
    simp only [beq_iff_eq] at heq
    have := (List.Nodup.getElem_inj_iff h).mp (heq.trans hget.symm)
    omega
  rw [rpoNumber, hfind, Option.getD_some]

variable {mir : MirFunction} {p : BasicBlockId}

theorem mem_predecessors_iff {b : BasicBlockId} :
    p ∈ (build mir).predecessors b ↔ b ∈ (build mir).successors p := by
  rw [mem_predecessors_build]
  constructor
  · rintro ⟨blk, hblk, rfl, hb⟩
    rwa [successors_build (MirFunction.block?_of_mem hblk)]
  · intro hb
    obtain ⟨blk, hblk, hsucc, _⟩ := exists_block?_of_mem_successors hb
    exact ⟨blk, MirFunction.block?_mem hblk, MirFunction.id_of_block? hblk, hsucc⟩

theorem ordered_reversePostorder {rpo : List BasicBlockId}
    (h : (build mir).reversePostorder fuel = some rpo) :
    Ordered (build mir) rpo (rpoNumber rpo) := by
  have hmem : ∀ {b}, b ∈ rpo ↔ (build mir).Reaches 0 b :=
    ⟨fun hb => reaches_of_mem_reversePostorder h hb, fun hb => mem_reversePostorder h hb⟩
  obtain ⟨st, hst, hrpo⟩ := Option.bind_eq_some_iff.mp h
  obtain rfl : st.2.reverse = rpo := by simpa using hrpo
  obtain ⟨added, hadded⟩ := appends_dfsPostorder hst
  obtain rfl : st.2 = added := by simpa using hadded.postorder
  have hnodup : st.2.reverse.Nodup := List.nodup_reverse.mpr hadded.nodup
  -- the entry block is left last, so it comes first
  have hfirst : st.2.reverse[0]? = some 0 := by
    cases fuel with
    | zero => cases hst
    | succ fuel =>
      rw [dfsPostorder, if_neg List.not_mem_nil] at hst
      obtain ⟨st1, _, h2⟩ := Option.bind_eq_some_iff.mp hst
      obtain rfl : (st1.1, st1.2 ++ [0]) = st := by simpa using h2
      simp
  have hincreasing : st.2.reverse.Pairwise fun x y => rpoNumber st.2.reverse x <
      rpoNumber st.2.reverse y := by
    refine List.pairwise_iff_getElem.mpr fun i j hi hj hij => ?_
    rw [number_of_nodup hnodup (List.getElem?_eq_getElem hi), number_of_nodup hnodup
      (List.getElem?_eq_getElem hj)]
    exact hij
  refine ⟨List.mem_of_getElem? hfirst, number_of_nodup hnodup hfirst, hmem, number_of_nodup hnodup, ?_, ?_⟩
  -- a block is entered from a predecessor that is left later, and so numbered lower
  · intro b hb hne
    rcases hadded.entered b (List.mem_reverse.mp hb) with hroot | ⟨p, hp, hbefore⟩
    · exact absurd (List.mem_singleton.mp hroot) hne
    · have hsub : [p, b].Sublist st.2.reverse := by simpa using hbefore.reverse
      have hlt := List.rel_of_pairwise_cons (hincreasing.sublist hsub) (List.mem_singleton_self b)
      exact ⟨p, hsub.subset List.mem_cons_self, mem_predecessors_iff.mpr hp, hlt⟩
  · exact mem_predecessors_iff

/-! ## One turn -/

/-- Every path from the entry to `b` goes through `a`. -/
abbrev Dominates (cfg : ControlFlowGraph) (a b : BasicBlockId) : Prop :=
  Dominance.Dominates (fun x y => y ∈ cfg.successors x) (· = 0) a b

/-- The predecessors that have an entry. -/
abbrev known (cfg : ControlFlowGraph) (doms : BasicBlockId → Option BasicBlockId)
    (b : BasicBlockId) : List BasicBlockId :=
  (cfg.predecessors b).filter fun p => (doms p).isSome

theorem mem_known {doms : BasicBlockId → Option BasicBlockId} {b : BasicBlockId} :
    p ∈ known cfg doms b ↔ p ∈ cfg.predecessors b ∧ ∃ u, doms p = some u := by
  rw [known, List.mem_filter, Option.isSome_iff_exists]

variable {rpo : List BasicBlockId} {number : BasicBlockId → Nat}

variable {x : BasicBlockId}

theorem Ordered.injective (hord : Ordered cfg rpo number) {y : BasicBlockId} (hx : x ∈ rpo) (hy : y ∈ rpo)
    (h : number x = number y) : x = y := by
  obtain ⟨i, hi⟩ := List.getElem?_of_mem hx
  obtain ⟨j, hj⟩ := List.getElem?_of_mem hy
  rw [hord.numbered hi, hord.numbered hj] at h
  subst h
  exact Option.some.inj (hi.symm.trans hj)

theorem Ordered.number_lt (hord : Ordered cfg rpo number) (hx : x ∈ rpo) : number x < rpo.length := by
  obtain ⟨i, hi⟩ := List.getElem?_of_mem hx
  rw [hord.numbered hi]
  exact (List.getElem?_eq_some_iff.mp hi).1

/-- The table in a pass that has handled the blocks numbered below `i`. -/
structure Settling (cfg : ControlFlowGraph) (rpo : List BasicBlockId) (number : BasicBlockId → Nat)
    (doms : BasicBlockId → Option BasicBlockId) (i : Nat) : Prop where
  tree : IsTree number doms
  listed : ∀ {x u}, doms x = some u → x ∈ rpo
  handled : ∀ {x}, x ∈ rpo → number x < i → ∃ u, doms x = some u
  downward : ∀ {x u y}, doms x = some u → y ∈ rpo → number y < number x → ∃ v, doms y = some v
  /-- The parent has all the dominators that the block has besides itself. -/
  keeps : ∀ {x y d}, x ≠ 0 → doms x = some y → cfg.Dominates d x → d ≠ x → cfg.Dominates d y
  /-- Where the predecessors meet, the parent is or will be. -/
  meets : ∀ {x q z}, x ≠ 0 → doms x = some q → (∀ p ∈ known cfg doms x, Above doms p z) → Above doms q z
  /-- A forward predecessor is below the blocks the parent is below, as far as this pass has not
  moved them. -/
  forward : ∀ {x q p z}, x ≠ 0 → doms x = some q → p ∈ cfg.predecessors x → p ∈ rpo → number p < number x →
    Above doms q z → number x < i ∨ i ≤ number z → Above doms p z

variable {doms : BasicBlockId → Option BasicBlockId} {i : Nat} {b c : BasicBlockId}

variable {d : BasicBlockId}

/-- Dominators stand above the blocks they dominate. -/
theorem Settling.above_of_dominates (h : Settling cfg rpo number doms i) (hx : ∃ u, doms x = some u)
    (hd : cfg.Dominates d x) : Above doms x d := by
  induction hn : number x using Nat.strong_induction_on generalizing x with
  | _ n ih =>
    subst hn
    by_cases hdx : d = x
    · subst hdx
      exact .refl
    by_cases hroot : x = 0
    · exact absurd (Dominance.Dominates.eq_of_root hd hroot) hdx
    obtain ⟨u, hu⟩ := hx
    have hless := h.tree.decreasing hroot hu
    exact .head hu (ih (number u) hless (h.tree.closed hu) (h.keeps hroot hu hd hdx) rfl)

/-- A dominator of a block dominates what stands between the two. -/
theorem Settling.dominates_between (h : Settling cfg rpo number doms i) {y : BasicBlockId}
    (hd : cfg.Dominates d x) (hxy : Above doms x y) (hyd : Above doms y d) : cfg.Dominates d y := by
  induction hxy using Relation.ReflTransGen.head_induction_on with
  | refl => exact hd
  | @head x u hstep hrest ih =>
    by_cases hroot : x = 0
    · subst hroot
      obtain rfl := Option.some.inj (h.tree.root.symm.trans hstep)
      exact ih hd
    · have hless := h.tree.decreasing hroot hstep
      have hle := h.tree.number_le hrest
      have hle' := h.tree.number_le hyd
      have hne : d ≠ x := by
        rintro rfl
        omega
      exact ih (h.keeps hroot hstep hd hne)

/-- The forward predecessor of a block whose turn it is has an entry. -/
theorem Settling.exists_forward (h : Settling cfg rpo number doms i) (hord : Ordered cfg rpo number)
    (hb : rpo[i]? = some b) (hne : b ≠ 0) :
    ∃ p ∈ rpo, p ∈ cfg.predecessors b ∧ number p < number b ∧ ∃ u, doms p = some u := by
  obtain ⟨p, hp, hpred, hlt⟩ := hord.forward (List.mem_of_getElem? hb) hne
  exact ⟨p, hp, hpred, hlt, h.handled hp (by rw [hord.numbered hb] at hlt; exact hlt)⟩

theorem Settling.root (h : Settling cfg rpo number doms i) (hord : Ordered cfg rpo number)
    (hb : rpo[i]? = some 0) :
    Settling cfg rpo number doms (i + 1) := by
  have hi : i = 0 := by rw [← hord.numbered hb, hord.number_root]
  subst hi
  have hzero : ∀ {x}, x ∈ rpo → number x < 1 → x = 0 := fun hx hlt =>
    hord.injective hx hord.root (by rw [hord.number_root]; omega)
  refine { h with handled := fun hx hlt => ?_, forward := fun hx hq hp hpr hlt hz hcase => ?_ }
  · rw [hzero hx hlt]
    exact ⟨0, h.tree.root⟩
  · refine h.forward hx hq hp hpr hlt hz (.inr (Nat.zero_le _))

/-- The parent is where the predecessors meet already. -/
theorem Settling.same (h : Settling cfg rpo number doms i) (hord : Ordered cfg rpo number)
    (hb : rpo[i]? = some b) (hc : doms b = some c)
    (hmeet : IsTree.IsMeet doms (known cfg doms b) c) :
    Settling cfg rpo number doms (i + 1) := by
  have hnumber := hord.numbered hb
  refine { h with
    handled := fun {x} hx hlt => ?_
    forward := fun {x q p z} hx hq hp hpr hlt hz hcase => ?_ }
  · by_cases hxb : x = b
    · exact ⟨c, by rw [hxb, hc]⟩
    · refine h.handled hx ?_
      have : number x ≠ number b := fun heq => hxb (hord.injective hx (List.mem_of_getElem? hb) heq)
      omega
  · by_cases hxb : x = b
    · subst hxb
      obtain rfl := Option.some.inj (hc.symm.trans hq)
      exact (hmeet.above p (mem_known.mpr ⟨hp, h.downward hq hpr hlt⟩)).trans hz
    · have hne : number x ≠ number b :=
        fun heq => hxb (hord.injective (h.listed hq) (List.mem_of_getElem? hb) heq)
      exact h.forward hx hq hp hpr hlt hz (by omega)

theorem Settling.moves (h : Settling cfg rpo number doms i) (hord : Ordered cfg rpo number)
    (hb : rpo[i]? = some b) (hne : b ≠ 0) (hmeet : IsTree.IsMeet doms (known cfg doms b) c)
    (hc : ∃ u, doms c = some u) :
    IsTree.Moves number doms b c where
  ne_root := hne
  number_lt := by
    obtain ⟨p, _, hpred, hlt, hp⟩ := h.exists_forward hord hb hne
    have := h.tree.number_le (hmeet.above p (mem_known.mpr ⟨hpred, hp⟩))
    omega
  parent := hc
  up hq := h.meets hne hq hmeet.above
  injective hy heq := hord.injective (List.mem_of_getElem? hb) (h.listed hy) heq

/-- A known predecessor stays known, and the only new one is the block that has been handled. -/
theorem known_update (hp : p ∈ cfg.predecessors x) (hu : ∃ u, doms p = some u) :
    p ∈ known cfg (Function.update doms b (some c)) x := by
  obtain ⟨u, hu⟩ := hu
  refine mem_known.mpr ⟨hp, ?_⟩
  by_cases hpb : p = b
  · exact ⟨c, by rw [hpb, Function.update_self]⟩
  · exact ⟨u, by rw [Function.update_of_ne hpb, hu]⟩

theorem Settling.move_keeps (h : Settling cfg rpo number doms i) (hord : Ordered cfg rpo number)
    (hb : rpo[i]? = some b) (hne : b ≠ 0) (hmeet : IsTree.IsMeet doms (known cfg doms b) c)
    (hd : cfg.Dominates d b) (hdb : d ≠ b) :
    cfg.Dominates d c := by
  -- a dominator of the block dominates its predecessors, so it stands above all of them
  have habove : ∀ p ∈ known cfg doms b, cfg.Dominates d p ∧ Above doms p d := by
    intro p hp
    obtain ⟨hpred, hknown⟩ := mem_known.mp hp
    have hdp : cfg.Dominates d p := Dominance.Dominates.pred hd hdb (hord.edge.mp hpred)
    exact ⟨hdp, h.above_of_dominates hknown hdp⟩
  obtain ⟨p, _, hpred, _, hp⟩ := h.exists_forward hord hb hne
  have hmem : p ∈ known cfg doms b := mem_known.mpr ⟨hpred, hp⟩
  exact h.dominates_between (habove p hmem).1 (hmeet.above p hmem)
    (hmeet.last d fun p hp => (habove p hp).2)

theorem Settling.move_meets (h : Settling cfg rpo number doms i) (hord : Ordered cfg rpo number)
    (hb : rpo[i]? = some b) (hmeet : IsTree.IsMeet doms (known cfg doms b) c)
    (hmoves : IsTree.Moves number doms b c) {q z : BasicBlockId} (hx : x ≠ 0)
    (hq : Function.update doms b (some c) x = some q)
    (hz : ∀ p ∈ known cfg (Function.update doms b (some c)) x, Above
      (Function.update doms b (some c)) p z) :
    Above (Function.update doms b (some c)) q z := by
  have htree := h.tree.update hmoves
  have hbefore : ∀ p ∈ known cfg doms x, Above doms p z := by
    intro p hp
    obtain ⟨hpred, hknown⟩ := mem_known.mp hp
    exact h.tree.above_of_update hmoves (hz p (known_update hpred hknown)) hknown
  by_cases hxb : x = b
  · subst hxb
    rw [Function.update_self] at hq
    obtain rfl := Option.some.inj hq
    exact IsTree.above_update_of_not (hmeet.last z hbefore) (h.tree.not_above_of_lt hmoves.number_lt)
  · rw [Function.update_of_ne hxb] at hq
    have hqz := h.meets hx hq hbefore
    by_cases hzb : number b ≤ number z
    · exact h.tree.above_update_of_le hmoves hqz hzb
    by_cases hqb : Above doms q b
    · -- the parent is below the moved block, and by the order of the pass so is a forward predecessor
      have hxr := h.listed hq
      have hlt := h.tree.decreasing hx hq
      have hle := h.tree.number_le hqb
      obtain ⟨p, hpr, hpred, hplt⟩ := hord.forward hxr hx
      have hnumber := hord.numbered hb
      have hpb : Above doms p b := h.forward hx hq hpred hpr hplt hqb (.inr (by omega))
      have hpb' := h.tree.above_update_of_le hmoves hpb (Nat.le_refl _)
      have hpz := hz p (known_update hpred (h.downward hq hpr hplt))
      have hbz := htree.above_of_above hpb' hpz (by omega)
      exact (h.tree.above_update_of_le hmoves hqb (Nat.le_refl _)).trans hbz
    · exact IsTree.above_update_of_not hqz hqb

theorem Settling.move_forward (h : Settling cfg rpo number doms i) (hord : Ordered cfg rpo number)
    (hb : rpo[i]? = some b) (hmeet : IsTree.IsMeet doms (known cfg doms b) c)
    (hmoves : IsTree.Moves number doms b c) {q z : BasicBlockId} (hx : x ≠ 0)
    (hq : Function.update doms b (some c) x = some q) (hp : p ∈ cfg.predecessors x) (hpr : p ∈ rpo)
    (hlt : number p < number x) (hz : Above (Function.update doms b (some c)) q z)
    (hcase : number x < i + 1 ∨ i + 1 ≤ number z) :
    Above (Function.update doms b (some c)) p z := by
  have hnumber := hord.numbered hb
  by_cases hxb : x = b
  · subst hxb
    rw [Function.update_self] at hq
    obtain rfl := Option.some.inj hq
    have hpc := hmeet.above p (mem_known.mpr ⟨hp, h.handled hpr (by omega)⟩)
    exact (IsTree.above_update_of_not hpc (h.tree.not_above_of_lt hlt)).trans hz
  · rw [Function.update_of_ne hxb] at hq
    have hne : number x ≠ number b :=
      fun heq => hxb (hord.injective (h.listed hq) (List.mem_of_getElem? hb) heq)
    have hqz := h.tree.above_of_update hmoves hz (h.tree.closed hq)
    have hpz := h.forward hx hq hp hpr hlt hqz (by omega)
    rcases hcase with hbefore | hafter
    · exact IsTree.above_update_of_not hpz (h.tree.not_above_of_lt (by omega))
    · exact h.tree.above_update_of_le hmoves hpz (by omega)

/-- The block moves to where its predecessors meet. -/
theorem Settling.move (h : Settling cfg rpo number doms i) (hord : Ordered cfg rpo number)
    (hb : rpo[i]? = some b) (hne : b ≠ 0) (hmeet : IsTree.IsMeet doms (known cfg doms b) c)
    (hc : ∃ u, doms c = some u) :
    Settling cfg rpo number (Function.update doms b (some c)) (i + 1) := by
  have hmoves := h.moves hord hb hne hmeet hc
  have hnumber := hord.numbered hb
  have hbr := List.mem_of_getElem? hb
  refine ⟨h.tree.update hmoves, ?_, ?_, ?_, ?_, fun hx hq hz => h.move_meets hord hb hmeet hmoves hx hq hz,
    fun hx hq hp hpr hlt hz hcase => h.move_forward hord hb hmeet hmoves hx hq hp hpr hlt hz hcase⟩
  -- by the block that moves and the others
  · intro x u hu
    by_cases hxb : x = b
    · exact hxb ▸ hbr
    · rw [Function.update_of_ne hxb] at hu
      exact h.listed hu
  · intro x hx hlt
    by_cases hxb : x = b
    · exact ⟨c, by rw [hxb, Function.update_self]⟩
    · have : number x ≠ number b := fun heq => hxb (hord.injective hx hbr heq)
      rw [Function.update_of_ne hxb]
      exact h.handled hx (by omega)
  · intro x u y hu hy hlt
    by_cases hyb : y = b
    · exact ⟨c, by rw [hyb, Function.update_self]⟩
    · rw [Function.update_of_ne hyb]
      by_cases hxb : x = b
      · subst hxb
        exact h.handled hy (by omega)
      · rw [Function.update_of_ne hxb] at hu
        exact h.downward hu hy hlt
  · intro x y d hx hy hd hdx
    by_cases hxb : x = b
    · subst hxb
      rw [Function.update_self] at hy
      obtain rfl := Option.some.inj hy
      exact h.move_keeps hord hb hx hmeet hd hdx
    · rw [Function.update_of_ne hxb] at hy
      exact h.keeps hx hy hd hdx

/-! ## Passes -/

/-- How far up an entry points; no entry is below all of them. -/
def rank (rpo : List BasicBlockId) (number : BasicBlockId → Nat) : Option BasicBlockId → Nat
  | none => 0
  | some q => rpo.length - number q

/-- What every change makes larger. -/
def height (rpo : List BasicBlockId) (number : BasicBlockId → Nat)
    (doms : BasicBlockId → Option BasicBlockId) : Nat :=
  (rpo.map fun x => rank rpo number (doms x)).sum

theorem height_le (rpo : List BasicBlockId) (number : BasicBlockId → Nat)
    (doms : BasicBlockId → Option BasicBlockId) :
    height rpo number doms ≤ rpo.length * rpo.length := by
  have hle := List.sum_le_card_nsmul (rpo.map fun x => rank rpo number (doms x)) rpo.length (by
    intro n hn
    obtain ⟨x, _, rfl⟩ := List.mem_map.mp hn
    cases doms x with
    | none => exact Nat.zero_le _
    | some q => exact Nat.sub_le _ _)
  simpa [height] using hle

theorem height_update_lt (hb : b ∈ rpo) (h : rank rpo number (doms b) < rank rpo number (some c)) :
    height rpo number doms < height rpo number (Function.update doms b (some c)) := by
  refine List.sum_lt_sum _ _ (fun x _ => ?_) ⟨b, hb, ?_⟩
  · by_cases hxb : x = b
    · rw [hxb, Function.update_self]
      exact Nat.le_of_lt h
    · rw [Function.update_of_ne hxb]
  · rw [Function.update_self]
    exact h

/-- The entry of a block is where its predecessors meet. -/
def Met (cfg : ControlFlowGraph) (doms : BasicBlockId → Option BasicBlockId) (b : BasicBlockId) : Prop :=
  b ≠ 0 → ∃ c, doms b = some c ∧ IsTree.IsMeet doms (known cfg doms b) c

theorem dominatorStep_eq (fuel : Nat) (changed : Bool) (hne : b ≠ 0) :
    cfg.dominatorStep fuel number (doms, changed) b =
      ((cfg.predecessors b).foldlM (IsTree.meetPredecessor fuel number doms) none).bind fun newIdom =>
        match newIdom with
        | none => some (doms, changed)
        | some d =>
          if doms b = some d then some (doms, changed)
            else some (Function.update doms b (some d), true) := by
  rw [dominatorStep, if_neg hne]
  rfl

theorem Settling.turn (h : Settling cfg rpo number doms i) (hord : Ordered cfg rpo number)
    (hb : rpo[i]? = some b) (hfuel : 2 * rpo.length + 1 < fuel) (changed : Bool) :
    ∃ st, cfg.dominatorStep fuel number (doms, changed) b = some st ∧ Settling cfg rpo number st.1 (i + 1) ∧
      (st = (doms, changed) ∧ Met cfg doms b ∨ st.2 = true ∧ height rpo number doms <
        height rpo number st.1) := by
  -- the entry block is left out of every pass
  by_cases hne : b = 0
  · subst hne
    exact ⟨_, rfl, h.root hord hb, .inl ⟨rfl, fun hne => absurd rfl hne⟩⟩
  · obtain ⟨r, hr, hnone, hsome⟩ := h.tree.meetPredecessors_spec hfuel
      (fun hx => Nat.le_of_lt (hord.number_lt (h.listed hx))) (cfg.predecessors b)
    rw [dominatorStep_eq fuel changed hne, hr]
    cases r with
    -- some predecessor comes earlier in the order and has its entry
    | none =>
      obtain ⟨p, _, hpred, _, u, hu⟩ := h.exists_forward hord hb hne
      rw [hnone rfl p hpred] at hu
      cases hu
    | some c =>
      obtain ⟨hmeet, hc⟩ := hsome c rfl
      by_cases hsame : doms b = some c
      · refine ⟨(doms, changed),
          by simp [hsame], h.same hord hb hsame hmeet, .inl ⟨rfl, fun _ => ⟨c, hsame, hmeet⟩⟩⟩
      -- an entry that changes moves up the tree
      · refine ⟨(Function.update doms b (some c), true),
          by simp [hsame], h.move hord hb hne hmeet hc, .inr ⟨rfl, ?_⟩⟩
        obtain ⟨u, hu⟩ := hc
        have hlt := hord.number_lt (h.listed hu)
        refine height_update_lt (List.mem_of_getElem? hb) ?_
        cases hq : doms b with
        | none =>
          show 0 < rpo.length - number c
          omega
        | some q =>
          have hqc : c ≠ q := fun heq => hsame (by rw [hq, heq])
          have := h.tree.number_lt hqc (h.meets hne hq hmeet.above)
          show rpo.length - number q < rpo.length - number c
          omega

theorem Settling.pass (hord : Ordered cfg rpo number) (hfuel : 2 * rpo.length + 1 < fuel)
    {rest : List BasicBlockId} (hrest : rpo.drop i = rest) (h : Settling cfg rpo number doms i)
    (changed : Bool) :
    ∃ st, rest.foldlM (cfg.dominatorStep fuel number) (doms, changed) = some st ∧
      Settling cfg rpo number st.1 rpo.length ∧
      (st = (doms, changed) ∧ (∀ b ∈ rest, Met cfg doms b) ∨
        st.2 = true ∧ height rpo number doms < height rpo number st.1) := by
  induction rest generalizing i doms changed with
  | nil =>
    have hlength : rpo.length ≤ i := List.drop_eq_nil_iff.mp hrest
    refine ⟨(doms, changed), rfl, { h with handled := fun hx _ => ?_, forward := ?_ }, .inl ⟨rfl, by simp⟩⟩
    · have := hord.number_lt hx
      exact h.handled hx (by omega)
    · intro x q p z hx hq hp hpr hlt hz _
      have := hord.number_lt (h.listed hq)
      exact h.forward hx hq hp hpr hlt hz (.inl (by omega))
  | cons b rest ih =>
    have hb : rpo[i]? = some b := by
      rw [← List.head?_drop, hrest]
      rfl
    have hrest' : rpo.drop (i + 1) = rest := by
      rw [← List.drop_drop, hrest]
      rfl
    obtain ⟨st1, hturn, hsettling, hcase⟩ := h.turn hord hb hfuel changed
    obtain ⟨st, hpass, hend, hcase'⟩ := ih hrest' hsettling st1.2
    refine ⟨st, by rw [List.foldlM_cons, hturn]; exact hpass, hend, ?_⟩
    -- the pass has changed something if one of its turns has
    rcases hcase with ⟨rfl, hmet⟩ | ⟨hflag, hlt⟩
    · rcases hcase' with ⟨rfl, hall⟩ | hclimb
      · exact .inl ⟨rfl, List.forall_mem_cons.mpr ⟨hmet, hall⟩⟩
      · exact .inr hclimb
    · right
      rcases hcase' with ⟨rfl, _⟩ | ⟨hflag', hlt'⟩
      · exact ⟨hflag, hlt⟩
      · exact ⟨hflag', by omega⟩

/-- After a pass the next one can start. -/
theorem Settling.restart (h : Settling cfg rpo number doms rpo.length) (hord : Ordered cfg rpo number) :
    Settling cfg rpo number doms 0 := by
  refine { h with handled := fun _ hlt => absurd hlt (Nat.not_lt_zero _), forward := ?_ }
  intro x q p z hx hq hp hpr hlt hz _
  exact h.forward hx hq hp hpr hlt hz (.inl (hord.number_lt (h.listed hq)))

/-- The passes end, in a table in which every block points to where its predecessors meet. -/
theorem Settling.loop (hord : Ordered cfg rpo number) {turns : Nat} (hfuel : 2 * rpo.length + 1 < fuel)
    (h : Settling cfg rpo number doms 0)
    (hturns : rpo.length * rpo.length < turns + height rpo number doms) :
    ∃ idom, cfg.dominatorLoop fuel rpo number turns doms = some idom ∧
      Settling cfg rpo number idom rpo.length ∧
      ∀ b ∈ rpo, Met cfg idom b := by
  induction turns generalizing doms with
  | zero =>
    have := height_le rpo number doms
    omega
  | succ turns ih =>
    obtain ⟨st, hpass, hend, hcase⟩ := Settling.pass hord hfuel rfl h false
    rw [List.drop_zero] at hpass hcase
    rw [dominatorLoop, hpass]
    rcases hcase with ⟨rfl, hmet⟩ | ⟨hflag, hlt⟩
    · exact ⟨doms, rfl, hend, hmet⟩
    · obtain ⟨idom, hloop, hrest⟩ := ih (hend.restart hord) (by omega)
      exact ⟨idom, by simpa [hflag] using hloop, hrest⟩

/-- The table of the entry block alone. -/
theorem settling_start (hord : Ordered cfg rpo number) :
    Settling cfg rpo number (Function.update (fun _ => none) 0 (some 0)) 0 := by
  -- there is one entry
  have honly : ∀ {x u : BasicBlockId}, Function.update (fun _ => none) 0 (some 0) x = some u →
      x = 0 ∧ u = 0 := by
    intro x u hu
    by_cases hx : x = 0
    · subst hx
      rw [Function.update_self] at hu
      exact ⟨rfl, (Option.some.inj hu).symm⟩
    · rw [Function.update_of_ne hx] at hu
      cases hu
  refine ⟨⟨Function.update_self _ _ _, hord.number_root, ?_, ?_, ?_⟩, ?_, ?_, ?_, ?_, ?_, ?_⟩
  · intro x y h
    rw [(honly h).2]
    exact ⟨0, Function.update_self _ _ _⟩
  · exact fun hx h => absurd (honly h).1 hx
  · intro x y u v hx hy _
    rw [(honly hx).1, (honly hy).1]
  · intro x u h
    rw [(honly h).1]
    exact hord.root
  · exact fun _ h => absurd h (Nat.not_lt_zero _)
  · intro x u y h _ hlt
    rw [(honly h).1, hord.number_root] at hlt
    omega
  · exact fun hx h => absurd (honly h).1 hx
  · exact fun hx h => absurd (honly h).1 hx
  · exact fun hx h => absurd (honly h).1 hx

/-! ## The result -/

theorem length_reversePostorder_le {rpo : List BasicBlockId}
    (h : (build mir).reversePostorder fuel = some rpo) :
    rpo.length ≤ mir.blocks.length + 1 := by
  have hord := ordered_reversePostorder h
  have hnodup : rpo.Nodup := by
    refine List.nodup_iff_injective_getElem.mpr fun i j heq => Fin.ext ?_
    have hi := hord.numbered (List.getElem?_eq_getElem i.isLt)
    have hj := hord.numbered (List.getElem?_eq_getElem j.isLt)
    exact hi.symm.trans ((congrArg (rpoNumber rpo) heq).trans hj)
  have hsub : rpo ⊆ 0 :: List.range mir.blocks.length := by
    intro x hx
    rcases (hord.mem_iff.mp hx).cases_tail with rfl | ⟨p, _, hp⟩
    · exact List.mem_cons_self
    · obtain ⟨_, _, _, _, hs⟩ := exists_block?_of_mem_successors hp
      exact List.mem_cons_of_mem _ (List.mem_range.mpr (MirFunction.block?_lt hs))
  simpa using (hnodup.subperm hsub).length_le

/-- Enough turns for every loop over the blocks of a function. -/
def turnsFor (mir : MirFunction) : Nat :=
  (mir.blocks.length + 2) * (mir.blocks.length + 2) + 2 * mir.blocks.length + 4

/-- The loops of `dominators` end, and the table is settled. -/
theorem dominators_isSome (mir : MirFunction) (hfuel : turnsFor mir < fuel) :
    ∃ rpo idom, (build mir).reversePostorder fuel = some rpo ∧ (build mir).dominators fuel = some idom ∧
      Settling (build mir) rpo (rpoNumber rpo) idom rpo.length ∧ ∀ b ∈ rpo, Met (build mir) idom b := by
  have hsquare : mir.blocks.length + 2 ≤ (mir.blocks.length + 2) * (mir.blocks.length + 2) :=
    Nat.le_mul_self _
  unfold turnsFor at hfuel
  obtain ⟨rpo, hrpo⟩ := reversePostorder_isSome mir (show mir.blocks.length + 1 < fuel by omega)
  have hord := ordered_reversePostorder hrpo
  have hlength := length_reversePostorder_le hrpo
  have hmul : rpo.length * rpo.length ≤ (mir.blocks.length + 2) * (mir.blocks.length + 2) :=
    Nat.mul_le_mul (by omega) (by omega)
  obtain ⟨idom, hidom, hsettled, hmet⟩ := Settling.loop hord (show 2 * rpo.length + 1 < fuel by omega)
    (settling_start hord) (show _ < fuel + _ by omega)
  exact ⟨rpo, idom, hrpo, by rw [dominators, hrpo]; exact hidom, hsettled, hmet⟩

/-- What stands above a block in the final tree is on every path to it. -/
theorem Settling.above_iff_dominates (h : Settling cfg rpo number doms rpo.length)
    (hord : Ordered cfg rpo number) (hmet : ∀ b ∈ rpo, Met cfg doms b) {a b : BasicBlockId}
    (hb : b ∈ rpo) : Above doms b a ↔ cfg.Dominates a b := by
  have hall : ∀ {x}, x ∈ rpo → ∃ u, doms x = some u := fun hx => h.handled hx (hord.number_lt hx)
  refine ⟨fun habove => ?_, h.above_of_dominates (hall hb)⟩
  refine dominates_of_invariant (R := fun x => Above doms x a) ?_ ?_ habove
  · rintro r rfl hr
    exact h.tree.above_root hr
  · rintro p b ⟨r, rfl, hreaches⟩ he hba
    have hp : p ∈ rpo := hord.mem_iff.mpr hreaches
    have hb : b ∈ rpo := hord.mem_iff.mpr (hreaches.tail he)
    by_cases hroot : b = 0
    · subst hroot
      exact .inl (h.tree.above_root hba)
    obtain ⟨c, hc, hmeet⟩ := hmet b hb hroot
    rcases hba.cases_head with rfl | ⟨u, hu, hua⟩
    · exact .inl rfl
    · obtain rfl := Option.some.inj (hc.symm.trans hu)
      exact .inr ((hmeet.above p (mem_known.mpr ⟨hord.edge.mpr he, hall hp⟩)).trans hua)

end ControlFlowGraph

end ShapeLang.Mir
