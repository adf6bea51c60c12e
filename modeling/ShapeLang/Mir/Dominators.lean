import ShapeLang.Lib.Fixpoint
import ShapeLang.Mir.Cfg

/-!
# ShapeLang — traversal orders and dominators

The traversals of `crates/shape-vm/src/mir/cfg.rs`: reverse postorder, immediate dominators by the
iterative dataflow algorithm, reachability from the entry by breadth-first search. The loops and the
recursion carry a bound on their turns and return `none` when it is used up, so a result is always
the result of a finished run, whatever the bound.

What later modules use of them:

  * `mem_reversePostorder` — a finished traversal lists every block the entry reaches, and
    `reaches_of_mem_reversePostorder` no other; `reversePostorder_isSome` — traversals finish;
  * `not_reaches_of_isReachable_false` — a search that answers `false` was right.
-/

namespace ShapeLang.Mir

namespace ControlFlowGraph

variable (cfg : ControlFlowGraph)

/-- `b` can be reached from `a` along the graph's edges. -/
abbrev Reaches (a b : BasicBlockId) : Prop :=
  Relation.ReflTransGen (fun x y => y ∈ cfg.successors x) a b

/-! ## Reverse postorder -/

/-- The recursive visit: `visited` and `postorder` are threaded through. -/
def dfsPostorder : Nat → BasicBlockId → List BasicBlockId × List BasicBlockId →
    Option (List BasicBlockId × List BasicBlockId)
  | 0, _, _ => none
  | fuel + 1, block, (visited, postorder) =>
      if block ∈ visited then some (visited, postorder)
      else do
        let st ← (cfg.successors block).foldlM (fun st succ => dfsPostorder fuel succ st)
          (block :: visited, postorder)
        some (st.1, st.2 ++ [block])

def reversePostorder (fuel : Nat) : Option (List BasicBlockId) := do
  let st ← cfg.dfsPostorder fuel 0 ([], [])
  some st.2.reverse

/-! ## Dominators -/

/-- Climb from `a` until its number is not above that of `b`. -/
def climb (number : BasicBlockId → Nat) (doms : BasicBlockId → Option BasicBlockId) :
    Nat → BasicBlockId → BasicBlockId → Option BasicBlockId
  | 0, _, _ => none
  | fuel + 1, a, b =>
      if number a > number b then climb number doms fuel ((doms a).getD a) b else some a

/-- Walk both arguments up to their common dominator. -/
def intersect (number : BasicBlockId → Nat) (doms : BasicBlockId → Option BasicBlockId) :
    Nat → BasicBlockId → BasicBlockId → Option BasicBlockId
  | 0, _, _ => none
  | fuel + 1, a, b =>
      if a = b then some a
      else do
        let a' ← climb number doms fuel a b
        let b' ← climb number doms fuel b a'
        intersect number doms fuel a' b'

/-- One block of a dominator pass: intersect the predecessors that already have an entry. -/
def dominatorStep (fuel : Nat) (number : BasicBlockId → Nat)
    (st : (BasicBlockId → Option BasicBlockId) × Bool) (b : BasicBlockId) :
    Option ((BasicBlockId → Option BasicBlockId) × Bool) :=
  if b = 0 then some st
  else do
    let newIdom ← (cfg.predecessors b).foldlM (fun acc p =>
      if (st.1 p).isNone then some acc
      else match acc with
        | none => some (some p)
        | some current => (intersect number st.1 fuel current p).map some) none
    match newIdom with
    | none => some st
    | some d => if st.1 b = some d then some st else some (Function.update st.1 b (some d), true)

def dominatorLoop (fuel : Nat) (rpo : List BasicBlockId) (number : BasicBlockId → Nat) :
    Nat → (BasicBlockId → Option BasicBlockId) → Option (BasicBlockId → Option BasicBlockId)
  | 0, _ => none
  | turns + 1, doms => do
      let st ← rpo.foldlM (cfg.dominatorStep fuel number) (doms, false)
      if st.2 then dominatorLoop fuel rpo number turns st.1 else some st.1

/-- Immediate dominators; the entry is its own. -/
def dominators (fuel : Nat) : Option (BasicBlockId → Option BasicBlockId) := do
  let rpo ← cfg.reversePostorder fuel
  cfg.dominatorLoop fuel rpo (fun b => (rpo.findIdx? (· == b)).getD 0) fuel
    (Function.update (fun _ => none) 0 (some 0))

/-! ## Reachability from the entry -/

/-- `if visited.insert(succ) { queue.push_back(succ) }` for each successor. -/
def enqueue (succs : List BasicBlockId) (queue visited : List BasicBlockId) :
    List BasicBlockId × List BasicBlockId :=
  succs.foldl (fun (queue, visited) succ =>
    if succ ∈ visited then (queue, visited) else (queue ++ [succ], succ :: visited)) (queue, visited)

def search (target : BasicBlockId) : Nat → List BasicBlockId → List BasicBlockId → Option Bool
  | _, [], _ => some false
  | 0, _ :: _, _ => none
  | fuel + 1, block :: queue, visited =>
      if block = target then some true
      else
        let st := enqueue (cfg.successors block) queue visited
        search target fuel st.1 st.2

def isReachable (fuel : Nat) (target : BasicBlockId) : Option Bool := cfg.search target fuel [0] [0]

/-! ## A finished postorder is complete -/

/-- What a visit that started from `st` and ended in `st'` has achieved: the nodes it added have all
their successors visited and are listed. -/
structure DfsStep (st st' : List BasicBlockId × List BasicBlockId) : Prop where
  visited_mono : ∀ x ∈ st.1, x ∈ st'.1
  postorder_mono : ∀ x ∈ st.2, x ∈ st'.2
  closed : ∀ x ∈ st'.1, x ∉ st.1 → ∀ y ∈ cfg.successors x, y ∈ st'.1
  listed : ∀ x ∈ st'.1, x ∉ st.1 → x ∈ st'.2

variable {cfg}

theorem DfsStep.refl (st : List BasicBlockId × List BasicBlockId) : DfsStep cfg st st :=
  ⟨fun _ h => h, fun _ h => h, fun _ h hn => absurd h hn, fun _ h hn => absurd h hn⟩

variable {st st' : List BasicBlockId × List BasicBlockId}

theorem DfsStep.trans {st'' : List BasicBlockId × List BasicBlockId} (h : DfsStep cfg st st')
    (h' : DfsStep cfg st' st'') :
    DfsStep cfg st st'' := by
  refine ⟨fun x hx => h'.visited_mono x (h.visited_mono x hx),
    fun x hx => h'.postorder_mono x (h.postorder_mono x hx), fun x hx hn y hy => ?_,
    fun x hx hn => ?_⟩
  · by_cases hx' : x ∈ st'.1
    · exact h'.visited_mono y (h.closed x hx' hn y hy)
    · exact h'.closed x hx hx' y hy
  · by_cases hx' : x ∈ st'.1
    · exact h'.postorder_mono x (h.listed x hx' hn)
    · exact h'.listed x hx hx'

variable {succs : List BasicBlockId}

/-- Visiting a list of successors in turn. -/
theorem dfsStep_foldlM
    {f : BasicBlockId → List BasicBlockId × List BasicBlockId →
      Option (List BasicBlockId × List BasicBlockId)}
    (hf : ∀ b st st', f b st = some st' → DfsStep cfg st st' ∧ b ∈ st'.1)
    (h : succs.foldlM (fun st succ => f succ st) st = some st') :
    DfsStep cfg st st' ∧ ∀ b ∈ succs, b ∈ st'.1 := by
  induction succs generalizing st with
  | nil =>
    obtain rfl : st = st' := by simpa using h
    exact ⟨.refl st, fun b hb => absurd hb List.not_mem_nil⟩
  | cons b succs ih =>
    rw [List.foldlM_cons] at h
    obtain ⟨st1, h1, h2⟩ := Option.bind_eq_some_iff.mp h
    obtain ⟨hstep, hb⟩ := hf b st st1 h1
    obtain ⟨hrest, hall⟩ := ih h2
    refine ⟨hstep.trans hrest, fun c hc => ?_⟩
    rcases List.mem_cons.mp hc with rfl | hc
    · exact hrest.visited_mono _ hb
    · exact hall c hc

variable {fuel : Nat} {block : BasicBlockId}

theorem dfsPostorder_step (h : cfg.dfsPostorder fuel block st = some st') :
    DfsStep cfg st st' ∧ block ∈ st'.1 := by
  induction fuel generalizing block st st' with
  | zero => cases h
  | succ fuel ih =>
    obtain ⟨visited, postorder⟩ := st
    rw [dfsPostorder] at h
    split at h
    · rename_i hv
      obtain rfl : (visited, postorder) = st' := by simpa using h
      exact ⟨.refl _, hv⟩
    · rename_i hv
      -- the successors first, and then the block itself
      obtain ⟨st1, h1, h2⟩ := Option.bind_eq_some_iff.mp h
      obtain rfl : (st1.1, st1.2 ++ [block]) = st' := by simpa using h2
      obtain ⟨hsub, hsuccs⟩ := dfsStep_foldlM (fun b st st' => ih) h1
      have hblock : block ∈ st1.1 := hsub.visited_mono _ List.mem_cons_self
      refine ⟨⟨fun x hx => hsub.visited_mono x (List.mem_cons_of_mem _ hx), fun x hx =>
        List.mem_append_left _ (hsub.postorder_mono x hx), fun x hx hn y hy => ?_,
        fun x hx hn => ?_⟩, hblock⟩
      -- the block, or one that was entered below it
      · by_cases hxb : x = block
        · subst hxb
          exact hsuccs y hy
        · exact hsub.closed x hx (by simp [hxb]; exact hn) y hy
      · by_cases hxb : x = block
        · subst hxb
          exact List.mem_append_right _ (List.mem_singleton_self _)
        · exact List.mem_append_left _ (hsub.listed x hx (by simp [hxb]; exact hn))

variable {rpo : List BasicBlockId}

/-- **A finished traversal lists every block the entry reaches.** -/
theorem mem_reversePostorder (h : cfg.reversePostorder fuel = some rpo) {b : BasicBlockId}
    (hb : cfg.Reaches 0 b) :
    b ∈ rpo := by
  obtain ⟨st, hst, hrpo⟩ := Option.bind_eq_some_iff.mp h
  obtain rfl : st.2.reverse = rpo := by simpa using hrpo
  obtain ⟨hstep, hentry⟩ := dfsPostorder_step hst
  have hvisited : b ∈ st.1 := by
    induction hb with
    | refl => exact hentry
    | tail _ hs ih => exact hstep.closed _ ih List.not_mem_nil _ hs
  exact List.mem_reverse.mpr (hstep.listed b hvisited List.not_mem_nil)

/-- A traversal visits only what it reaches. -/
theorem reaches_of_dfsPostorder {root : BasicBlockId} (hroot : cfg.Reaches root block)
    (hst : ∀ x ∈ st.2, cfg.Reaches root x) (h : cfg.dfsPostorder fuel block st = some st') :
    ∀ x ∈ st'.2, cfg.Reaches root x := by
  induction fuel generalizing block st st' with
  | zero => cases h
  | succ fuel ih =>
    obtain ⟨visited, postorder⟩ := st
    rw [dfsPostorder] at h
    split at h
    · obtain rfl : (visited, postorder) = st' := by simpa using h
      exact hst
    · obtain ⟨st1, h1, h2⟩ := Option.bind_eq_some_iff.mp h
      obtain rfl : (st1.1, st1.2 ++ [block]) = st' := by simpa using h2
      -- over any successors, since the state changes on the way
      have hfold : ∀ (succs : List BasicBlockId) (st st' : List BasicBlockId × List BasicBlockId),
          (∀ s ∈ succs, s ∈ cfg.successors block) → (∀ x ∈ st.2, cfg.Reaches root x) →
          succs.foldlM (fun st succ => cfg.dfsPostorder fuel succ st) st = some st' →
          ∀ x ∈ st'.2, cfg.Reaches root x := by
        intro succs
        induction succs with
        | nil =>
          intro st st' _ hst h
          obtain rfl : st = st' := by simpa using h
          exact hst
        | cons s succs ihs =>
          intro st st' hsub hst h
          rw [List.foldlM_cons] at h
          obtain ⟨st2, h2, h3⟩ := Option.bind_eq_some_iff.mp h
          have hs : cfg.Reaches root s := hroot.tail (hsub s List.mem_cons_self)
          exact ihs st2 st' (fun x hx => hsub x (List.mem_cons_of_mem _ hx)) (ih hs hst h2) h3
      intro x hx
      rcases List.mem_append.mp hx with hx | hx
      · exact hfold _ (block :: visited, postorder) _ (fun s hs => hs) hst h1 x hx
      · rw [List.mem_singleton.mp hx]
        exact hroot

theorem reaches_of_mem_reversePostorder (h : cfg.reversePostorder fuel = some rpo)
    {b : BasicBlockId} (hb : b ∈ rpo) :
    cfg.Reaches 0 b := by
  obtain ⟨st, hst, hrpo⟩ := Option.bind_eq_some_iff.mp h
  obtain rfl : st.2.reverse = rpo := by simpa using hrpo
  exact reaches_of_dfsPostorder .refl (fun x hx => absurd hx List.not_mem_nil) hst b
    (List.mem_reverse.mp hb)

/-- **A traversal ends.** Each nested visit enters a block that was not visited before. -/
theorem dfsPostorder_isSome {nodes : Finset BasicBlockId}
    (hclosed : ∀ x ∈ nodes, ∀ y ∈ cfg.successors x, y ∈ nodes) {fuel : Nat} {block : BasicBlockId}
    (hblock : block ∈ nodes) {st : List BasicBlockId × List BasicBlockId}
    (hfuel : (nodes.filter (· ∉ st.1)).card < fuel) :
    ∃ st', cfg.dfsPostorder fuel block st = some st' := by
  induction fuel generalizing block st with
  | zero => omega
  | succ fuel ih =>
    obtain ⟨visited, postorder⟩ := st
    rw [dfsPostorder]
    split
    · exact ⟨_, rfl⟩
    · rename_i hv
      -- entering a block leaves fewer to enter, and nothing below adds one
      have hless : (nodes.filter (· ∉ block :: visited)).card < (nodes.filter (· ∉ visited)).card := by
        refine Finset.card_lt_card (Finset.ssubset_iff_of_subset ?_ |>.mpr ⟨block, ?_, ?_⟩)
        · intro x hx
          simp only [Finset.mem_filter, List.mem_cons, not_or] at hx ⊢
          exact ⟨hx.1, hx.2.2⟩
        · simp [hblock, hv]
        · simp
      have hfold : ∀ (succs : List BasicBlockId) (st : List BasicBlockId × List BasicBlockId),
          (∀ s ∈ succs, s ∈ nodes) → (∀ x ∈ block :: visited, x ∈ st.1) →
          ∃ st', succs.foldlM (fun st succ => cfg.dfsPostorder fuel succ st) st = some st' := by
        intro succs
        induction succs with
        | nil => exact fun st _ _ => ⟨st, rfl⟩
        | cons s succs ihs =>
          intro st hsub hvisited
          have hcard : (nodes.filter (· ∉ st.1)).card ≤ (nodes.filter (· ∉ block :: visited)).card := by
            refine Finset.card_le_card fun x hx => ?_
            simp only [Finset.mem_filter] at hx ⊢
            exact ⟨hx.1, fun hmem => hx.2 (hvisited x hmem)⟩
          obtain ⟨st1, h1⟩ := @ih s (hsub s List.mem_cons_self) st (by simp only at hfuel; omega)
          have hmono := (dfsPostorder_step h1).1.visited_mono
          obtain ⟨st2, h2⟩ := ihs st1 (fun x hx => hsub x (List.mem_cons_of_mem _ hx))
            fun x hx => hmono x (hvisited x hx)
          refine ⟨st2, ?_⟩
          rw [List.foldlM_cons, h1]
          exact h2
      obtain ⟨st1, h1⟩ := hfold (cfg.successors block) (block :: visited, postorder) (hclosed block hblock)
        fun x hx => hx
      exact ⟨(st1.1, st1.2 ++ [block]), by rw [h1]; rfl⟩

theorem reversePostorder_isSome (mir : MirFunction) {fuel : Nat} (hfuel : mir.blocks.length + 1 < fuel) :
    ∃ rpo, (build mir).reversePostorder fuel = some rpo := by
  have hclosed : ∀ x ∈ insert 0 (Finset.range mir.blocks.length), ∀ y ∈ (build mir).successors x,
      y ∈ insert 0 (Finset.range mir.blocks.length) := by
    intro x _ y hy
    obtain ⟨blk, hblk, -, sblk, hs⟩ := exists_block?_of_mem_successors hy
    exact Finset.mem_insert_of_mem (Finset.mem_range.mpr (MirFunction.block?_lt hs))
  have hcard : ((insert 0 (Finset.range mir.blocks.length)).filter
    (· ∉ ([] : List BasicBlockId))).card < fuel := by
    have hle := Finset.card_insert_le 0 (Finset.range mir.blocks.length)
    rw [Finset.card_range] at hle
    exact lt_of_le_of_lt (Finset.card_filter_le _ _) (by omega)
  obtain ⟨st, hst⟩ := @dfsPostorder_isSome (build mir) _ hclosed fuel 0 (Finset.mem_insert_self _ _)
      ([], []) hcard
  exact ⟨st.2.reverse, by rw [reversePostorder, hst]; rfl⟩

/-! ## A negative search is right -/

variable {queue visited : List BasicBlockId}

theorem mem_enqueue {x : BasicBlockId} :
    (x ∈ (enqueue succs queue visited).2 ↔ x ∈ visited ∨ x ∈ succs) ∧
    (x ∈ queue → x ∈ (enqueue succs queue visited).1) ∧
    (x ∈ succs → x ∉ visited → x ∈ (enqueue succs queue visited).1) := by
  induction succs generalizing queue visited with
  | nil => simp [enqueue]
  | cons s succs ih =>
    rw [enqueue, List.foldl_cons]
    simp only
    -- a successor that is marked is not queued again
    split
    · rename_i hs
      obtain ⟨h1, h2, h3⟩ := @ih queue visited
      rw [enqueue] at h1 h2 h3
      refine ⟨?_, h2, ?_⟩
      · rw [h1, List.mem_cons]
        constructor
        · tauto
        · rintro (h | rfl | h)
          · exact Or.inl h
          · exact Or.inl hs
          · exact Or.inr h
      · intro hx hn
        rcases List.mem_cons.mp hx with rfl | hx
        · exact absurd hs hn
        · exact h3 hx hn
    · rename_i hs
      obtain ⟨h1, h2, h3⟩ := @ih (queue ++ [s]) (s :: visited)
      rw [enqueue] at h1 h2 h3
      refine ⟨?_, fun hx => h2 (List.mem_append_left _ hx), ?_⟩
      · rw [h1, List.mem_cons, List.mem_cons]
        tauto
      · intro hx hn
        rcases List.mem_cons.mp hx with rfl | hx
        · exact h2 (List.mem_append_right _ (List.mem_singleton_self _))
        · by_cases hxs : x = s
          · subst hxs
            exact h2 (List.mem_append_right _ (List.mem_singleton_self _))
          · exact h3 hx (by simp [hxs, hn])

variable {target : BasicBlockId}

/-- Visited blocks that left the queue are not the target and have their successors visited. -/
theorem search_false (h : cfg.search target fuel queue visited = some false)
    (hinv : ∀ x ∈ visited, x ∈ queue ∨ x ≠ target ∧ ∀ y ∈ cfg.successors x, y ∈ visited) :
    ∃ closed : List BasicBlockId, (∀ x ∈ visited, x ∈ closed) ∧
      ∀ x ∈ closed, x ≠ target ∧ ∀ y ∈ cfg.successors x, y ∈ closed := by
  induction fuel generalizing queue visited with
  | zero =>
    cases queue with
    | nil => exact ⟨visited, fun x hx => hx, fun x hx => by simpa using hinv x hx⟩
    | cons b queue => simp [search] at h
  | succ fuel ih =>
    cases queue with
    | nil => exact ⟨visited, fun x hx => hx, fun x hx => by simpa using hinv x hx⟩
    | cons b queue =>
      rw [search] at h
      split at h
      · cases h
      · rename_i hb
        have hold : ∀ x ∈ visited, x ∈ (enqueue (cfg.successors b) queue visited).1 ∨
            x ≠ target ∧ ∀ y ∈ cfg.successors x,
              y ∈ (enqueue (cfg.successors b) queue visited).2 := by
          intro x hv
          rcases hinv x hv with hq | ⟨hne, hy⟩
          · rcases List.mem_cons.mp hq with rfl | hq
            · -- the block just taken: its successors are now visited
              exact Or.inr ⟨hb, fun y hy => mem_enqueue.1.mpr (Or.inr hy)⟩
            · exact Or.inl (mem_enqueue.2.1 hq)
          · exact Or.inr ⟨hne, fun y hy' => mem_enqueue.1.mpr (Or.inl (hy y hy'))⟩
        have hnew : ∀ x ∈ (enqueue (cfg.successors b) queue visited).2,
            x ∈ (enqueue (cfg.successors b) queue visited).1 ∨
            x ≠ target ∧ ∀ y ∈ cfg.successors x,
              y ∈ (enqueue (cfg.successors b) queue visited).2 := by
          intro x hx
          by_cases hv : x ∈ visited
          · exact hold x hv
          · have hs := (mem_enqueue.1.mp hx).resolve_left hv
            exact Or.inl (mem_enqueue.2.2 hs hv)
        obtain ⟨closed, hsub, hclosed⟩ := ih h hnew
        exact ⟨closed, fun x hx => hsub x (mem_enqueue.1.mpr (Or.inl hx)), hclosed⟩

theorem not_reaches_of_isReachable_false (h : cfg.isReachable fuel target = some false) :
    ¬ cfg.Reaches 0 target := by
  obtain ⟨closed, hsub, hclosed⟩ := search_false h (fun x hx => Or.inl hx)
  intro hreach
  have hmem : ∀ b, cfg.Reaches 0 b → b ∈ closed := by
    intro b hb
    induction hb with
    | refl => exact hsub 0 (List.mem_singleton_self _)
    | tail _ hs ih => exact (hclosed _ ih).2 _ hs
  exact (hclosed target (hmem target hreach)).1 rfl

end ControlFlowGraph

end ShapeLang.Mir
