import Mathlib

/-!
# Topological sorting with errors

Depth-first post-order over a graph whose nodes may be missing: a node that is met while it is in
progress is an error, and so is a node without an entry. Nodes are marked in a map, so the sort can
be continued from further roots.

  * `visit`, `sort` — the sort, with a bound on the depth of the calls;
  * `Sorted` — the invariant: the finished nodes are those in the order, each after its children;
  * `visit_sorted`, `sort_sorted` — what a sort that ends without error has done;
  * `visit_ok`, `sort_ok` — a graph with a rank and no missing child is sorted without error;
  * `Relabels`, `sort_relabel` — the order does not depend on what the nodes are called.
-/

namespace Topo

variable {ν ε : Type*} [DecidableEq ν]

inductive Mark where
  | unvisited
  | inProgress
  | done
  deriving DecidableEq, Repr

structure State (ν : Type*) where
  mark : ν → Mark
  order : List ν

/-- The children of each node that has an entry, and the two errors. -/
structure Graph (ν ε : Type*) where
  children : ν → Option (List ν)
  missing : ν → ε
  circular : ε

def State.start (s : State ν) (n : ν) : State ν :=
  { s with mark := Function.update s.mark n .inProgress }

def State.finish (s : State ν) (n : ν) : State ν :=
  { mark := Function.update s.mark n .done, order := s.order ++ [n] }

namespace Graph

variable (G : Graph ν ε)

def visit : Nat → State ν → ν → Except ε (State ν)
  | 0, _, _ => .error G.circular
  | fuel + 1, s, n =>
    match s.mark n with
    | .done => .ok s
    | .inProgress => .error G.circular
    | .unvisited =>
      match G.children n with
      | none => .error (G.missing n)
      | some cs => do
        let s' ← cs.foldlM (visit fuel) (s.start n)
        .ok (s'.finish n)

/-- From one root, then from every key that is not finished after it. -/
def sort (fuel : Nat) (root : ν) (keys : List ν) : Except ε (List ν) := do
  let s ← visit G fuel { mark := fun _ => .unvisited, order := [] } root
  let s ← (keys.filter (s.mark · ≠ .done)).foldlM (visit G fuel) s
  .ok s.order

/-! ## What a sort has done -/

structure Sorted (s : State ν) : Prop where
  nodup : s.order.Nodup
  done_iff : ∀ n, s.mark n = .done ↔ n ∈ s.order
  after_children : ∀ l₁ n l₂, s.order = l₁ ++ n :: l₂ → ∃ cs, G.children n = some cs ∧ ∀ c ∈ cs, c ∈ l₁

/-- A call finishes nodes and leaves those in progress as they are. -/
structure Extends (s s' : State ν) : Prop where
  order : s.order <+: s'.order
  inProgress_iff : ∀ n, s'.mark n = .inProgress ↔ s.mark n = .inProgress

variable {G}

omit [DecidableEq ν] in
theorem Extends.refl (s : State ν) : Extends s s := ⟨List.prefix_rfl, fun _ => Iff.rfl⟩

omit [DecidableEq ν] in
theorem Extends.trans {s s' s'' : State ν} (h : Extends s s') (h' : Extends s' s'') :
    Extends s s'' :=
  ⟨h.order.trans h'.order, fun n => (h'.inProgress_iff n).trans (h.inProgress_iff n)⟩

theorem Sorted.start {s : State ν} (h : G.Sorted s) {n : ν} (hn : s.mark n = .unvisited) :
    G.Sorted (s.start n) := by
  refine ⟨h.nodup, fun m => ?_, h.after_children⟩
  show Function.update s.mark n .inProgress m = .done ↔ m ∈ s.order
  by_cases hm : m = n
  · subst hm
    rw [Function.update_self, ← h.done_iff, hn]
    decide
  · rw [Function.update_of_ne hm, h.done_iff]

theorem Sorted.finish {s : State ν} (h : G.Sorted s) {n : ν} {cs : List ν}
    (hn : s.mark n = .inProgress) (hcs : G.children n = some cs) (hdone : ∀ c ∈ cs, c ∈ s.order) :
    G.Sorted (s.finish n) := by
  have hnew : n ∉ s.order := by
    rw [← h.done_iff, hn]
    decide
  refine ⟨?_, fun m => ?_, fun l₁ m l₂ hsplit => ?_⟩
  · show (s.order ++ [n]).Nodup
    rw [List.nodup_append]
    refine ⟨h.nodup, List.nodup_singleton n, fun a ha b hb hab => ?_⟩
    rw [List.mem_singleton] at hb
    exact hnew (hb ▸ hab ▸ ha)
  · show Function.update s.mark n .done m = .done ↔ m ∈ s.order ++ [n]
    by_cases hm : m = n
    · subst hm
      simp
    · rw [Function.update_of_ne hm, h.done_iff]
      simp [hm]
  · have hsplit' : s.order ++ [n] = l₁ ++ m :: l₂ := hsplit
    -- either the split is inside the old order, or it is at the new node
    cases List.eq_nil_or_concat l₂ with
    | inl hnil =>
      subst hnil
      obtain ⟨rfl, hnm⟩ := List.append_inj' hsplit' rfl
      rw [List.singleton_inj] at hnm
      exact hnm ▸ ⟨cs, hcs, hdone⟩
    | inr hsnoc =>
      obtain ⟨l₃, last, rfl⟩ := hsnoc
      rw [List.concat_eq_append, ← List.cons_append, ← List.append_assoc] at hsplit'
      obtain ⟨horder, -⟩ := List.append_inj' hsplit' rfl
      exact h.after_children l₁ m l₃ horder

omit [DecidableEq ν] in
/-- A run of calls, given what each call does. -/
theorem foldlM_sorted {f : State ν → ν → Except ε (State ν)}
    (hf : ∀ s s' n, G.Sorted s → f s n = .ok s' → G.Sorted s' ∧ Extends s s' ∧ n ∈ s'.order)
    {cs : List ν} {s s' : State ν} (h : G.Sorted s) (hrun : cs.foldlM f s = .ok s') :
    G.Sorted s' ∧ Extends s s' ∧ ∀ c ∈ cs, c ∈ s'.order := by
  induction cs generalizing s with
  | nil =>
    obtain rfl : s = s' := Except.ok.inj hrun
    exact ⟨h, Extends.refl s, fun c hc => absurd hc List.not_mem_nil⟩
  | cons c cs ih =>
    rw [List.foldlM_cons] at hrun
    cases hstep : f s c with
    | error e =>
      rw [hstep] at hrun
      cases hrun
    | ok s₁ =>
      rw [hstep] at hrun
      obtain ⟨hsorted, hext, hmem⟩ := hf s s₁ c h hstep
      obtain ⟨hsorted', hext', hrest⟩ := ih hsorted hrun
      refine ⟨hsorted', hext.trans hext', fun x hx => ?_⟩
      rcases List.mem_cons.mp hx with rfl | hx
      · exact hext'.order.subset hmem
      · exact hrest x hx

theorem visit_sorted {fuel : Nat} {s s' : State ν} {n : ν} (h : G.Sorted s)
    (hvisit : G.visit fuel s n = .ok s') : G.Sorted s' ∧ Extends s s' ∧ n ∈ s'.order := by
  induction fuel generalizing s s' n with
  | zero => cases hvisit
  | succ fuel ih =>
    rw [visit] at hvisit
    cases hmark : s.mark n with
    | done =>
      rw [hmark] at hvisit
      obtain rfl : s = s' := Except.ok.inj hvisit
      exact ⟨h, Extends.refl s, (h.done_iff n).mp hmark⟩
    | inProgress =>
      rw [hmark] at hvisit
      cases hvisit
    | unvisited =>
      rw [hmark] at hvisit
      cases hcs : G.children n with
      | none =>
        simp only [hcs] at hvisit
        cases hvisit
      | some cs =>
        simp only [hcs] at hvisit
        cases hrun : cs.foldlM (G.visit fuel) (s.start n) with
        | error e =>
          rw [hrun] at hvisit
          cases hvisit
        | ok s₁ =>
          rw [hrun] at hvisit
          obtain rfl : s₁.finish n = s' := Except.ok.inj hvisit
          obtain ⟨hsorted, hext, hdone⟩ :=
            foldlM_sorted (fun _ _ _ hs hv => ih hs hv) (h.start hmark) hrun
          -- the children leave the mark of a node that is being visited
          have hprog : s₁.mark n = .inProgress :=
            (hext.inProgress_iff n).mpr (Function.update_self ..)
          refine ⟨hsorted.finish hprog hcs hdone, ⟨?_, fun m => ?_⟩, ?_⟩
          · exact hext.order.trans (List.prefix_append _ _)
          · show Function.update s₁.mark n .done m = .inProgress ↔ s.mark m = .inProgress
            by_cases hm : m = n
            · subst hm
              rw [Function.update_self, hmark]
              decide
            · rw [Function.update_of_ne hm, hext.inProgress_iff]
              show Function.update s.mark n .inProgress m = .inProgress ↔ _
              rw [Function.update_of_ne hm]
          · exact List.mem_append_right _ (List.mem_singleton_self n)

omit [DecidableEq ν] in
theorem sorted_initial : G.Sorted { mark := fun _ => .unvisited, order := [] } :=
  ⟨List.nodup_nil, fun n => by simp, fun l₁ n l₂ h => by simp at h⟩

/-- **A sort without error** orders the root and all keys, each node after its children. -/
theorem sort_sorted {fuel : Nat} {root : ν} {keys order : List ν}
    (h : G.sort fuel root keys = .ok order) :
    ∃ s, G.Sorted s ∧ s.order = order ∧ root ∈ order ∧ ∀ k ∈ keys, k ∈ order := by
  rw [sort] at h
  cases hroot : G.visit fuel { mark := fun _ => .unvisited, order := [] } root with
  | error e =>
    rw [hroot] at h
    cases h
  | ok s =>
    rw [hroot] at h
    obtain ⟨hsorted, -, hmem⟩ := visit_sorted sorted_initial hroot
    cases hrun : (keys.filter (s.mark · ≠ .done)).foldlM (G.visit fuel) s with
    | error e =>
      simp only [bind, Except.bind, hrun] at h
      cases h
    | ok s' =>
      simp only [bind, Except.bind, hrun] at h
      obtain rfl := Except.ok.inj h
      obtain ⟨hsorted', hext, hrest⟩ :=
        foldlM_sorted (fun _ _ _ hs hv => visit_sorted hs hv) hsorted hrun
      refine ⟨s', hsorted', rfl, hext.order.subset hmem, fun k hk => ?_⟩
      by_cases hdone : s.mark k = .done
      · exact hext.order.subset ((hsorted.done_iff k).mp hdone)
      · exact hrest k (List.mem_filter.mpr ⟨hk, by simpa using hdone⟩)

omit [DecidableEq ν] in
theorem Sorted.children_mem {s : State ν} (h : G.Sorted s) {n : ν} (hn : n ∈ s.order) :
    ∃ cs, G.children n = some cs ∧ ∀ c ∈ cs, c ∈ s.order := by
  obtain ⟨l₁, l₂, hsplit⟩ := List.append_of_mem hn
  obtain ⟨cs, hcs, hbefore⟩ := h.after_children l₁ n l₂ hsplit
  exact ⟨cs, hcs, fun c hc => hsplit ▸ List.mem_append_left _ (hbefore c hc)⟩

/-- The position in the order is a rank. -/
theorem Sorted.idxOf_lt {s : State ν} (h : G.Sorted s) {n c : ν} {cs : List ν} (hn : n ∈ s.order)
    (hcs : G.children n = some cs) (hc : c ∈ cs) : s.order.idxOf c < s.order.idxOf n := by
  obtain ⟨l₁, l₂, hsplit⟩ := List.append_of_mem hn
  obtain ⟨cs', hcs', hbefore⟩ := h.after_children l₁ n l₂ hsplit
  obtain rfl : cs = cs' := Option.some.inj (hcs.symm.trans hcs')
  have hnl : n ∉ l₁ := by
    have hnd := h.nodup
    rw [hsplit, List.nodup_append] at hnd
    exact fun hmem => hnd.2.2 n hmem n List.mem_cons_self rfl
  rw [hsplit, List.idxOf_append_of_mem (hbefore c hc), List.idxOf_append_of_notMem hnl]
  have := List.idxOf_lt_length_of_mem (hbefore c hc)
  omega

/-! ## When a sort succeeds -/

/-- A rank below which every present node has only present children. -/
structure Ranked (G : Graph ν ε) (rank : ν → Nat) : Prop where
  present : ∀ n cs, G.children n = some cs → ∀ c ∈ cs, (G.children c).isSome
  lt : ∀ n cs, G.children n = some cs → ∀ c ∈ cs, rank c < rank n

omit [DecidableEq ν] in
theorem foldlM_ok {rank : ν → Nat} {f : State ν → ν → Except ε (State ν)} {r : Nat} (cs : List ν)
    (hf : ∀ s n, G.Sorted s → (∀ m, s.mark m = .inProgress → rank n < rank m) → rank n < r →
      (G.children n).isSome → ∃ s', f s n = .ok s' ∧ G.Sorted s' ∧ Extends s s')
    {s : State ν} (h : G.Sorted s)
    (hprog : ∀ c ∈ cs, ∀ m, s.mark m = .inProgress → rank c < rank m)
    (hlt : ∀ c ∈ cs, rank c < r) (hsome : ∀ c ∈ cs, (G.children c).isSome) :
    ∃ s', cs.foldlM f s = .ok s' := by
  induction cs generalizing s with
  | nil => exact ⟨s, rfl⟩
  | cons c cs ih =>
    obtain ⟨s₁, hs₁, hsorted, hext⟩ := hf s c h (hprog c List.mem_cons_self)
      (hlt c List.mem_cons_self) (hsome c List.mem_cons_self)
    obtain ⟨s', hs'⟩ := ih hsorted
      (fun x hx m hm => hprog x (List.mem_cons_of_mem _ hx) m ((hext.inProgress_iff m).mp hm))
      (fun x hx => hlt x (List.mem_cons_of_mem _ hx))
      (fun x hx => hsome x (List.mem_cons_of_mem _ hx))
    refine ⟨s', ?_⟩
    rw [List.foldlM_cons, hs₁]
    exact hs'

theorem visit_ok {rank : ν → Nat} (hrank : G.Ranked rank) {fuel : Nat} {s : State ν} {n : ν}
    (h : G.Sorted s) (hprog : ∀ m, s.mark m = .inProgress → rank n < rank m) (hfuel : rank n < fuel)
    (hn : (G.children n).isSome) : ∃ s', G.visit fuel s n = .ok s' := by
  induction fuel generalizing s n with
  | zero => exact absurd hfuel (Nat.not_lt_zero _)
  | succ fuel ih =>
    rw [visit]
    cases hmark : s.mark n with
    | done => exact ⟨s, rfl⟩
    -- a node on the stack has a larger rank
    | inProgress => exact absurd (hprog n hmark) (Nat.lt_irrefl _)
    | unvisited =>
      obtain ⟨cs, hcs⟩ := Option.isSome_iff_exists.mp hn
      -- the children have smaller ranks, and are visited with what is left of the fuel
      obtain ⟨s', hs'⟩ := foldlM_ok (r := fuel) cs
        (fun s c hs hp hlt hc => by
          obtain ⟨s', hs'⟩ := ih hs hp hlt hc
          obtain ⟨h1, h2, -⟩ := visit_sorted hs hs'
          exact ⟨s', hs', h1, h2⟩)
        (h.start hmark)
        (fun c hc m hm => by
          have hlt := hrank.lt n cs hcs c hc
          by_cases hmn : m = n
          · exact hmn ▸ hlt
          · have hm' : Function.update s.mark n .inProgress m = .inProgress := hm
            rw [Function.update_of_ne hmn] at hm'
            exact Nat.lt_trans hlt (hprog m hm'))
        (fun c hc => by
          have hlt := hrank.lt n cs hcs c hc
          omega)
        (fun c hc => hrank.present n cs hcs c hc)
      simp only [hcs, hs']
      exact ⟨_, rfl⟩

/-- **A ranked graph is sorted.** -/
theorem sort_ok (rank : ν → Nat) (hrank : G.Ranked rank) {fuel : Nat} {root : ν} {keys : List ν}
    (hfuel : ∀ n, (G.children n).isSome → rank n < fuel) (hroot : (G.children root).isSome)
    (hkeys : ∀ k ∈ keys, (G.children k).isSome) : ∃ order, G.sort fuel root keys = .ok order := by
  have hnone : ∀ {s : State ν}, (∀ m, s.mark m ≠ .inProgress) → ∀ n m, s.mark m = .inProgress →
      rank n < rank m := fun hs _ m hm => absurd hm (hs m)
  obtain ⟨s, hs⟩ := visit_ok (s := { mark := fun _ => .unvisited, order := [] }) hrank
    sorted_initial (hnone (fun m => by simp) root) (hfuel root hroot) hroot
  obtain ⟨hsorted, hext, -⟩ := visit_sorted sorted_initial hs
  have hfree : ∀ m, s.mark m ≠ .inProgress := fun m hm => by
    have := (hext.inProgress_iff m).mp hm
    simp at this
  obtain ⟨s', hs'⟩ := foldlM_ok (r := fuel) (keys.filter (s.mark · ≠ .done))
    (fun s c hs hp hlt hc => by
      obtain ⟨s', hs'⟩ := visit_ok hrank hs hp hlt hc
      obtain ⟨h1, h2, -⟩ := visit_sorted hs hs'
      exact ⟨s', hs', h1, h2⟩)
    hsorted (fun c _ => hnone hfree c)
    (fun c hc => hfuel c (hkeys c (List.mem_filter.mp hc).1))
    (fun c hc => hkeys c (List.mem_filter.mp hc).1)
  refine ⟨s'.order, ?_⟩
  rw [sort, hs]
  simp only [bind, Except.bind, hs']

/-! ## Other labels -/

section Relabel

variable {μ ε' : Type*} [DecidableEq μ] {G' : Graph μ ε'} {P : ν → Prop} {r : ν → μ}

/-- The nodes with `P` have other labels in `G'`, and the same children in the same order. -/
structure Relabels (G : Graph ν ε) (G' : Graph μ ε') (P : ν → Prop) (r : ν → μ) : Prop where
  inj : ∀ a b, P a → P b → r a = r b → a = b
  closed : ∀ n cs, P n → G.children n = some cs → ∀ c ∈ cs, P c
  children : ∀ n cs, P n → G.children n = some cs → G'.children (r n) = some (cs.map r)

structure Relabelled (P : ν → Prop) (r : ν → μ) (s : State ν) (s' : State μ) : Prop where
  mark : ∀ n, P n → s'.mark (r n) = s.mark n
  order : s'.order = s.order.map r

omit [DecidableEq ν] [DecidableEq μ] in
theorem foldlM_relabel {f : State ν → ν → Except ε (State ν)}
    {g : State μ → μ → Except ε' (State μ)} {cs : List ν}
    (hstep : ∀ s s' t c, c ∈ cs → Relabelled P r s s' → f s c = .ok t →
      ∃ t', g s' (r c) = .ok t' ∧ Relabelled P r t t')
    {s t : State ν} {s' : State μ} (h : Relabelled P r s s') (hrun : cs.foldlM f s = .ok t) :
    ∃ t', (cs.map r).foldlM g s' = .ok t' ∧ Relabelled P r t t' := by
  induction cs generalizing s s' with
  | nil =>
    obtain rfl : s = t := Except.ok.inj hrun
    exact ⟨s', rfl, h⟩
  | cons c cs ih =>
    rw [List.foldlM_cons] at hrun
    cases hfirst : f s c with
    | error e =>
      rw [hfirst] at hrun
      cases hrun
    | ok s₁ =>
      rw [hfirst] at hrun
      obtain ⟨s₁', hfirst', h₁⟩ := hstep s s' s₁ c List.mem_cons_self h hfirst
      obtain ⟨t', hrest, ht⟩ := ih
        (fun s s' t x hx => hstep s s' t x (List.mem_cons_of_mem c hx)) h₁ hrun
      refine ⟨t', ?_, ht⟩
      rw [List.map_cons, List.foldlM_cons, hfirst']
      exact hrest

/-- One mark is written on both sides. -/
theorem Relabels.update (hr : G.Relabels G' P r) {s : State ν} {s' : State μ}
    (h : Relabelled P r s s') {n : ν} (hn : P n) (mark : Mark) (m : ν) (hm : P m) :
    Function.update s'.mark (r n) mark (r m) = Function.update s.mark n mark m := by
  by_cases heq : m = n
  · rw [heq, Function.update_self, Function.update_self]
  · have hne : r m ≠ r n := fun hlabel => heq (hr.inj m n hm hn hlabel)
    rw [Function.update_of_ne heq, Function.update_of_ne hne, h.mark m hm]

theorem visit_relabel (hr : G.Relabels G' P r) {fuel : Nat} {s t : State ν} {s' : State μ} {n : ν}
    (hn : P n) (h : Relabelled P r s s') (hvisit : G.visit fuel s n = .ok t) :
    ∃ t', G'.visit fuel s' (r n) = .ok t' ∧ Relabelled P r t t' := by
  induction fuel generalizing s t s' n with
  | zero => cases hvisit
  | succ fuel ih =>
    rw [visit] at hvisit ⊢
    rw [h.mark n hn]
    cases hmark : s.mark n with
    | done =>
      rw [hmark] at hvisit
      obtain rfl : s = t := Except.ok.inj hvisit
      exact ⟨s', rfl, h⟩
    | inProgress =>
      rw [hmark] at hvisit
      cases hvisit
    | unvisited =>
      rw [hmark] at hvisit
      cases hcs : G.children n with
      | none =>
        simp only [hcs] at hvisit
        cases hvisit
      | some cs =>
        simp only [hcs] at hvisit
        -- the visit of the children succeeded, since the whole visit did
        obtain ⟨s₁, hrun, hfinish⟩ : ∃ s₁, cs.foldlM (G.visit fuel) (s.start n) = .ok s₁ ∧
            s₁.finish n = t := by
          cases hrun : cs.foldlM (G.visit fuel) (s.start n) with
          | error e =>
            rw [hrun] at hvisit
            cases hvisit
          | ok s₁ =>
            rw [hrun] at hvisit
            exact ⟨s₁, rfl, Except.ok.inj hvisit⟩
        have hstart : Relabelled P r (s.start n) (s'.start (r n)) :=
          ⟨hr.update h hn .inProgress, h.order⟩
        obtain ⟨s₁', hrun', h₁⟩ := foldlM_relabel
          (fun s s' t c hc hs => ih (hr.closed n cs hn hcs c hc) hs) hstart hrun
        simp only [hr.children n cs hn hcs, hrun']
        refine ⟨s₁'.finish (r n), rfl, ?_⟩
        rw [← hfinish]
        refine ⟨hr.update h₁ hn .done, ?_⟩
        show s₁'.order ++ [r n] = (s₁.order ++ [n]).map r
        rw [List.map_append, h₁.order]
        rfl

/-- **A sort under other labels** gives the order with these labels. -/
theorem sort_relabel (hr : G.Relabels G' P r) {fuel : Nat} {root : ν} {keys order : List ν}
    (hroot : P root) (hkeys : ∀ k ∈ keys, P k) (h : G.sort fuel root keys = .ok order) :
    G'.sort fuel (r root) (keys.map r) = .ok (order.map r) := by
  rw [sort] at h ⊢
  have hinitial : Relabelled P r (⟨fun _ => .unvisited, []⟩ : State ν) ⟨fun _ => .unvisited, []⟩ :=
    ⟨fun _ _ => rfl, rfl⟩
  cases hfirst : G.visit fuel { mark := fun _ => .unvisited, order := [] } root with
  | error e =>
    rw [hfirst] at h
    cases h
  | ok s =>
    rw [hfirst] at h
    obtain ⟨s', hfirst', hs⟩ := visit_relabel hr hroot hinitial hfirst
    cases hrun : (keys.filter (s.mark · ≠ .done)).foldlM (G.visit fuel) s with
    | error e =>
      simp only [bind, Except.bind, hrun] at h
      cases h
    | ok t =>
      simp only [bind, Except.bind, hrun] at h
      obtain rfl := Except.ok.inj h
      -- the same keys are left
      have hleft : (keys.map r).filter (s'.mark · ≠ .done)
          = (keys.filter (s.mark · ≠ .done)).map r := by
        rw [List.filter_map]
        refine congrArg (List.map r) (List.filter_congr fun k hk => ?_)
        rw [Function.comp_apply, hs.mark k (hkeys k hk)]
      obtain ⟨t', hrun', ht⟩ := foldlM_relabel
        (fun s s' t c hc hs => visit_relabel hr (hkeys c (List.mem_filter.mp hc).1) hs) hs hrun
      rw [← hleft] at hrun'
      simp only [bind, Except.bind, hfirst', hrun']
      rw [ht.order]

end Relabel

end Graph

end Topo
