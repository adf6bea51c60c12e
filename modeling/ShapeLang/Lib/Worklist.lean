import Mathlib

/-!
# Depth-first worklists

The loop `while let Some(x) = stack.pop() { if !visited.insert(x) { continue }; stack.extend(next(x)) }`
over an arbitrary type of nodes, and the two facts a client needs:

  * `mem_run_iff` — when the loop ends, the visited set is exactly what the seeds reach;
  * `run_isSome` — the loop ends: every pop is paid for by a seed or by one outgoing edge of a
    node visited for the first time, so `seeds + edges` turns are enough.

`collect` packages the loop with that bound as a total function over an edge list.
-/

namespace Worklist

variable {α : Type*} [DecidableEq α]

/-- The loop with a bound on its turns. The head of `stack` is the element the next `pop` takes. -/
def run (next : α → List α) : Nat → List α → List α → Option (List α)
  | _, [], visited => some visited
  | 0, _ :: _, _ => none
  | fuel + 1, x :: stack, visited =>
      if x ∈ visited then run next fuel stack visited
      else run next fuel ((next x).reverse ++ stack) (x :: visited)

/-- `y` can be reached from `x` along `next`. -/
abbrev Reaches (next : α → List α) (x y : α) : Prop :=
  Relation.ReflTransGen (fun a b => b ∈ next a) x y

/-! ## What the loop computes -/

section Spec

variable {next : α → List α}

variable {fuel : Nat} {stack visited r : List α}

/-- The visited set only grows, and the whole stack ends up in it. -/
theorem subset_run (h : run next fuel stack visited = some r) : ∀ x, x ∈ stack ∨ x ∈ visited → x ∈ r := by
  induction fuel, stack, visited using run.induct next with
  | case1 fuel visited =>
    rw [run] at h
    cases h
    simp
  | case2 x stack visited => simp [run] at h
  -- visited before: taken off the stack and left alone
  | case3 fuel x stack visited hx ih =>
    rw [run, if_pos hx] at h
    intro y hy
    refine ih h y ?_
    rcases hy with hy | hy
    · rcases List.mem_cons.mp hy with rfl | hy
      · exact Or.inr hx
      · exact Or.inl hy
    · exact Or.inr hy
  -- visited now: its successors go on top of the stack
  | case4 fuel x stack visited hx ih =>
    rw [run, if_neg hx] at h
    intro y hy
    refine ih h y ?_
    rcases hy with hy | hy
    · rcases List.mem_cons.mp hy with rfl | hy
      · exact Or.inr List.mem_cons_self
      · exact Or.inl (List.mem_append_right _ hy)
    · exact Or.inr (List.mem_cons_of_mem _ hy)

/-- If every visited node has its successors visited or waiting, the result is closed. -/
theorem run_closed (h : run next fuel stack visited = some r)
    (hinv : ∀ x ∈ visited, ∀ y ∈ next x, y ∈ visited ∨ y ∈ stack) :
    ∀ x ∈ r, ∀ y ∈ next x, y ∈ r := by
  induction fuel, stack, visited using run.induct next with
  | case1 fuel visited =>
    rw [run] at h
    cases h
    intro x hx y hy
    simpa using hinv x hx y hy
  | case2 x stack visited => simp [run] at h
  | case3 fuel x stack visited hx ih =>
    rw [run, if_pos hx] at h
    refine ih h fun a ha y hy => ?_
    rcases hinv a ha y hy with hy | hy
    · exact Or.inl hy
    · rcases List.mem_cons.mp hy with rfl | hy
      · exact Or.inl hx
      · exact Or.inr hy
  | case4 fuel x stack visited hx ih =>
    rw [run, if_neg hx] at h
    refine ih h fun a ha y hy => ?_
    rcases List.mem_cons.mp ha with rfl | ha
    · exact Or.inr (List.mem_append_left _ (List.mem_reverse.mpr hy))
    · rcases hinv a ha y hy with hy | hy
      · exact Or.inl (List.mem_cons_of_mem _ hy)
      · rcases List.mem_cons.mp hy with rfl | hy
        · exact Or.inl List.mem_cons_self
        · exact Or.inr (List.mem_append_right _ hy)

/-- A property closed under `next` that holds of the stack and the visited set holds of the
result. -/
theorem run_invariant {P : α → Prop} (hP : ∀ x, P x → ∀ y ∈ next x, P y)
    (h : run next fuel stack visited = some r) (hs : ∀ x ∈ stack, P x) (hv : ∀ x ∈ visited, P x) :
    ∀ x ∈ r, P x := by
  induction fuel, stack, visited using run.induct next with
  | case1 fuel visited =>
    rw [run] at h
    cases h
    exact hv
  | case2 x stack visited => simp [run] at h
  | case3 fuel x stack visited hx ih =>
    rw [run, if_pos hx] at h
    exact ih h (fun y hy => hs y (List.mem_cons_of_mem _ hy)) hv
  | case4 fuel x stack visited hx ih =>
    rw [run, if_neg hx] at h
    have hPx : P x := hs x List.mem_cons_self
    refine ih h (fun y hy => ?_) (fun y hy => ?_)
    · rcases List.mem_append.mp hy with hy | hy
      · exact hP x hPx y (List.mem_reverse.mp hy)
      · exact hs y (List.mem_cons_of_mem _ hy)
    · rcases List.mem_cons.mp hy with rfl | hy
      · exact hPx
      · exact hv y hy

/-- **The loop computes reachability.** A node is visited exactly if some seed reaches it. -/
theorem mem_run_iff (h : run next fuel stack [] = some r) (y : α) :
    y ∈ r ↔ ∃ x ∈ stack, Reaches next x y := by
  constructor
  · intro hy
    refine run_invariant (P := fun y => ∃ x ∈ stack, Reaches next x y) ?_ h ?_ (by simp) y hy
    · rintro a ⟨x, hx, hxa⟩ b hb
      exact ⟨x, hx, hxa.tail hb⟩
    · intro x hx
      exact ⟨x, hx, .refl⟩
  · rintro ⟨x, hx, hxy⟩
    induction hxy with
    | refl => exact subset_run h x (Or.inl hx)
    | tail _ hb ih => exact run_closed h (by simp) _ ih _ hb

/-- A node is visited once. -/
theorem run_nodup (h : run next fuel stack visited = some r) (hv : visited.Nodup) : r.Nodup := by
  induction fuel, stack, visited using run.induct next with
  | case1 fuel visited =>
    rw [run] at h
    cases h
    exact hv
  | case2 x stack visited => simp [run] at h
  | case3 fuel x stack visited hx ih =>
    rw [run, if_pos hx] at h
    exact ih h hv
  | case4 fuel x stack visited hx ih =>
    rw [run, if_neg hx] at h
    exact ih h (List.nodup_cons.mpr ⟨hx, hv⟩)

end Spec

/-! ## The loop ends -/

/-- Turns still to be paid for: the stack, and the edges out of nodes not yet visited. -/
theorem run_isSome {next : α → List α} (U : Finset α)
    (hnext : ∀ x ∈ U, ∀ y ∈ next x, y ∈ U) {fuel : Nat} {stack visited : List α}
    (hstack : ∀ x ∈ stack, x ∈ U)
    (hfuel : stack.length + ∑ x ∈ U with x ∉ visited, (next x).length ≤ fuel) :
    (run next fuel stack visited).isSome := by
  induction fuel, stack, visited using run.induct next with
  | case1 fuel visited => simp [run]
  | case2 x stack visited =>
    simp at hfuel
  | case3 fuel x stack visited hx ih =>
    rw [run, if_pos hx]
    refine ih (fun y hy => hstack y (List.mem_cons_of_mem _ hy)) ?_
    simp only [List.length_cons] at hfuel
    omega
  | case4 fuel x stack visited hx ih =>
    rw [run, if_neg hx]
    have hxU : x ∈ U := hstack x List.mem_cons_self
    refine ih (fun y hy => ?_) ?_
    · rcases List.mem_append.mp hy with hy | hy
      · exact hnext x hxU y (List.mem_reverse.mp hy)
      · exact hstack y (List.mem_cons_of_mem _ hy)
    · -- visiting `x` moves its edges from the sum to the stack
      have hsplit : (U.filter (· ∉ visited)) = insert x (U.filter (· ∉ x :: visited)) := by
        ext y
        by_cases hyx : y = x
        · subst hyx; simp [hxU, hx]
        · simp [hyx]
      rw [hsplit, Finset.sum_insert (by simp)] at hfuel
      simp only [List.length_cons, List.length_append, List.length_reverse] at hfuel ⊢
      omega

/-! ## Reachability over an edge list -/

/-- The targets of the edges that leave `x`. -/
def targets (edges : List (α × α)) (x : α) : List α :=
  (edges.filter (fun e => e.1 = x)).map Prod.snd

variable {edges : List (α × α)}

@[simp] theorem mem_targets {x y : α} :
    y ∈ targets edges x ↔ (x, y) ∈ edges := by
  simp [targets]

theorem sum_targets_length_le (edges : List (α × α)) (U : Finset α) :
    ∑ x ∈ U, (targets edges x).length ≤ edges.length := by
  induction edges with
  | nil => simp [targets]
  | cons e edges ih =>
    have hcons : ∀ x, (targets (e :: edges) x).length
        = (if e.1 = x then 1 else 0) + (targets edges x).length := by
      intro x
      by_cases hx : e.1 = x <;> simp [targets, hx, Nat.add_comm]
    have hone : ∑ x ∈ U, (if e.1 = x then 1 else 0) ≤ 1 := by
      rw [Finset.sum_ite_eq]
      split <;> omega
    simp only [hcons, Finset.sum_add_distrib, List.length_cons]
    omega

/-- The nodes the seeds reach along `edges`, where a node for which `stop` holds is visited but
not left. -/
def collect (edges : List (α × α)) (stop : α → Bool) (seeds : List α) : List α :=
  (run (fun x => if stop x then [] else targets edges x) (seeds.length + edges.length)
    seeds.reverse []).getD []

theorem collect_run (edges : List (α × α)) (stop : α → Bool) (seeds : List α) :
    run (fun x => if stop x then [] else targets edges x) (seeds.length + edges.length)
      seeds.reverse [] = some (collect edges stop seeds) := by
  have hsome : (run (fun x => if stop x then [] else targets edges x)
      (seeds.length + edges.length) seeds.reverse []).isSome := by
    -- every node that is entered is a seed or the target of an edge
    refine run_isSome (seeds ++ edges.map Prod.snd).toFinset ?_ ?_ ?_
    · intro x _ y hy
      by_cases hs : stop x <;> simp [hs] at hy
      simp only [List.mem_toFinset, List.mem_append, List.mem_map]
      exact Or.inr ⟨(x, y), hy, rfl⟩
    · intro x hx
      simp only [List.mem_toFinset, List.mem_append]
      exact Or.inl (List.mem_reverse.mp hx)
    · have hle : ∀ U : Finset α, ∑ x ∈ U, (if stop x then [] else targets edges x).length
          ≤ ∑ x ∈ U, (targets edges x).length := by
        intro U
        refine Finset.sum_le_sum fun x _ => ?_
        split <;> simp
      have hsum := (hle _).trans (sum_targets_length_le edges
        (((seeds ++ edges.map Prod.snd).toFinset).filter (· ∉ ([] : List α))))
      rw [List.length_reverse]
      omega
  obtain ⟨r, hr⟩ := Option.isSome_iff_exists.mp hsome
  rw [collect, hr]
  rfl

variable {stop : α → Bool} {seeds : List α}

/-- **`collect` is reachability.** -/
theorem mem_collect_iff {y : α} :
    y ∈ collect edges stop seeds ↔
      ∃ x ∈ seeds, Relation.ReflTransGen (fun a b => stop a = false ∧ (a, b) ∈ edges) x y := by
  rw [mem_run_iff (collect_run edges stop seeds)]
  have hstep : (fun a b => b ∈ (if stop a then [] else targets edges a))
      = fun a b => stop a = false ∧ (a, b) ∈ edges := by
    funext a b
    by_cases hs : stop a <;> simp [hs]
  simp only [Reaches, hstep, List.mem_reverse]

theorem collect_nodup (edges : List (α × α)) (stop : α → Bool) (seeds : List α) :
    (collect edges stop seeds).Nodup :=
  run_nodup (collect_run edges stop seeds) List.nodup_nil

theorem mem_collect_of_mem {x : α} (h : x ∈ seeds) : x ∈ collect edges stop seeds :=
  mem_collect_iff.mpr ⟨x, h, .refl⟩

theorem mem_collect_of_edge {x y : α} (hx : x ∈ collect edges stop seeds) (hstop : stop x = false)
    (he : (x, y) ∈ edges) :
    y ∈ collect edges stop seeds := by
  obtain ⟨s, hs, hsx⟩ := mem_collect_iff.mp hx
  exact mem_collect_iff.mpr ⟨s, hs, hsx.tail ⟨hstop, he⟩⟩

end Worklist
