import Mathlib

/-!
# Depth-first traversal with effects

A recursive traversal of a graph that changes a state when it enters a node, when it follows an edge
and when it leaves a node. Which nodes may be entered is read from the state itself (a colour, a
mark), and entering a node closes it.

What a call did is its *trace*, the list of these events. The result is the trace replayed from the
initial state, so a fact about the result needs only an induction over the trace; `Explores` says
which traces there are.

  * `Visitor.visit` — the traversal, with a bound on the depth of the calls;
  * `visit_explores`, `visitAll_explores` — the trace of a call that ends;
  * `visit_isSome`, `visitAll_isSome` — a depth of one more than the open nodes is enough.
-/

namespace Dfs

variable {σ ν : Type*}

structure Visitor (σ ν : Type*) where
  children : ν → List ν
  /-- May the node be entered? -/
  opens : σ → ν → Bool
  enter : σ → ν → σ
  edge : σ → ν → σ
  leave : σ → ν → σ

inductive Event (ν : Type*) where
  | enter (n : ν)
  | edge (c : ν)
  | leave (n : ν)

def entered (tr : List (Event ν)) : List ν :=
  tr.filterMap fun
    | .enter n => some n
    | _ => none

def edges (tr : List (Event ν)) : List ν :=
  tr.filterMap fun
    | .edge c => some c
    | _ => none

def left (tr : List (Event ν)) : List ν :=
  tr.filterMap fun
    | .leave n => some n
    | _ => none

namespace Visitor

variable (V : Visitor σ ν)

def visit : Nat → σ → ν → Option σ
  | 0, _, _ => none
  | fuel + 1, s, n =>
    if V.opens s n then do
      let s ← (V.children n).foldlM (fun s c => visit fuel (V.edge s c) c) (V.enter s n)
      some (V.leave s n)
    else some s

def apply (s : σ) : Event ν → σ
  | .enter n => V.enter s n
  | .edge c => V.edge s c
  | .leave n => V.leave s n

/-- The trace, replayed. -/
def run (s : σ) (tr : List (Event ν)) : σ := tr.foldl V.apply s

/-- Entering a node closes it, and nothing else opens or closes one. -/
structure Lawful : Prop where
  enter : ∀ s n x, V.opens (V.enter s n) x = true ↔ V.opens s x = true ∧ x ≠ n
  edge : ∀ s c x, V.opens (V.edge s c) x = V.opens s x
  leave : ∀ s n x, V.opens (V.leave s n) x = V.opens s x

/-- The trace of a traversal from `roots`. The edges followed are those of the nodes entered and the
`loose` ones, which lead to the roots from outside. -/
structure Explores (s : σ) (tr : List (Event ν)) (loose roots : List ν) : Prop where
  opens_iff : ∀ x, V.opens (V.run s tr) x = true ↔ V.opens s x = true ∧ x ∉ entered tr
  nodup : (entered tr).Nodup
  opened : ∀ x ∈ entered tr, V.opens s x = true
  edges_perm : (edges tr).Perm ((entered tr).flatMap V.children ++ loose)
  left_perm : (left tr).Perm (entered tr)
  closed : ∀ x ∈ entered tr, ∀ c ∈ V.children x, ¬ V.opens (V.run s tr) c = true
  seen : ∀ r ∈ roots, ¬ V.opens (V.run s tr) r = true
  reach : ∀ x ∈ entered tr, ∃ r ∈ roots, Relation.ReflTransGen (fun a b => b ∈ V.children a) r x

variable {V}

theorem run_append (s : σ) (tr₁ tr₂ : List (Event ν)) :
    V.run s (tr₁ ++ tr₂) = V.run (V.run s tr₁) tr₂ := List.foldl_append

theorem explores_nil (s : σ) : V.Explores s [] [] [] where
  opens_iff x := by simp [run, entered]
  nodup := List.nodup_nil
  opened := nofun
  edges_perm := .nil
  left_perm := .nil
  closed := nofun
  seen := nofun
  reach := nofun

theorem Explores.append {s : σ} {tr₁ tr₂ : List (Event ν)} {l₁ l₂ r₁ r₂ : List ν}
    (h₁ : V.Explores s tr₁ l₁ r₁) (h₂ : V.Explores (V.run s tr₁) tr₂ l₂ r₂) :
    V.Explores s (tr₁ ++ tr₂) (l₁ ++ l₂) (r₁ ++ r₂) := by
  have hent : entered (tr₁ ++ tr₂) = entered tr₁ ++ entered tr₂ := List.filterMap_append
  have hedge : edges (tr₁ ++ tr₂) = edges tr₁ ++ edges tr₂ := List.filterMap_append
  have hleft : left (tr₁ ++ tr₂) = left tr₁ ++ left tr₂ := List.filterMap_append
  -- Closed stays closed in the second part.
  have hstay : ∀ x, ¬ V.opens (V.run s tr₁) x = true → ¬ V.opens (V.run s (tr₁ ++ tr₂)) x = true := by
    intro x hx h
    rw [run_append] at h
    exact hx ((h₂.opens_iff x).mp h).1
  constructor
  · intro x
    rw [run_append, h₂.opens_iff, h₁.opens_iff, hent, List.mem_append, not_or, and_assoc]
  · rw [hent]
    refine List.nodup_append.mpr ⟨h₁.nodup, h₂.nodup, fun a ha b hb hab => ?_⟩
    subst hab
    exact ((h₁.opens_iff a).mp (h₂.opened a hb)).2 ha
  · intro x hx
    rw [hent] at hx
    rcases List.mem_append.mp hx with hx | hx
    · exact h₁.opened x hx
    · exact ((h₁.opens_iff x).mp (h₂.opened x hx)).1
  · rw [hent, hedge, List.flatMap_append]
    refine (h₁.edges_perm.append h₂.edges_perm).trans ?_
    rw [List.append_assoc, List.append_assoc]
    refine List.Perm.append_left _ ?_
    rw [← List.append_assoc, ← List.append_assoc]
    exact List.Perm.append_right _ List.perm_append_comm
  · rw [hent, hleft]
    exact h₁.left_perm.append h₂.left_perm
  · intro x hx c hc
    rw [hent] at hx
    rcases List.mem_append.mp hx with hx | hx
    · exact hstay c (h₁.closed x hx c hc)
    · rw [run_append]
      exact h₂.closed x hx c hc
  · intro r hr
    rcases List.mem_append.mp hr with hr | hr
    · exact hstay r (h₁.seen r hr)
    · rw [run_append]
      exact h₂.seen r hr
  · intro x hx
    rw [hent] at hx
    rcases List.mem_append.mp hx with hx | hx
    · obtain ⟨r, hr, hx⟩ := h₁.reach x hx
      exact ⟨r, List.mem_append_left _ hr, hx⟩
    · obtain ⟨r, hr, hx⟩ := h₂.reach x hx
      exact ⟨r, List.mem_append_right _ hr, hx⟩

/-- Following a loose edge to a root. -/
theorem Explores.cons_edge (law : V.Lawful) {s : σ} {c : ν} {tr : List (Event ν)} {loose roots : List ν}
    (h : V.Explores (V.edge s c) tr loose roots) :
    V.Explores s (.edge c :: tr) (c :: loose) roots := by
  have hrun : V.run s (.edge c :: tr) = V.run (V.edge s c) tr := rfl
  have hent : entered (.edge c :: tr) = entered tr := rfl
  constructor
  · intro x
    rw [hrun, hent, h.opens_iff, law.edge]
  · exact h.nodup
  · intro x hx
    rw [← law.edge s c]
    exact h.opened x hx
  · exact (h.edges_perm.cons c).trans List.perm_middle.symm
  · exact h.left_perm
  · exact h.closed
  · exact h.seen
  · exact h.reach

/-- A node entered, its children explored, and left. -/
theorem Explores.node (law : V.Lawful) {s : σ} {n : ν} {tr : List (Event ν)}
    (hopen : V.opens s n = true)
    (h : V.Explores (V.enter s n) tr (V.children n) (V.children n)) :
    V.Explores s (.enter n :: tr ++ [.leave n]) [] [n] := by
  -- the trace of the subtree, with the node entered before it and left behind it
  have hrun : V.run s (.enter n :: tr ++ [.leave n]) = V.leave (V.run (V.enter s n) tr) n := by
    rw [List.cons_append]
    show V.run (V.enter s n) (tr ++ [.leave n]) = _
    rw [run_append]
    rfl
  have hent : entered (.enter n :: tr ++ [.leave n]) = n :: entered tr := by
    simp [entered, List.filterMap_append]
  have hedge : edges (.enter n :: tr ++ [.leave n]) = edges tr := by
    simp [edges, List.filterMap_append]
  have hleft : left (.enter n :: tr ++ [.leave n]) = left tr ++ [n] := by
    simp [left, List.filterMap_append]
  have hclosed : ∀ x, ¬ V.opens (V.run (V.enter s n) tr) x = true →
      ¬ V.opens (V.run s (.enter n :: tr ++ [.leave n])) x = true := by
    intro x hx
    rw [hrun, law.leave]
    exact hx
  -- the node was closed when it was entered, and a subtree opens nothing
  have hself : ¬ V.opens (V.run (V.enter s n) tr) n = true := fun hn =>
    ((law.enter s n n).mp ((h.opens_iff n).mp hn).1).2 rfl
  constructor
  · intro x
    rw [hrun, law.leave, h.opens_iff, law.enter, hent, List.mem_cons, not_or, and_assoc]
  · rw [hent]
    exact List.nodup_cons.mpr ⟨fun hn => ((law.enter s n n).mp (h.opened n hn)).2 rfl, h.nodup⟩
  · intro x hx
    rw [hent] at hx
    rcases List.mem_cons.mp hx with rfl | hx
    · exact hopen
    · exact ((law.enter s n x).mp (h.opened x hx)).1
  · rw [hent, hedge, List.flatMap_cons, List.append_nil]
    exact h.edges_perm.trans List.perm_append_comm
  · rw [hent, hleft]
    exact (h.left_perm.append_right [n]).trans List.perm_append_comm
  · intro x hx c hc
    rw [hent] at hx
    rcases List.mem_cons.mp hx with rfl | hx
    · exact hclosed c (h.seen c hc)
    · exact hclosed c (h.closed x hx c hc)
  · intro r hr
    rw [List.mem_singleton.mp hr]
    exact hclosed n hself
  · intro x hx
    rw [hent] at hx
    refine ⟨n, List.mem_singleton_self n, ?_⟩
    rcases List.mem_cons.mp hx with rfl | hx
    · exact .refl
    · obtain ⟨c, hc, hcx⟩ := h.reach x hx
      exact .head hc hcx

theorem foldlM_explores (law : V.Lawful) {f : σ → ν → Option σ}
    (hf : ∀ s n s', f s n = some s' → ∃ tr, s' = V.run s tr ∧ V.Explores s tr [] [n])
    {l : List ν} {s s' : σ} (h : l.foldlM (fun s c => f (V.edge s c) c) s = some s') :
    ∃ tr, s' = V.run s tr ∧ V.Explores s tr l l := by
  induction l generalizing s with
  | nil =>
    obtain rfl := Option.some.inj h
    exact ⟨[], rfl, explores_nil s⟩
  | cons c l ih =>
    rw [List.foldlM_cons] at h
    obtain ⟨s₁, h₁, h⟩ := Option.bind_eq_some_iff.mp h
    obtain ⟨tr₁, rfl, htr₁⟩ := hf _ _ _ h₁
    obtain ⟨tr₂, rfl, htr₂⟩ := ih h
    exact ⟨.edge c :: tr₁ ++ tr₂, by rw [run_append]; rfl, (htr₁.cons_edge law).append htr₂⟩

/-- What a call that ends has done. -/
theorem visit_explores (law : V.Lawful) {fuel : Nat} {s s' : σ} {n : ν}
    (h : V.visit fuel s n = some s') : ∃ tr, s' = V.run s tr ∧ V.Explores s tr [] [n] := by
  induction fuel generalizing s s' n with
  | zero => exact absurd h nofun
  | succ fuel ih =>
    rw [visit] at h
    split at h
    · next hopen =>
      obtain ⟨s₁, h₁, h⟩ := Option.bind_eq_some_iff.mp h
      obtain rfl := Option.some.inj h
      obtain ⟨tr, rfl, htr⟩ := foldlM_explores law (fun s n s' => ih) h₁
      refine ⟨_, ?_, htr.node law hopen⟩
      rw [List.cons_append]
      show _ = V.run (V.enter s n) (tr ++ [.leave n])
      rw [run_append]
      rfl
    · next hclosed =>
      obtain rfl := Option.some.inj h
      refine ⟨[], rfl, ?_⟩
      have hnil := explores_nil (V := V) s
      exact { hnil with
        seen := fun r hr => by rw [List.mem_singleton.mp hr]; exact hclosed
        reach := nofun }

theorem visitAll_explores (law : V.Lawful) {fuel : Nat} {roots : List ν} {s s' : σ}
    (h : roots.foldlM (V.visit fuel) s = some s') :
    ∃ tr, s' = V.run s tr ∧ V.Explores s tr [] roots := by
  induction roots generalizing s with
  | nil =>
    obtain rfl := Option.some.inj h
    exact ⟨[], rfl, explores_nil s⟩
  | cons r roots ih =>
    rw [List.foldlM_cons] at h
    obtain ⟨s₁, h₁, h⟩ := Option.bind_eq_some_iff.mp h
    obtain ⟨tr₁, rfl, htr₁⟩ := visit_explores law h₁
    obtain ⟨tr₂, rfl, htr₂⟩ := ih h
    exact ⟨tr₁ ++ tr₂, by rw [run_append], htr₁.append htr₂⟩

/-! ## Enough depth -/

section Depth

variable [Fintype ν]

/-- The nodes still open. -/
def openSet (V : Visitor σ ν) (s : σ) : Finset ν := Finset.univ.filter fun x => V.opens s x = true

theorem Explores.openSet_subset {s : σ} {tr : List (Event ν)} {loose roots : List ν}
    (h : V.Explores s tr loose roots) : V.openSet (V.run s tr) ⊆ V.openSet s := by
  intro x hx
  rw [openSet, Finset.mem_filter] at hx ⊢
  exact ⟨hx.1, ((h.opens_iff x).mp hx.2).1⟩

theorem visit_isSome (law : V.Lawful) {fuel : Nat} {s : σ} (n : ν)
    (hfuel : (V.openSet s).card < fuel) : ∃ s', V.visit fuel s n = some s' := by
  induction fuel generalizing s n with
  | zero => omega
  | succ fuel ih =>
    rw [visit]
    split
    · next hopen =>
      have hlt : (V.openSet (V.enter s n)).card < fuel := by
        have hss : V.openSet (V.enter s n) ⊂ V.openSet s := by
          rw [Finset.ssubset_iff_of_subset]
          · refine ⟨n, by simpa [openSet] using hopen, ?_⟩
            simp [openSet, law.enter]
          · intro x hx
            rw [openSet, Finset.mem_filter, law.enter] at hx
            simpa [openSet] using hx.2.1
        have := Finset.card_lt_card hss
        omega
      -- The open nodes only become fewer along the children.
      have hfold : ∀ (l : List ν) (s : σ), (V.openSet s).card < fuel →
          ∃ s', l.foldlM (fun s c => V.visit fuel (V.edge s c) c) s = some s' := by
        intro l
        induction l with
        | nil => exact fun s _ => ⟨s, rfl⟩
        | cons c l ihl =>
          intro s hs
          have hedge : V.openSet (V.edge s c) = V.openSet s := by simp only [openSet, law.edge]
          obtain ⟨s₁, h₁⟩ := ih (s := V.edge s c) c (by rw [hedge]; exact hs)
          obtain ⟨tr, rfl, htr⟩ := visit_explores law h₁
          have hle := Finset.card_le_card htr.openSet_subset
          rw [hedge] at hle
          obtain ⟨s₂, h₂⟩ := ihl (V.run (V.edge s c) tr) (by omega)
          exact ⟨s₂, by rw [List.foldlM_cons, h₁]; exact h₂⟩
      obtain ⟨s₁, h₁⟩ := hfold (V.children n) _ hlt
      exact ⟨V.leave s₁ n, by rw [h₁]; rfl⟩
    · exact ⟨s, rfl⟩

theorem visitAll_isSome (law : V.Lawful) {fuel : Nat} (hfuel : Fintype.card ν < fuel) (roots : List ν)
    (s : σ) : ∃ s', roots.foldlM (V.visit fuel) s = some s' := by
  induction roots generalizing s with
  | nil => exact ⟨s, rfl⟩
  | cons r roots ih =>
    have hle : (V.openSet s).card ≤ Fintype.card ν := Finset.card_le_univ _
    obtain ⟨s₁, h₁⟩ := visit_isSome law r (Nat.lt_of_le_of_lt hle hfuel)
    obtain ⟨s₂, h₂⟩ := ih s₁
    exact ⟨s₂, by rw [List.foldlM_cons, h₁]; exact h₂⟩

end Depth

end Visitor

end Dfs
