import Mathlib

/-!
# Objects that refer to objects

A heap of objects with cells: `cell a k` is the object that cell `k` of `a` refers to. `Reach` is
reachability along cells.

  * `reach_of_added` — references that a change adds lead through the objects they were added for;
  * `reach_of_unreferenced` — what a change puts into an object that nothing refers to is out of
    reach of the others;
  * `reach_of_written` — what a change puts into one object is reached through that object;
  * `reach_of_eqOn`, `exists_crossing` — paths inside a set, and the reference by which a path leaves it;
  * `acc_of_acyclic`, `acyclic_of_acc` — among finitely many objects, a descent ends exactly when it
    meets no cycle.
-/

namespace ObjectGraph

variable {α κ : Type*} {cell cell' : α → κ → Option α} {a b : α}

def Refers (cell : α → κ → Option α) (a b : α) : Prop := ∃ k, cell a k = some b

def Reach (cell : α → κ → Option α) : α → α → Prop := Relation.ReflTransGen (Refers cell)

theorem Reach.refl (a : α) : Reach cell a a := Relation.ReflTransGen.refl

theorem Reach.trans {c : α} (h : Reach cell a b) (h' : Reach cell b c) : Reach cell a c :=
  Relation.ReflTransGen.trans h h'

theorem reach_of_cell {k : κ} (h : cell a k = some b) : Reach cell a b :=
  Relation.ReflTransGen.single ⟨k, h⟩

theorem update_eq_some [DecidableEq α] {contents : κ → Option α} {o : α} {k : κ}
    (h : Function.update cell o contents a k = some b) :
    (a = o ∧ contents k = some b) ∨ (a ≠ o ∧ cell a k = some b) := by
  by_cases ha : a = o
  · subst ha
    rw [Function.update_self] at h
    exact Or.inl ⟨rfl, h⟩
  · rw [Function.update_of_ne ha] at h
    exact Or.inr ⟨ha, h⟩

/-- A path in the changed heap is an old one, or its end is an old path from an object that a reference was
added for. -/
theorem reach_of_added {W : Set α} (hadd : ∀ a k b, cell' a k = some b → cell a k = some b ∨ b ∈ W)
    (h : Reach cell' a b) : Reach cell a b ∨ ∃ w ∈ W, Reach cell w b := by
  induction h using Relation.ReflTransGen.head_induction_on with
  | refl => exact Or.inl (.refl b)
  | head hac _ ih =>
    obtain ⟨k, hk⟩ := hac
    rcases ih with ih | ih
    · rcases hadd _ k _ hk with hold | hnew
      · exact Or.inl ((reach_of_cell hold).trans ih)
      · exact Or.inr ⟨_, hnew, ih⟩
    · exact Or.inr ih

theorem reach_of_unreferenced {n : α} (hadd : ∀ a k b, cell' a k = some b → cell a k = some b ∨ a = n)
    (hn : ∀ a k, cell' a k ≠ some n) (ha : a ≠ n) (h : Reach cell' a b) : Reach cell a b := by
  induction h using Relation.ReflTransGen.head_induction_on with
  | refl => exact .refl b
  | head hac _ ih =>
    obtain ⟨k, hk⟩ := hac
    have hc := ih fun hcn => hn _ k (hcn ▸ hk)
    exact (reach_of_cell ((hadd _ k _ hk).resolve_right ha)).trans hc

/-- What a change puts into `c` is reached through `c`. -/
theorem reach_of_written {c : α} (hadd : ∀ a k b, cell' a k = some b → cell a k = some b ∨ a = c)
    (h : Reach cell' a b) : Reach cell a b ∨ Reach cell a c := by
  induction h using Relation.ReflTransGen.head_induction_on with
  | refl => exact Or.inl (.refl b)
  | head hac _ ih =>
    obtain ⟨k, hk⟩ := hac
    rcases hadd _ k _ hk with hold | rfl
    · exact ih.imp (reach_of_cell hold).trans (reach_of_cell hold).trans
    · exact Or.inr (.refl _)

/-! ## Sets of objects and the references across their border -/

/-- Two heaps that agree on a closed set have the same paths in it. -/
theorem reach_of_eqOn {S : Set α} (hclosed : ∀ a ∈ S, ∀ k b, cell a k = some b → b ∈ S)
    (heq : ∀ a ∈ S, cell' a = cell a) (ha : a ∈ S) (h : Reach cell' a b) : Reach cell a b ∧ b ∈ S := by
  induction h with
  | refl => exact ⟨.refl a, ha⟩
  | tail _ hcb ih =>
    obtain ⟨k, hk⟩ := hcb
    rw [heq _ ih.2] at hk
    exact ⟨ih.1.trans (reach_of_cell hk), hclosed _ ih.2 k _ hk⟩

/-- A path out of a set has a first reference that leaves it. -/
theorem exists_crossing {S : Set α} (h : Reach cell a b) (ha : a ∈ S) (hb : b ∉ S) :
    ∃ x ∈ S, ∃ y, y ∉ S ∧ Refers cell x y ∧ Reach cell y b := by
  induction h using Relation.ReflTransGen.head_induction_on with
  | refl => exact absurd ha hb
  | @head x y hxy hyb ih =>
    by_cases hy : y ∈ S
    · exact ih hy
    · exact ⟨x, ha, y, hy, hxy, hyb⟩

/-! ## Objects below one another -/

section Acyclic

variable {r : α → α → Prop}

/-- What can only be descended from finitely often reaches no cycle. -/
theorem acyclic_of_acc (h : Acc (flip r) a) {d : α} (had : Relation.ReflTransGen r a d) :
    ¬ Relation.TransGen r d d := by
  have hd : Acc (flip r) d := by
    induction had with
    | refl => exact h
    | tail _ hbc ih => exact ih.inv hbc
  intro hcycle
  have hswap : Relation.TransGen (flip r) d d := Relation.transGen_swap.mpr hcycle
  have htrans := hd.transGen
  induction htrans with
  | intro d _ ih => exact ih d hswap (had.trans hcycle.to_reflTransGen) hd hcycle hswap

/-- Among finitely many objects, what reaches no cycle can only be descended from finitely often. -/
theorem acc_of_acyclic (hfinite : {d | Relation.ReflTransGen r a d}.Finite)
    (h : ∀ d, Relation.ReflTransGen r a d → ¬ Relation.TransGen r d d) : Acc (flip r) a := by
  let below : {d | Relation.ReflTransGen r a d} → {d | Relation.ReflTransGen r a d} → Prop :=
    fun x y => Relation.TransGen r y.1 x.1
  have hwf : WellFounded below := by
    have : Finite {d | Relation.ReflTransGen r a d} := hfinite
    have : IsTrans _ below := ⟨fun _ _ _ h₁ h₂ => h₂.trans h₁⟩
    have : Std.Irrefl below := ⟨fun x => h x.1 x.2⟩
    exact Finite.wellFounded_of_trans_of_irrefl _
  have hacc : ∀ x : {d | Relation.ReflTransGen r a d}, Acc (flip r) x.1 := by
    intro x
    induction x using hwf.induction with
    | _ x ih => exact ⟨x.1, fun y hxy => ih ⟨y, x.2.tail hxy⟩ (.single hxy)⟩
  exact hacc ⟨a, .refl⟩

end Acyclic

end ObjectGraph
