import Mathlib

/-!
# Cycles of a relation that is put together

Two ways to say where a cycle of a relation comes from, when the relation has edges of two sorts.

  * `transGen_of_guarded` — if no edge outside `F` closes a cycle, then every cycle stays inside `F`;
  * `cycle_cut` — a cycle made of `E` and of edges from any source to any sink is a cycle of `E`, or
    some sink leads to some source in `E`.
-/

namespace Cycles

open Relation

variable {α : Type*} {R E F : α → α → Prop}

/-- Every edge on the way from `a` to `b` and back lies on a cycle. -/
theorem transGen_of_guarded (h : ∀ a b, R a b → ¬ F a b → ¬ ReflTransGen R b a) {a b : α}
    (hab : TransGen R a b) (hba : ReflTransGen R b a) :
    TransGen (fun x y => R x y ∧ F x y) a b := by
  induction hab with
  | single hedge => exact .single ⟨hedge, Classical.byContradiction fun hout => h _ _ hedge hout hba⟩
  | @tail b c hpath hedge ih =>
    have hback : ReflTransGen R c b := hba.trans hpath.to_reflTransGen
    exact (ih (.head hedge hba)).tail ⟨hedge, Classical.byContradiction fun hout => h _ _ hedge hout hback⟩

theorem acyclic_iff_guarded (hF : ∀ a, ¬ TransGen (fun x y => R x y ∧ F x y) a a) :
    (∀ a, ¬ TransGen R a a) ↔ ∀ a b, R a b → ¬ F a b → ¬ ReflTransGen R b a := by
  constructor
  · intro hacyclic a b hedge _ hback
    exact hacyclic a (.head' hedge hback)
  · intro hguarded a hcycle
    exact hF a (transGen_of_guarded hguarded hcycle .refl)

section Cut

variable {source sink : α → Prop}

/-- A path is one of `E`, or it has a first and a last jump from a source to a sink, or a sink leads
to a source. -/
theorem path_cut (hR : ∀ a b, R a b → E a b ∨ (source a ∧ sink b)) {a b : α} (h : TransGen R a b) :
    TransGen E a b ∨ (∃ t s, ReflTransGen E a t ∧ source t ∧ sink s ∧ ReflTransGen E s b) ∨
      ∃ s t, sink s ∧ ReflTransGen E s t ∧ source t := by
  induction h with
  | single hedge =>
    rcases hR _ _ hedge with hE | ⟨hsource, hsink⟩
    · exact Or.inl (.single hE)
    · exact Or.inr (Or.inl ⟨_, _, .refl, hsource, hsink, .refl⟩)
  | tail _ hedge ih =>
    rcases ih with hpath | ⟨t, s, hat, hsource, hsink, hpath⟩ | hreach
    · rcases hR _ _ hedge with hE | ⟨hsource, hsink⟩
      · exact Or.inl (hpath.tail hE)
      · exact Or.inr (Or.inl ⟨_, _, hpath.to_reflTransGen, hsource, hsink, .refl⟩)
    · rcases hR _ _ hedge with hE | ⟨hsource', -⟩
      · exact Or.inr (Or.inl ⟨t, s, hat, hsource, hsink, hpath.tail hE⟩)
      · exact Or.inr (Or.inr ⟨s, _, hsink, hpath, hsource'⟩)
    · exact Or.inr (Or.inr hreach)

theorem cycle_cut (hR : ∀ a b, R a b → E a b ∨ (source a ∧ sink b)) {a : α} (h : TransGen R a a) :
    TransGen E a a ∨ ∃ s t, sink s ∧ ReflTransGen E s t ∧ source t := by
  rcases path_cut hR h with hcycle | ⟨t, s, hat, hsource, hsink, hsa⟩ | hreach
  · exact Or.inl hcycle
  · exact Or.inr ⟨s, t, hsink, hsa.trans hat, hsource⟩
  · exact Or.inr hreach

end Cut

end Cycles
