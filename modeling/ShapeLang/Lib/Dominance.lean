import Mathlib

/-!
# Dominance

A graph is a relation with some roots. A node dominates another when every walk from a root to the
other goes through it. Read backwards from the exits, the same notion is post-dominance.

The rules say how dominance changes along one edge: a dominator of a node that is another node
dominates its predecessors, and a root has no dominator but itself.
-/

namespace Dominance

variable {V : Type*} {edge : V → V → Prop} {root : V → Prop} {a b p : V} {π : List V}

/-- The nodes of a walk from a root, in order. -/
inductive Walk (edge : V → V → Prop) (root : V → Prop) : V → List V → Prop
  | start {r : V} (h : root r) : Walk edge root r [r]
  | step {p b : V} {π : List V} (h : Walk edge root p π) (he : edge p b) : Walk edge root b (π ++ [b])

def Dominates (edge : V → V → Prop) (root : V → Prop) (a b : V) : Prop := ∀ π, Walk edge root b π → a ∈ π

theorem Dominates.pred (h : Dominates edge root a b) (hne : a ≠ b) (he : edge p b) :
    Dominates edge root a p := by
  intro π hwalk
  have hmem := h _ (hwalk.step he)
  rcases List.mem_append.mp hmem with hmem | hmem
  · exact hmem
  · exact absurd (List.mem_singleton.mp hmem) hne

theorem Dominates.eq_of_root (h : Dominates edge root a b) (hroot : root b) : a = b := by
  have hmem := h _ (.start hroot)
  exact List.mem_singleton.mp hmem

theorem exists_walk {r : V} (hroot : root r) (h : Relation.ReflTransGen edge r b) :
    ∃ π, Walk edge root b π := by
  induction h with
  | refl => exact ⟨_, .start hroot⟩
  | tail _ he ih =>
    obtain ⟨π, hwalk⟩ := ih
    exact ⟨_, hwalk.step he⟩

theorem Walk.reaches (h : Walk edge root b π) : ∃ r, root r ∧ Relation.ReflTransGen edge r b := by
  induction h with
  | start hroot => exact ⟨_, hroot, .refl⟩
  | step _ he ih =>
    obtain ⟨r, hroot, hreaches⟩ := ih
    exact ⟨r, hroot, hreaches.tail he⟩

/-- Whatever one node has in common with all its predecessors is on every walk to it. -/
theorem dominates_of_invariant {R : V → Prop} (hstart : ∀ r, root r → R r → a = r)
    (hstep : ∀ {p b}, (∃ r, root r ∧ Relation.ReflTransGen edge r p) → edge p b → R b → a = b ∨ R p)
    (h : R b) :
    Dominates edge root a b := by
  intro π hwalk
  induction hwalk with
  | start hroot =>
    rw [hstart _ hroot h]
    exact List.mem_singleton_self _
  | step hwalk he ih =>
    rcases hstep hwalk.reaches he h with rfl | hp
    · exact List.mem_append_right _ (List.mem_singleton_self _)
    · exact List.mem_append_left _ (ih hp)

/-! ## Walks as lists -/

theorem walk_iff :
    Walk edge root b π ↔ (∃ r, root r ∧ π.head? = some r) ∧ π.getLast? = some b ∧ π.IsChain edge :=
      by
  constructor
  · intro h
    induction h with
    | start hroot => exact ⟨⟨_, hroot, rfl⟩, rfl, .singleton _⟩
    | step hwalk he ih =>
      obtain ⟨⟨r, hroot, hhead⟩, hlast, hchain⟩ := ih
      refine ⟨⟨r, hroot, ?_⟩, by simp, ?_⟩
      · rw [List.head?_append, hhead]
        rfl
      · refine List.isChain_append.mpr ⟨hchain, .singleton _, fun x hx y hy => ?_⟩
        obtain rfl := Option.some.inj (hlast.symm.trans hx)
        obtain rfl : _ = y := by simpa using hy
        exact he
  · rintro ⟨⟨r, hroot, hhead⟩, hlast, hchain⟩
    -- from the end: the walk without its last node is a walk to the node before
    induction π using List.reverseRecOn generalizing b with
    | nil => cases hhead
    | append_singleton π x ih =>
      obtain rfl : x = b := by simpa using hlast
      rcases List.eq_nil_or_concat' π with rfl | ⟨init, p, rfl⟩
      · obtain rfl : x = r := by simpa using hhead
        exact .start hroot
      · obtain ⟨hinit, _, hlink⟩ := List.isChain_append.mp hchain
        have hhead' : (init ++ [p]).head? = some r := by simpa [List.head?_append] using hhead
        exact (ih hhead' (by simp) hinit).step (hlink p (by simp) x (by simp))

end Dominance
