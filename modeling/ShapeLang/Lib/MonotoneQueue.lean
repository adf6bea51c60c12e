import Mathlib

/-!
# Monotone queues

The queue of a sliding-window minimum: indices go up and values go strictly up from front to back. A new
value first evicts indices from the front, then removes every value at the back that it is not above. The
queue then *covers* a stretch of the input: each value of the stretch is bounded by a later entry, so the
front is a least value of the stretch.

The order is a boolean test `le` that is total and transitive; the window maximum is the same queue over
the reversed test.
-/

namespace ShapeLang.Lib

section

variable {α : Type*} (le : α → α → Bool)

/-- Evicts the indices up to `stale`, removes what the new value is not above, and appends it. -/
def monotonePush (stale i : Nat) (x : α) (queue : List (Nat × α)) : List (Nat × α) :=
  (queue.dropWhile fun e => e.1 ≤ stale).rdropWhile (fun e => le x e.2) ++ [(i, x)]

/-- The queue holds entries of `data` between `lo` and `hi`, and covers that stretch. -/
structure Covers (data : List α) (lo hi : Nat) (queue : List (Nat × α)) : Prop where
  entry : ∀ e ∈ queue, lo ≤ e.1 ∧ e.1 < hi ∧ data[e.1]? = some e.2
  sorted : queue.Pairwise fun a b => a.1 < b.1 ∧ le b.2 a.2 = false
  covers : ∀ k x, lo ≤ k → k < hi → data[k]? = some x → ∃ e ∈ queue, k ≤ e.1 ∧ le e.2 x = true

variable {le} {data : List α} {lo hi : Nat} {queue : List (Nat × α)}

theorem covers_nil (data : List α) (lo : Nat) : Covers le data lo lo [] := by
  refine ⟨fun e he => absurd he List.not_mem_nil, .nil, ?_⟩
  intro k x hlo hhi
  omega

/-- Evicting from the front leaves what covers the rest of the stretch. -/
theorem Covers.evict (hq : Covers le data lo hi queue) {stale : Nat} (hle : lo ≤ stale + 1) :
    Covers le data (stale + 1) hi (queue.dropWhile fun e => e.1 ≤ stale) := by
  obtain ⟨hentry, hsorted, hcovers⟩ := hq
  have hsub : (queue.dropWhile fun e => e.1 ≤ stale).Sublist queue := List.dropWhile_sublist _
  -- The indices go up: nothing stale is left behind the first entry that stays.
  have hmem : ∀ e, e ∈ (queue.dropWhile fun e => e.1 ≤ stale) ↔ e ∈ queue ∧ stale < e.1 := by
    clear hentry hcovers hsub
    induction queue with
    | nil => simp
    | cons a queue ih =>
      obtain ⟨ha, hrest⟩ := List.pairwise_cons.mp hsorted
      intro e
      by_cases hstale : a.1 ≤ stale
      · rw [List.dropWhile_cons_of_pos (by simpa using hstale), ih hrest e, List.mem_cons]
        constructor
        · rintro ⟨he, hlt⟩
          exact ⟨Or.inr he, hlt⟩
        · rintro ⟨rfl | he, hlt⟩
          · omega
          · exact ⟨he, hlt⟩
      · rw [List.dropWhile_cons_of_neg (by simpa using hstale)]
        constructor
        · intro he
          refine ⟨he, ?_⟩
          rcases List.mem_cons.mp he with rfl | he
          · omega
          · have := (ha e he).1
            omega
        · exact fun he => he.1
  refine ⟨?_, hsorted.sublist hsub, ?_⟩
  · intro e he
    obtain ⟨hin, hlt⟩ := (hmem e).mp he
    obtain ⟨-, hhi, hget⟩ := hentry e hin
    exact ⟨hlt, hhi, hget⟩
  · intro k x hlo hhi hget
    obtain ⟨e, he, hke, hle'⟩ := hcovers k x (by omega) hhi hget
    exact ⟨e, (hmem e).mpr ⟨he, by omega⟩, hke, hle'⟩

theorem mem_or_of_rdropWhile (p : Nat × α → Bool) (queue : List (Nat × α)) {e : Nat × α} (he : e ∈ queue) :
    e ∈ queue.rdropWhile p ∨ p e = true := by
  induction queue using List.reverseRecOn with
  | nil => exact absurd he List.not_mem_nil
  | append_singleton queue a ih =>
    by_cases hp : p a = true
    · rw [List.rdropWhile_concat_pos _ _ _ hp]
      rcases List.mem_append.mp he with he | he
      · exact ih he
      · obtain rfl := List.mem_singleton.mp he
        exact Or.inr hp
    · rw [List.rdropWhile_concat_neg _ _ _ hp]
      exact Or.inl he

section

variable (htotal : ∀ a b, le a b = true ∨ le b a = true)
  (htrans : ∀ a b c, le a b = true → le b c = true → le a c = true)

include htotal htrans

/-- What stays at the back is strictly below the new value. -/
theorem below_of_mem_rdropWhile (hsorted : queue.Pairwise fun a b => a.1 < b.1 ∧ le b.2 a.2 = false) (x : α)
    {e : Nat × α} (he : e ∈ queue.rdropWhile fun e => le x e.2) : le x e.2 = false := by
  induction queue using List.reverseRecOn with
  | nil => simp at he
  | append_singleton queue a ih =>
    obtain ⟨hqueue, -, hlast⟩ := List.pairwise_append.mp hsorted
    by_cases hxa : le x a.2 = true
    · rw [List.rdropWhile_concat_pos (fun e : Nat × α => le x e.2) _ _ hxa] at he
      exact ih hqueue he
    · rw [List.rdropWhile_concat_neg (fun e : Nat × α => le x e.2) _ _ hxa] at he
      rcases List.mem_append.mp he with he | he
      · -- An earlier entry is below the last one, which is below the new value.
        have hstrict := (hlast e he a (List.mem_singleton.mpr rfl)).2
        have hea : le e.2 a.2 = true := by
          rcases htotal e.2 a.2 with h | h
          · exact h
          · rw [hstrict] at h
            cases h
        by_contra hxe
        exact hxa (htrans x e.2 a.2 (by simpa using hxe) hea)
      · obtain rfl := List.mem_singleton.mp he
        simpa using hxa

/-- Replacing the tail by the new value keeps the queue covering, up to the new value. -/
theorem Covers.append (hq : Covers le data lo hi queue) {x : α} (hlo : lo ≤ hi) (hx : data[hi]? = some x) :
    Covers le data lo (hi + 1) (queue.rdropWhile (fun e => le x e.2) ++ [(hi, x)]) := by
  obtain ⟨hentry, hsorted, hcovers⟩ := hq
  -- what is dropped from the tail is covered by the new value
  have hkeep : queue.rdropWhile (fun e => le x e.2) <+: queue := List.rdropWhile_prefix _ _
  refine ⟨?_, List.pairwise_append.mpr ⟨hsorted.sublist hkeep.sublist, List.pairwise_singleton _ _, ?_⟩, ?_⟩
  · intro e he
    rcases List.mem_append.mp he with he | he
    · obtain ⟨h₁, h₂, h₃⟩ := hentry e (hkeep.subset he)
      exact ⟨h₁, by omega, h₃⟩
    · obtain rfl := List.mem_singleton.mp he
      exact ⟨hlo, Nat.lt_succ_self hi, hx⟩
  · intro e he b hb
    obtain rfl := List.mem_singleton.mp hb
    exact ⟨(hentry e (hkeep.subset he)).2.1, below_of_mem_rdropWhile htotal htrans hsorted x he⟩
  -- an element that was covered by a dropped entry is covered by the new one, which stands later
  · intro k y hk hhi hy
    have hnew : ((hi, x) : Nat × α) ∈ queue.rdropWhile (fun e => le x e.2) ++ [(hi, x)] :=
      List.mem_append_right _ (List.mem_singleton.mpr rfl)
    rcases Nat.lt_succ_iff_lt_or_eq.mp hhi with hlt | rfl
    · obtain ⟨e, he, hke, hey⟩ := hcovers k y hk hlt hy
      rcases mem_or_of_rdropWhile (fun e => le x e.2) queue he with hstay | hgone
      · exact ⟨e, List.mem_append_left _ hstay, hke, hey⟩
      · exact ⟨_, hnew, by omega, htrans x e.2 y hgone hey⟩
    · obtain rfl := Option.some.inj (hx.symm.trans hy)
      refine ⟨_, hnew, Nat.le_refl _, ?_⟩
      rcases htotal x x with h | h <;> exact h

/-- One step of the window: what it covers starts after the evicted indices. -/
theorem Covers.push (hq : Covers le data lo hi queue) {stale : Nat} {x : α} (hle : lo ≤ stale + 1)
    (hstale : stale < hi) (hx : data[hi]? = some x) :
    Covers le data (stale + 1) (hi + 1) (monotonePush le stale hi x queue) :=
  (hq.evict hle).append htotal htrans hstale hx

/-- The front of a queue that covers a stretch is a value of it, and bounds all of them. -/
theorem Covers.front (hq : Covers le data lo hi queue) (hlo : lo < hi) (hhi : hi ≤ data.length) :
    ∃ e, queue.head? = some e ∧ (∃ k, lo ≤ k ∧ k < hi ∧ data[k]? = some e.2) ∧
      ∀ k x, lo ≤ k → k < hi → data[k]? = some x → le e.2 x = true := by
  obtain ⟨hentry, hsorted, hcovers⟩ := hq
  cases queue with
  | nil =>
    obtain ⟨e, he, -⟩ := hcovers lo (data.get ⟨lo, by omega⟩) (Nat.le_refl lo) hlo
      (List.getElem?_eq_getElem (by omega))
    exact absurd he List.not_mem_nil
  | cons a queue =>
    obtain ⟨h₁, h₂, h₃⟩ := hentry a List.mem_cons_self
    refine ⟨a, rfl, ⟨a.1, h₁, h₂, h₃⟩, ?_⟩
    intro k x hk hkhi hx
    obtain ⟨e, he, -, hex⟩ := hcovers k x hk hkhi hx
    rcases List.mem_cons.mp he with rfl | he
    · exact hex
    · have hstrict := ((List.pairwise_cons.mp hsorted).1 e he).2
      rcases htotal a.2 e.2 with h | h
      · exact htrans a.2 e.2 x h hex
      · rw [hstrict] at h
        cases h

end

end

end ShapeLang.Lib
