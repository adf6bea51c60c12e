import Mathlib

/-!
# A table with a hash index of positions

The keys of a table stand in a list in the order of their insertion; a hash index maps a hash code
to the positions of the keys that have it. A lookup reads the keys at the positions of one bucket. A
removal takes the position out of its bucket by moving the last one there, closes the gap in the
list, and lowers every position behind it in every bucket.

`Indexes` says that the buckets hold each position once, in the bucket of its key. Nothing is
assumed of the hash function.
-/

namespace ShapeLang.Lib

/-- A position outside the table, or a capacity that is not a 32-bit number. -/
inductive TableFault where
  | outOfRange
  | capacityOverflow
deriving DecidableEq

section

variable {κ H α : Type} [DecidableEq κ] [DecidableEq H]

/-- The first position of a bucket whose key is the one looked for, with its place in the bucket. -/
def scan (keys : List κ) (key : κ) : List Nat → Except TableFault (Option (Nat × Nat))
  | [] => .ok none
  | i :: bucket =>
    match keys[i]? with
    | none => .error .outOfRange
    | some stored =>
      if stored = key then .ok (some (0, i))
      else (scan keys key bucket).map (Option.map fun found => (found.1 + 1, found.2))

/-- Take out a place by moving the last element there. -/
def swapRemove (bucket : List α) (place : Nat) : List α :=
  match bucket.getLast? with
  | none => []
  | some last => (bucket.set place last).dropLast

/-- Every position behind `i` is one lower. -/
def renumber (i : Nat) (buckets : H → List Nat) : H → List Nat :=
  fun h => (buckets h).map fun slot => if i < slot then slot - 1 else slot

/-- Close the gap at `i` in a table of `n` elements, element by element. -/
def shiftDown (data : List α) (i n : Nat) : List α :=
  ((List.range' i (n - 1 - i)).foldl (fun data j => (data[j + 1]?).elim data (data.set j)) data).dropLast

/-- The buckets hold the position of each key, in the bucket of its hash code and once. -/
structure Indexes (hash : κ → H) (buckets : H → List Nat) (keys : List κ) : Prop where
  nodup : ∀ h, (buckets h).Nodup
  mem_iff : ∀ h i, i ∈ buckets h ↔ ∃ key, keys[i]? = some key ∧ hash key = h

variable {hash : κ → H} {buckets : H → List Nat} {keys : List κ} {key : κ} {i place : Nat}

omit [DecidableEq κ] [DecidableEq H] in
theorem indexes_nil : Indexes hash (fun _ => []) [] where
  nodup _ := List.nodup_nil
  mem_iff _ _ := by simp

/-! ## Lookups -/

theorem scan_eq_none {bucket : List Nat} (hin : ∀ i ∈ bucket, i < keys.length) (hnone : key ∉ keys) :
    scan keys key bucket = .ok none := by
  induction bucket with
  | nil => rfl
  | cons i bucket ih =>
    have hi := hin i (.head _)
    have hne : keys[i] ≠ key := fun h => hnone (h ▸ List.getElem_mem hi)
    rw [scan, List.getElem?_eq_getElem hi]
    simp only
    rw [if_neg hne, ih fun i hi => hin i (.tail _ hi)]
    rfl

theorem scan_eq_some {bucket : List Nat} (hin : ∀ i ∈ bucket, i < keys.length) (hnodup : keys.Nodup)
    (hi : keys[i]? = some key) (hmem : i ∈ bucket) :
    ∃ place, scan keys key bucket = .ok (some (place, i)) ∧ bucket[place]? = some i := by
  induction bucket with
  | nil => cases hmem
  | cons j bucket ih =>
    have hj := hin j (.head _)
    rw [scan, List.getElem?_eq_getElem hj]
    simp only
    by_cases hkey : keys[j] = key
    · -- the keys are distinct, so this is the position
      obtain ⟨hlt, hget⟩ := List.getElem?_eq_some_iff.mp hi
      have hij : j = i := (hnodup.getElem_inj_iff).mp (hkey.trans hget.symm)
      rw [if_pos hkey, hij]
      exact ⟨0, rfl, rfl⟩
    · have hne : i ≠ j := by
        rintro rfl
        rw [List.getElem?_eq_getElem hj] at hi
        exact hkey (Option.some.inj hi)
      obtain ⟨place, hscan, hplace⟩ := ih (fun i hi => hin i (.tail _ hi))
        ((List.mem_cons.mp hmem).resolve_left hne)
      rw [if_neg hkey, hscan]
      exact ⟨place + 1, rfl, hplace⟩

omit [DecidableEq κ] [DecidableEq H] in
theorem Indexes.lt_length (h : Indexes hash buckets keys) {code : H} :
    ∀ i ∈ buckets code, i < keys.length := by
  intro i hi
  obtain ⟨_, hget, _⟩ := (h.mem_iff code i).mp hi
  exact (List.getElem?_eq_some_iff.mp hget).1

omit [DecidableEq H] in
theorem Indexes.scan_none (h : Indexes hash buckets keys) (hnone : key ∉ keys) :
    scan keys key (buckets (hash key)) = .ok none :=
  scan_eq_none h.lt_length hnone

omit [DecidableEq H] in
theorem Indexes.scan_some (h : Indexes hash buckets keys) (hnodup : keys.Nodup) (hi : keys[i]? = some key) :
    ∃ place, scan keys key (buckets (hash key)) = .ok (some (place, i)) ∧
      (buckets (hash key))[place]? = some i :=
  scan_eq_some h.lt_length hnodup hi ((h.mem_iff _ _).mpr ⟨key, hi, rfl⟩)

/-! ## Updates -/

omit [DecidableEq κ] in
/-- The new position is the next one. -/
theorem Indexes.push (h : Indexes hash buckets keys) (key : κ) :
    Indexes hash (Function.update buckets (hash key) (buckets (hash key) ++ [keys.length]))
      (keys ++ [key]) where
  nodup code := by
    by_cases hcode : code = hash key
    · subst hcode
      rw [Function.update_self]
      refine List.nodup_append.mpr ⟨h.nodup _, List.nodup_singleton _, ?_⟩
      intro i hi j hj
      have hlt := h.lt_length i hi
      rw [List.mem_singleton.mp hj]
      omega
    · rw [Function.update_of_ne hcode]
      exact h.nodup code
  mem_iff code i := by
    -- the position is one of the old ones or the next
    have hnew : (∃ stored, (keys ++ [key])[i]? = some stored ∧ hash stored = code) ↔
        (∃ stored, keys[i]? = some stored ∧ hash stored = code) ∨ i = keys.length ∧ hash key = code := by
      rcases Nat.lt_trichotomy i keys.length with hlt | rfl | hgt
      · rw [List.getElem?_append_left hlt]
        simp [Nat.ne_of_lt hlt]
      · simp
      · rw [List.getElem?_eq_none (by simp; omega), List.getElem?_eq_none (by omega)]
        simp [Nat.ne_of_gt hgt]
    rw [hnew, ← h.mem_iff code i]
    by_cases hcode : code = hash key
    · subst hcode
      rw [Function.update_self, List.mem_append, List.mem_singleton]
      simp
    · rw [Function.update_of_ne hcode]
      simp [Ne.symm hcode]

omit [DecidableEq κ] [DecidableEq H] in
theorem swapRemove_perm {bucket : List α} {x : α} (h : bucket[place]? = some x) :
    (x :: swapRemove bucket place).Perm bucket := by
  obtain ⟨hlt, hget⟩ := List.getElem?_eq_some_iff.mp h
  obtain ⟨front, last, rfl⟩ :=
    (List.eq_nil_or_concat bucket).resolve_left (List.ne_nil_of_length_pos (by omega))
  rw [List.concat_eq_append] at h hlt ⊢
  rw [List.length_append, List.length_singleton] at hlt
  rw [swapRemove, List.getLast?_concat]
  simp only
  rcases Nat.lt_or_ge place front.length with hplace | hplace
  · -- the last element takes the place of the one that goes
    have hx : front[place] = x := by
      rw [List.getElem?_append_left hplace, List.getElem?_eq_getElem hplace] at h
      exact Option.some.inj h
    rw [List.set_append_left _ _ hplace, List.dropLast_concat]
    have hset : (x :: front.set place last).Perm (last :: x :: front.eraseIdx place) :=
      ((List.set_perm_cons_eraseIdx hplace last).cons x).trans (.swap last x _)
    have hfront : (x :: front.eraseIdx place).Perm front := hx ▸ List.getElem_cons_eraseIdx_perm hplace
    exact hset.trans ((hfront.cons last).trans (List.perm_append_singleton last front).symm)
  · obtain rfl : place = front.length := by omega
    have hx : last = x := by simpa using h
    rw [List.set_append_right _ _ (Nat.le_refl _), Nat.sub_self, List.set_cons_zero,
      List.dropLast_concat, hx]
    exact (List.perm_append_singleton x front).symm

omit [DecidableEq κ] in
/-- The bucket of the removed key loses the position, and every other position follows the keys down. -/
theorem Indexes.remove (h : Indexes hash buckets keys) (hi : keys[i]? = some key)
    (hplace : (buckets (hash key))[place]? = some i) :
    Indexes hash (renumber i (Function.update buckets (hash key) (swapRemove (buckets (hash key)) place)))
      (keys.eraseIdx i) := by
  have hperm := swapRemove_perm hplace
  have hnodup : ∀ code, (Function.update buckets (hash key) (swapRemove (buckets (hash key)) place)
    code).Nodup := by
    intro code
    by_cases hcode : code = hash key
    · subst hcode
      rw [Function.update_self]
      exact (List.nodup_cons.mp (hperm.nodup_iff.mpr (h.nodup _))).2
    · rw [Function.update_of_ne hcode]
      exact h.nodup code
  -- the swap takes out one position of one bucket
  have hmem : ∀ code j, j ∈ Function.update buckets (hash key)
      (swapRemove (buckets (hash key)) place) code ↔
      j ∈ buckets code ∧ j ≠ i := by
    intro code j
    by_cases hcode : code = hash key
    · subst hcode
      have hnot := (List.nodup_cons.mp (hperm.nodup_iff.mpr (h.nodup _))).1
      rw [Function.update_self, ← hperm.mem_iff, List.mem_cons]
      constructor
      · exact fun hj => ⟨.inr hj, fun heq => hnot (heq ▸ hj)⟩
      · exact fun hj => hj.1.resolve_left hj.2
    · rw [Function.update_of_ne hcode]
      refine ⟨fun hj => ⟨hj, ?_⟩, fun hj => hj.1⟩
      rintro rfl
      obtain ⟨stored, hstored, hhash⟩ := (h.mem_iff code j).mp hj
      rw [hi] at hstored
      obtain rfl := Option.some.inj hstored
      exact hcode hhash.symm
  constructor
  · intro code
    refine List.Nodup.map_on ?_ (hnodup code)
    intro a ha b hb heq
    have hai := ((hmem code a).mp ha).2
    have hbi := ((hmem code b).mp hb).2
    split at heq <;> split at heq <;> omega
  -- positions behind the removed one move down with their keys
  · intro code j
    rw [renumber, List.mem_map]
    simp only [hmem, h.mem_iff, List.getElem?_eraseIdx]
    constructor
    · rintro ⟨slot, ⟨⟨stored, hstored, hhash⟩, hne⟩, rfl⟩
      refine ⟨stored, ?_, hhash⟩
      by_cases hlt : i < slot
      · rw [if_pos hlt, if_neg (by omega), Nat.sub_add_cancel (by omega)]
        exact hstored
      · rw [if_neg hlt, if_pos (by omega)]
        exact hstored
    · rintro ⟨stored, hstored, hhash⟩
      by_cases hlt : j < i
      · rw [if_pos hlt] at hstored
        exact ⟨j, ⟨⟨stored, hstored, hhash⟩, by omega⟩, if_neg (by omega)⟩
      · rw [if_neg hlt] at hstored
        exact ⟨j + 1, ⟨⟨stored, hstored, hhash⟩, by omega⟩, if_pos (by omega)⟩

omit [DecidableEq κ] [DecidableEq H] in
/-- The elements that have been moved down after `m` steps. -/
theorem getElem?_shift (data : List α) {i m : Nat} (hend : i + m < data.length) :
    let moved := (List.range' i m).foldl (fun data j => (data[j + 1]?).elim data (data.set j)) data
    moved.length = data.length ∧ ∀ k, moved[k]? = if i ≤ k ∧ k < i + m then data[k + 1]? else data[k]? := by
  induction m with
  | zero =>
    refine ⟨rfl, fun k => ?_⟩
    rw [if_neg (by omega)]
    rfl
  | succ m ih =>
    obtain ⟨hlength, hget⟩ := ih (by omega)
    rw [List.range'_concat, List.foldl_append, Nat.one_mul]
    simp only [List.foldl_cons, List.foldl_nil]
    generalize (List.range' i m).foldl (fun data j => (data[j + 1]?).elim data (data.set j)) data =
      moved at hlength hget ⊢
    -- the step reads its right neighbour, which no earlier step has written
    have hnext : moved[i + m + 1]? = some data[i + m + 1] := by
      rw [hget, if_neg (by omega), List.getElem?_eq_getElem]
    rw [hnext, Option.elim_some, List.length_set]
    refine ⟨hlength, fun k => ?_⟩
    rw [List.getElem?_set]
    by_cases hk : i + m = k
    · subst hk
      rw [if_pos rfl, if_pos (by omega), if_pos (by omega), List.getElem?_eq_getElem]
    · rw [if_neg hk, hget]
      by_cases hin : i ≤ k ∧ k < i + m
      · rw [if_pos hin, if_pos (by omega)]
      · rw [if_neg hin, if_neg (by omega)]

omit [DecidableEq κ] [DecidableEq H] in
theorem shiftDown_eq_eraseIdx {data : List α} (hi : i < data.length) :
    shiftDown data i data.length = data.eraseIdx i := by
  obtain ⟨hlength, hget⟩ := getElem?_shift data (m := data.length - 1 - i) (i := i) (by omega)
  refine List.ext_getElem? fun k => ?_
  rw [shiftDown, List.getElem?_dropLast, hlength, hget, List.getElem?_eraseIdx]
  by_cases hk : k < data.length - 1
  · rw [if_pos hk]
    by_cases hki : k < i
    · rw [if_neg (by omega), if_pos hki]
    · rw [if_pos (by omega), if_neg hki]
  · -- the last element has been moved or is the one that goes
    rw [if_neg hk]
    rw [if_neg (by omega), List.getElem?_eq_none (by omega)]

end

end ShapeLang.Lib
