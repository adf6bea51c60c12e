import ShapeLang.Lib.HashMap

/-!
# Weighted totals of a map

`tally` adds up a weight over the entries of a map. A program that keeps such a total beside the map
has to change it with every update; the lemmas say by how much. All of them go through one split:
the entry of a key, if there is one, and the map without it.

`orInsertEach` is the loop that makes sure that each of some keys has an entry.
-/

namespace ShapeLang.Lib

variable {κ β : Type} [DecidableEq κ] {map : HashMap κ β} {key key' : κ} {value value' : β}

def tally (weight : κ → β → Nat) (map : HashMap κ β) : Nat :=
  (map.entries.map fun entry => weight entry.1 entry.2).sum

/-- What the entry of a key adds to the total. -/
def weightAt (weight : κ → β → Nat) (map : HashMap κ β) (key : κ) : Nat :=
  ((map.lookup key).map (weight key)).getD 0

theorem tally_eq_weightAt_add_erase (weight : κ → β → Nat) (map : HashMap κ β) (key : κ) :
    tally weight map = weightAt weight map key + tally weight (map.erase key) := by
  by_cases hmem : key ∈ map
  · obtain ⟨value, front, back, -, hsplit, herase⟩ := List.exists_of_kerase hmem
    -- The entry in the middle is the one that a lookup finds.
    have hlookup : map.lookup key = some value := by
      refine AList.mem_lookup_iff.mpr ?_
      rw [hsplit]
      simp
    have hrest : (map.erase key).entries = front ++ back := herase
    unfold tally weightAt
    rw [hlookup, hrest, hsplit]
    simp only [List.map_append, List.map_cons, List.sum_append, List.sum_cons, Option.map_some,
      Option.getD_some]
    omega
  · have hnone : map.lookup key = none := AList.lookup_eq_none.mpr hmem
    have hsame : (map.erase key).entries = map.entries := List.kerase_of_notMem_keys hmem
    unfold tally weightAt
    rw [hnone, hsame]
    simp

variable {weight : κ → β → Nat}

theorem tally_eq_zero (hzero : ∀ key value, map.lookup key = some value → weight key value = 0) :
    tally weight map = 0 := by
  unfold tally
  refine List.sum_eq_zero fun added hmem => ?_
  obtain ⟨entry, hentry, rfl⟩ := List.mem_map.mp hmem
  exact hzero entry.1 entry.2 (AList.mem_lookup_iff.mpr hentry)

theorem tally_insert (weight : κ → β → Nat) (map : HashMap κ β) (key : κ) (value : β) :
    tally weight (map.insert key value) = weight key value + tally weight (map.erase key) := by
  unfold tally
  rw [AList.entries_insert]
  rfl

theorem tally_orInsert_of_zero (hzero : weight key value = 0) :
    tally weight (orInsert map key value) = tally weight map := by
  unfold orInsert
  split
  · rfl
  · rename_i hnone
    have hlookup : map.lookup key = none := by simpa using hnone
    have hold := tally_eq_weightAt_add_erase weight map key
    rw [tally_insert, hold, hzero, weightAt, hlookup]
    rfl

omit [DecidableEq κ] in
/-- A total over a filtered map is a total with the weight cut down to what the filter keeps. -/
theorem sum_filter_eq_tally (keep : κ → β → Bool) (size : β → Nat) (map : HashMap κ β) :
    ((map.entries.filter fun entry => keep entry.1 entry.2).map fun entry => size entry.2).sum =
      tally (fun key value => if keep key value then size value else 0) map := by
  unfold tally
  induction map.entries with
  | nil => rfl
  | cons entry entries ih =>
    rw [List.filter_cons, List.map_cons, List.sum_cons, ← ih]
    by_cases hkeep : keep entry.1 entry.2 = true
    · simp only [if_pos hkeep, List.map_cons, List.sum_cons]
    · simp only [if_neg hkeep, Nat.zero_add]

/-! ## Entries for a list of keys -/

/-- `entry(key).or_insert(value)` for each key in turn. -/
def orInsertEach (map : HashMap κ β) (keys : List κ) (value : β) : HashMap κ β :=
  keys.foldl (fun map key => orInsert map key value) map

theorem lookup_orInsertEach (map : HashMap κ β) (keys : List κ) (key' : κ) (value : β) :
    (orInsertEach map keys value).lookup key' = (map.lookup key').or
    (if key' ∈ keys then some value else none) := by
  unfold orInsertEach
  induction keys generalizing map with
  | nil => simp
  | cons key keys ih =>
    rw [List.foldl_cons, ih, lookup_orInsert, Option.or_assoc]
    congr 1
    by_cases hkey : key' = key
    · subst hkey
      simp
    · simp [hkey]

theorem tally_orInsertEach_of_zero (hzero : ∀ key, weight key value = 0) (map : HashMap κ β)
    (keys : List κ) :
    tally weight (orInsertEach map keys value) = tally weight map := by
  unfold orInsertEach
  induction keys generalizing map with
  | nil => rfl
  | cons key keys ih => rw [List.foldl_cons, ih, tally_orInsert_of_zero (hzero key)]

end ShapeLang.Lib
