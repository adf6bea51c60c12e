import Mathlib

/-!
# Collections in the order of insertion

An association list with distinct keys. A key that is inserted again keeps its place and gets the
new value; a new key goes to the end; a removal keeps the order of the rest. A set is a list of
distinct keys with the same rules.
-/

namespace ShapeLang.Lib.InsertionOrdered

variable {κ β : Type} [DecidableEq κ]

def lookup (entries : List (κ × β)) (key : κ) : Option β :=
  (entries.find? fun entry => entry.1 = key).map Prod.snd

def insert (entries : List (κ × β)) (key : κ) (value : β) : List (κ × β) :=
  if key ∈ entries.map Prod.fst then entries.map fun entry => if entry.1 = key then (key, value) else entry
  else entries ++ [(key, value)]

def erase (entries : List (κ × β)) (key : κ) : List (κ × β) := entries.filter fun entry => entry.1 ≠ key

/-- Insert the entries of another collection, in its order. -/
def insertAll (entries other : List (κ × β)) : List (κ × β) :=
  other.foldl (fun entries entry => insert entries entry.1 entry.2) entries

variable {entries : List (κ × β)} {key : κ} {value : β} {i : Nat}

theorem lookup_eq_none (h : key ∉ entries.map Prod.fst) : lookup entries key = none := by
  rw [lookup, List.find?_eq_none.mpr]
  · rfl
  · intro entry hentry
    have hne : entry.1 ≠ key := fun heq => h (heq ▸ List.mem_map_of_mem hentry)
    simpa using hne

theorem lookup_eq_some (hnodup : (entries.map Prod.fst).Nodup) (h : entries[i]? = some (key, value)) :
    lookup entries key = some value := by
  induction entries generalizing i with
  | nil => cases h
  | cons entry entries ih =>
    obtain ⟨hfirst, hrest⟩ := List.nodup_cons.mp hnodup
    cases i with
    | zero =>
      obtain rfl : entry = (key, value) := by simpa using h
      simp [lookup]
    | succ i =>
      rw [List.getElem?_cons_succ] at h
      have hne : entry.1 ≠ key := fun heq => hfirst (heq ▸ List.mem_map_of_mem (List.mem_of_getElem? h))
      rw [lookup, List.find?_cons_of_neg (by simpa using hne)]
      exact ih hrest h

theorem insert_of_notMem (h : key ∉ entries.map Prod.fst) :
    insert entries key value = entries ++ [(key, value)] :=
  if_neg h

theorem replace_of_notMem (h : key ∉ entries.map Prod.fst) :
    (entries.map fun entry => if entry.1 = key then (key, value) else entry) = entries := by
  refine (List.map_congr_left fun entry hentry => ?_).trans (List.map_id entries)
  have hne : entry.1 ≠ key := fun heq => h (heq ▸ List.mem_map_of_mem hentry)
  exact if_neg hne

theorem erase_of_notMem (h : key ∉ entries.map Prod.fst) : erase entries key = entries := by
  refine List.filter_eq_self.mpr fun entry hentry => ?_
  have hne : entry.1 ≠ key := fun heq => h (heq ▸ List.mem_map_of_mem hentry)
  simpa using hne

/-- A key that is there keeps its place. -/
theorem insert_eq_set {old : β} (hnodup : (entries.map Prod.fst).Nodup)
    (h : entries[i]? = some (key, old)) :
    insert entries key value = entries.set i (key, value) := by
  have hmem : key ∈ entries.map Prod.fst := List.mem_map_of_mem (List.mem_of_getElem? h)
  rw [insert, if_pos hmem]
  clear hmem
  induction entries generalizing i with
  | nil => cases h
  | cons entry entries ih =>
    obtain ⟨hfirst, hrest⟩ := List.nodup_cons.mp hnodup
    cases i with
    | zero =>
      obtain rfl : entry = (key, old) := by simpa using h
      rw [List.map_cons, if_pos rfl, replace_of_notMem hfirst]
      rfl
    | succ i =>
      rw [List.getElem?_cons_succ] at h
      have hne : entry.1 ≠ key := fun heq => hfirst (heq ▸ List.mem_map_of_mem (List.mem_of_getElem? h))
      rw [List.map_cons, if_neg hne, ih hrest h]
      rfl

theorem erase_eq_eraseIdx (hnodup : (entries.map Prod.fst).Nodup) (h : entries[i]? = some (key, value)) :
    erase entries key = entries.eraseIdx i := by
  induction entries generalizing i with
  | nil => cases h
  | cons entry entries ih =>
    obtain ⟨hfirst, hrest⟩ := List.nodup_cons.mp hnodup
    cases i with
    | zero =>
      obtain rfl : entry = (key, value) := by simpa using h
      rw [erase, List.filter_cons_of_neg (by simp)]
      exact erase_of_notMem hfirst
    | succ i =>
      rw [List.getElem?_cons_succ] at h
      have hne : entry.1 ≠ key := fun heq => hfirst (heq ▸ List.mem_map_of_mem (List.mem_of_getElem? h))
      rw [erase, List.filter_cons_of_pos (by simpa using hne), List.eraseIdx_cons_succ]
      exact congrArg _ (ih hrest h)

theorem map_fst_insert (entries : List (κ × β)) (key : κ) (value : β) :
    (insert entries key value).map Prod.fst =
      if key ∈ entries.map Prod.fst then entries.map Prod.fst else entries.map Prod.fst ++ [key] := by
  unfold insert
  split
  · rw [List.map_map]
    refine List.map_congr_left fun entry _ => ?_
    show (if entry.1 = key then (key, value) else entry).1 = entry.1
    split
    · exact (‹entry.1 = key›).symm
    · rfl
  · rw [List.map_append]
    rfl

theorem nodup_insert (hnodup : (entries.map Prod.fst).Nodup) (key : κ) (value : β) :
    ((insert entries key value).map Prod.fst).Nodup := by
  rw [map_fst_insert]
  split
  · exact hnodup
  · refine List.nodup_append.mpr ⟨hnodup, List.nodup_singleton key, ?_⟩
    intro a ha b hb
    rw [List.mem_singleton.mp hb]
    exact fun heq => ‹key ∉ _› (heq ▸ ha)

theorem nodup_erase (hnodup : (entries.map Prod.fst).Nodup) (key : κ) :
    ((erase entries key).map Prod.fst).Nodup :=
  hnodup.sublist (List.filter_sublist.map _)

theorem length_le_length_insert (entries : List (κ × β)) (key : κ) (value : β) :
    entries.length ≤ (insert entries key value).length := by
  unfold insert
  split
  · exact Nat.le_of_eq (List.length_map _).symm
  · rw [List.length_append]
    exact Nat.le_add_right _ _

theorem length_le_length_insertAll (entries other : List (κ × β)) :
    entries.length ≤ (insertAll entries other).length := by
  induction other generalizing entries with
  | nil => exact Nat.le_refl _
  | cons entry other ih => exact Nat.le_trans (length_le_length_insert entries entry.1 entry.2) (ih _)

end ShapeLang.Lib.InsertionOrdered
