import Mathlib

/-!
# Hash maps with unspecified iteration order

A map is a list of entries with distinct keys. Its own order is that of insertion; a program that
walks over the map sees its keys in an order that nothing specifies. A `HashOrder` fixes an order
for every walk of a run, by the point of the run where the walk happens, so that a statement over
all of them covers every run.
-/

namespace ShapeLang.Lib

abbrev HashMap (κ β : Type) := AList fun _ : κ => β

/-- An iteration order for every walk over a map. -/
structure HashOrder (κ : Type) where
  walk : List Nat → List κ → List κ
  perm : ∀ point keys, (walk point keys).Perm keys

variable {κ : Type}

/-- Every walk in the order of the entries. -/
def HashOrder.forward : HashOrder κ := ⟨fun _ keys => keys, fun _ keys => .refl keys⟩

/-- Every walk against the order of the entries. -/
def HashOrder.backward : HashOrder κ := ⟨fun _ keys => keys.reverse, fun _ keys => keys.reverse_perm⟩

/-! ## Entries after an update -/

section

variable {β : Type} [DecidableEq κ] {map : HashMap κ β} {key key' : κ} {value value' : β}

/-- `entry(key).or_insert(value)`. -/
def orInsert (map : HashMap κ β) (key : κ) (value : β) : HashMap κ β :=
  if (map.lookup key).isSome then map else map.insert key value

/-- `or_insert` of all entries of another map: what is there wins. -/
def orInsertAll (map other : HashMap κ β) : HashMap κ β :=
  other.entries.foldl (fun map entry => orInsert map entry.1 entry.2) map

theorem lookup_insert_eq_some (h : (map.insert key value).lookup key' = some value') :
    (key' = key ∧ value' = value) ∨ map.lookup key' = some value' := by
  by_cases hkey : key' = key
  · subst hkey
    rw [AList.lookup_insert] at h
    exact Or.inl ⟨rfl, (Option.some.inj h).symm⟩
  · rw [AList.lookup_insert_ne hkey] at h
    exact Or.inr h

theorem lookup_erase_eq_some (h : (map.erase key).lookup key' = some value') :
    map.lookup key' = some value' := by
  by_cases hkey : key' = key
  · subst hkey
    rw [AList.lookup_erase] at h
    cases h
  · rwa [AList.lookup_erase_ne hkey] at h

omit [DecidableEq κ] in
theorem nodupKeys_filter (map : HashMap κ β) (keep : β → Bool) :
    (map.entries.filter fun entry => keep entry.2).NodupKeys :=
  List.NodupKeys.sublist List.filter_sublist map.nodupKeys

/-- `retain` by the value. -/
def retain (map : HashMap κ β) (keep : β → Bool) : HashMap κ β :=
  ⟨map.entries.filter fun entry => keep entry.2, nodupKeys_filter map keep⟩

theorem lookup_retain_eq_some {keep : β → Bool} (h : (retain map keep).lookup key' = some value') :
    map.lookup key' = some value' ∧ keep value' = true := by
  have hmem := AList.mem_lookup_iff.mp h
  obtain ⟨hentry, hkeep⟩ := List.mem_filter.mp hmem
  exact ⟨AList.mem_lookup_iff.mpr hentry, hkeep⟩

/-- `retain` by the key. -/
def retainKeys (map : HashMap κ β) (keep : κ → Bool) : HashMap κ β :=
  ⟨map.entries.filter fun entry => keep entry.1, List.NodupKeys.sublist List.filter_sublist map.nodupKeys⟩

theorem lookup_retainKeys {keep : κ → Bool} (key : κ) :
    (retainKeys map keep).lookup key = if keep key then map.lookup key else none := by
  refine Option.ext fun value => ?_
  have hmem : value ∈ (retainKeys map keep).lookup key ↔ value ∈ map.lookup key ∧ keep key = true := by
    rw [AList.mem_lookup_iff, AList.mem_lookup_iff]
    exact List.mem_filter
  rw [← Option.mem_def, hmem]
  split <;> simp_all

/-- A loop over keys whose body changes the entry of its own key only. -/
theorem lookup_foldl_local {update : HashMap κ β → κ → HashMap κ β} (next : κ → Option β → Option β)
    (hself : ∀ map key, (update map key).lookup key = next key (map.lookup key))
    (hother : ∀ map key key', key' ≠ key → (update map key).lookup key' = map.lookup key') {keys : List κ}
    (hnodup : keys.Nodup) (map : HashMap κ β) (key : κ) :
    (keys.foldl update map).lookup key = if key ∈ keys then next key
    (map.lookup key) else map.lookup key := by
  induction keys generalizing map with
  | nil => rfl
  | cons first keys ih =>
    obtain ⟨hfirst, hnodup⟩ := List.nodup_cons.mp hnodup
    rw [List.foldl_cons, ih hnodup]
    by_cases hkey : key = first
    · subst hkey
      rw [if_neg hfirst, if_pos List.mem_cons_self, hself]
    · rw [hother _ _ _ hkey]
      simp only [List.mem_cons, hkey, false_or]

/-- Maps with the same lookups are equal as maps: their entries are a permutation of each other. -/
theorem perm_iff_lookup {map' : HashMap κ β} :
    map.entries.Perm map'.entries ↔ ∀ key, map.lookup key = map'.lookup key := by
  constructor
  · intro h key
    exact AList.perm_lookup h
  · intro h
    refine (List.perm_ext_iff_of_nodup map.nodupKeys.nodup map'.nodupKeys.nodup).mpr fun entry => ?_
    obtain ⟨key, value⟩ := entry
    rw [← AList.mem_lookup_iff, ← AList.mem_lookup_iff, h key]

theorem lookup_orInsert (map : HashMap κ β) (key key' : κ) (value : β) :
    (orInsert map key value).lookup key' = (map.lookup key').or
    (if key' = key then some value else none) := by
  unfold orInsert
  by_cases hkey : key' = key
  · subst hkey
    cases hlookup : map.lookup key' with
    | none => simp
    | some found => simp [hlookup]
  · rw [if_neg hkey, Option.or_none]
    split
    · rfl
    · exact AList.lookup_insert_ne hkey

theorem lookup_orInsert_eq_some (h : (orInsert map key value).lookup key' = some value') :
    (key' = key ∧ value' = value) ∨ map.lookup key' = some value' := by
  unfold orInsert at h
  split at h
  · exact Or.inr h
  · exact lookup_insert_eq_some h

theorem lookup_orInsertAll_eq_some {other : HashMap κ β}
    (h : (orInsertAll map other).lookup key' = some value') :
    map.lookup key' = some value' ∨ other.lookup key' = some value' := by
  have hfold : ∀ (entries : List (Sigma fun _ : κ => β)) (map : HashMap κ β),
      (entries.foldl (fun map entry => orInsert map entry.1 entry.2) map).lookup key' = some value' →
      map.lookup key' = some value' ∨ ⟨key', value'⟩ ∈ entries := by
    intro entries
    induction entries with
    | nil => exact fun map h => Or.inl h
    | cons entry entries ih =>
      intro map h
      rcases ih (orInsert map entry.1 entry.2) h with hmap | hmem
      · rcases lookup_orInsert_eq_some hmap with ⟨rfl, rfl⟩ | hold
        · exact Or.inr List.mem_cons_self
        · exact Or.inl hold
      · exact Or.inr (List.mem_cons_of_mem _ hmem)
  rcases hfold other.entries map h with hmap | hmem
  · exact Or.inl hmap
  · exact Or.inr (AList.mem_lookup_iff.mpr hmem)

theorem lookup_orInsert_of_some (h : map.lookup key' = some value') :
    (orInsert map key value).lookup key' = some value' := by
  unfold orInsert
  split
  · exact h
  · rename_i hnone
    have hne : key' ≠ key := by
      rintro rfl
      rw [h] at hnone
      exact hnone rfl
    rwa [AList.lookup_insert_ne hne]

/-- What is there stays. -/
theorem lookup_orInsertAll_of_some {other : HashMap κ β} (h : map.lookup key' = some value') :
    (orInsertAll map other).lookup key' = some value' := by
  unfold orInsertAll
  induction other.entries generalizing map with
  | nil => exact h
  | cons entry entries ih => exact ih (lookup_orInsert_of_some h)

/-- What is not there comes from the other map. -/
theorem lookup_orInsertAll_of_none {other : HashMap κ β} (hnone : map.lookup key' = none)
    (h : other.lookup key' = some value') : (orInsertAll map other).lookup key' = some value' := by
  have hfold : ∀ (entries : List (Sigma fun _ : κ => β)) (map : HashMap κ β), ⟨key', value'⟩ ∈ entries →
      ((entries.foldl (fun map entry => orInsert map entry.1 entry.2) map).lookup key').isSome := by
    intro entries
    induction entries with
    | nil => exact fun map hmem => absurd hmem List.not_mem_nil
    | cons entry entries ih =>
      intro map hmem
      rcases List.mem_cons.mp hmem with rfl | hmem
      · -- The entry is taken or there already, and stays to the end.
        have hin : ((orInsert map key' value').lookup key').isSome := by
          unfold orInsert
          split
          · assumption
          · rw [AList.lookup_insert]
            rfl
        obtain ⟨v, hv⟩ := Option.isSome_iff_exists.mp hin
        have hkeep : ∀ (entries : List (Sigma fun _ : κ => β)) (map : HashMap κ β),
            map.lookup key' = some v →
            (entries.foldl (fun map entry => orInsert map entry.1 entry.2) map).lookup key' = some v := by
          intro entries
          induction entries with
          | nil => exact fun map h => h
          | cons entry entries ih => exact fun map h => ih _ (lookup_orInsert_of_some h)
        rw [List.foldl_cons, hkeep entries _ hv]
        rfl
      · exact ih _ hmem
  obtain ⟨v, hv⟩ := Option.isSome_iff_exists.mp (hfold other.entries map (AList.mem_lookup_iff.mp h))
  rcases lookup_orInsertAll_eq_some hv with hmap | hother
  · rw [hnone] at hmap
    cases hmap
  · rw [h] at hother
    rw [Option.some.inj hother]
    exact hv

end

end ShapeLang.Lib
