import Mathlib

/-!
# Ordered maps

A map as the list of its entries in the order of the keys, so that two maps with the same lookups
are equal and a walk over a map has one order only.
-/

namespace ShapeLang.Lib

structure OrderedMap (κ β : Type) [LinearOrder κ] where
  entries : List (κ × β)
  sorted : entries.Pairwise fun a b => a.1 < b.1

namespace OrderedMap

variable {κ β : Type} [LinearOrder κ]

def empty : OrderedMap κ β := ⟨[], .nil⟩

def lookup (map : OrderedMap κ β) (key : κ) : Option β :=
  (map.entries.find? fun entry => entry.1 = key).map Prod.snd

def keys (map : OrderedMap κ β) : List κ := map.entries.map Prod.fst

variable {map : OrderedMap κ β} {key : κ} {value : β}

theorem lookup_eq_some_iff :
    map.lookup key = some value ↔ (key, value) ∈ map.entries := by
  unfold lookup
  obtain ⟨entries, sorted⟩ := map
  dsimp only
  induction entries with
  | nil => simp
  | cons entry entries ih =>
    obtain ⟨hlt, hsorted⟩ := List.pairwise_cons.mp sorted
    by_cases hkey : entry.1 = key
    -- the keys behind it are larger, so no second entry has this key
    · have hrest : (key, value) ∉ entries := by
        intro hmem
        have hbehind := hlt _ hmem
        rw [hkey] at hbehind
        exact lt_irrefl _ hbehind
      rw [List.find?_cons_of_pos (by simpa using hkey), Option.map_some, Option.some.injEq, List.mem_cons]
      constructor
      · rintro rfl
        exact Or.inl (Prod.ext hkey.symm rfl)
      · rintro (rfl | hmem)
        · rfl
        · exact absurd hmem hrest
    · rw [List.find?_cons_of_neg (by simpa using hkey), ih hsorted, List.mem_cons]
      constructor
      · exact Or.inr
      · rintro (rfl | hmem)
        · exact absurd rfl hkey
        · exact hmem

theorem mem_keys_iff : key ∈ map.keys ↔ (map.lookup key).isSome := by
  unfold keys
  rw [List.mem_map, Option.isSome_iff_exists]
  constructor
  · rintro ⟨entry, hmem, rfl⟩
    exact ⟨entry.2, lookup_eq_some_iff.mpr hmem⟩
  · rintro ⟨value, hlookup⟩
    exact ⟨(key, value), lookup_eq_some_iff.mp hlookup, rfl⟩

theorem ext_lookup {a b : OrderedMap κ β} (h : ∀ key, a.lookup key = b.lookup key) : a = b := by
  have : Std.Irrefl fun a b : κ × β => a.1 < b.1 := ⟨fun a => lt_irrefl a.1⟩
  have : Std.Asymm fun a b : κ × β => a.1 < b.1 := ⟨fun a b => lt_asymm⟩
  have hentries : a.entries = b.entries :=
    a.sorted.eq_of_mem_iff b.sorted fun entry => by rw [← lookup_eq_some_iff, ← lookup_eq_some_iff, h]
  cases a
  cases b
  cases hentries
  rfl

/-! ## Insertion where nothing is -/

/-- The place of the key is behind all smaller ones. -/
def orInsertEntries (key : κ) (value : β) : List (κ × β) → List (κ × β)
  | [] => [(key, value)]
  | entry :: entries =>
    if key < entry.1 then (key, value) :: entry :: entries
    else if key = entry.1 then entry :: entries
    else entry :: orInsertEntries key value entries

variable {entries : List (κ × β)}

theorem mem_orInsertEntries (hsorted : entries.Pairwise fun a b => a.1 < b.1) {entry : κ × β} :
    entry ∈ orInsertEntries key value entries ↔
      entry ∈ entries ∨ entry = (key, value) ∧ ∀ other ∈ entries, other.1 ≠ key := by
  induction entries with
  | nil => simp [orInsertEntries]
  | cons first entries ih =>
    obtain ⟨hfirst, hrest⟩ := List.pairwise_cons.mp hsorted
    unfold orInsertEntries
    split
    · rename_i hlt
      -- All keys of the list are behind the new one.
      have hfree : ∀ other ∈ first :: entries, other.1 ≠ key := by
        intro other hmem
        rcases List.mem_cons.mp hmem with rfl | hmem
        · exact ne_of_gt hlt
        · exact ne_of_gt (lt_trans hlt (hfirst other hmem))
      rw [List.mem_cons]
      exact ⟨fun h => h.elim (fun heq => Or.inr ⟨heq, hfree⟩) Or.inl,
        fun h => h.elim Or.inr fun hnew => Or.inl hnew.1⟩
    · split
      · rename_i hkey
        exact ⟨Or.inl, fun h => h.resolve_right fun hnew => hnew.2 first List.mem_cons_self hkey.symm⟩
      · rename_i hkey
        rw [List.mem_cons, List.mem_cons, ih hrest, or_assoc, List.forall_mem_cons]
        exact or_congr_right
          (or_congr_right (and_congr_right fun _ => ⟨fun h => ⟨Ne.symm hkey, h⟩, fun h => h.2⟩))

theorem sorted_orInsertEntries (h : entries.Pairwise fun a b => a.1 < b.1) :
    (orInsertEntries key value entries).Pairwise fun a b => a.1 < b.1 := by
  induction entries with
  | nil => exact List.pairwise_singleton _ _
  | cons first entries ih =>
    obtain ⟨hfirst, hrest⟩ := List.pairwise_cons.mp h
    unfold orInsertEntries
    split
    · rename_i hlt
      refine List.pairwise_cons.mpr ⟨fun entry hmem => ?_, h⟩
      rcases List.mem_cons.mp hmem with rfl | hmem
      · exact hlt
      · exact lt_trans hlt (hfirst entry hmem)
    · split
      · exact h
      · rename_i hnlt hne
        refine List.pairwise_cons.mpr ⟨fun entry hmem => ?_, ih hrest⟩
        rcases (mem_orInsertEntries hrest).mp hmem with hold | ⟨rfl, -⟩
        · exact hfirst entry hold
        · exact lt_of_le_of_ne (not_lt.mp hnlt) (Ne.symm hne)

/-- `entry(key).or_insert(value)`. -/
def orInsert (map : OrderedMap κ β) (key : κ) (value : β) : OrderedMap κ β :=
  ⟨orInsertEntries key value map.entries, sorted_orInsertEntries map.sorted⟩

theorem lookup_orInsert (map : OrderedMap κ β) (key key' : κ) (value : β) :
    (map.orInsert key value).lookup key' = (map.lookup key').or
    (if key' = key then some value else none) := by
  refine Option.ext fun found => ?_
  rw [lookup_eq_some_iff]
  show (key', found) ∈ orInsertEntries key value map.entries ↔ _
  rw [mem_orInsertEntries map.sorted, Option.or_eq_some_iff, lookup_eq_some_iff]
  refine or_congr_right ?_
  constructor
  · rintro ⟨heq, hfree⟩
    obtain ⟨rfl, rfl⟩ := Prod.mk.inj heq
    refine ⟨?_, if_pos rfl⟩
    -- Nothing is there: an entry would have the key.
    cases hlookup : map.lookup key' with
    | none => rfl
    | some other => exact absurd rfl (hfree _ (lookup_eq_some_iff.mp hlookup))
  · rintro ⟨hnone, hnew⟩
    split at hnew
    · rename_i hkey
      refine ⟨by rw [hkey, Option.some.inj hnew], fun other hmem hother => ?_⟩
      have hlookup : map.lookup other.1 = some other.2 := lookup_eq_some_iff.mpr hmem
      rw [hother, ← hkey, hnone] at hlookup
      cases hlookup
    · cases hnew

end OrderedMap

end ShapeLang.Lib
