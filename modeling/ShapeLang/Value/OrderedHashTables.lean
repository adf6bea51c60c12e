import ShapeLang.Lib.Fallible
import ShapeLang.Lib.InsertionOrdered
import ShapeLang.Value.HashTables

/-!
# Hash maps and hash sets as ordered collections

A map represents an association list in the order of insertion (`Represents`), and every operation
does to the map what the collection's operation does to the list, with the same answer and the same
shares released. This needs room: a key that the ceiling keeps out of its table leaves the other two
tables with an entry for it.
-/

namespace ShapeLang.Value

open ShapeLang.Lib

/-- A table of `n` keys is within the ceiling, and its capacity is a 32-bit number. -/
def KeysFit (ceiling : Option Nat) (n : Nat) : Prop :=
  n = 0 ∨ ∃ k, n ≤ 4 * 2 ^ k ∧ 4 * 2 ^ k < 2 ^ 32 ∧ checkSize ceiling (4 * 2 ^ k * 8) = true

/-- A capacity that doubling gives. -/
def Doubled (cap : Nat) : Prop := cap = 0 ∨ ∃ k, cap = 4 * 2 ^ k

section

variable {V : Type} {hash : String → UInt64} {ceiling : Option Nat}

theorem checkSize_mono {a b : Nat} (hle : a ≤ b) (h : checkSize ceiling b = true) :
    checkSize ceiling a = true := by
  cases ceiling with
  | none => rfl
  | some limit =>
    have hb : b ≤ limit := by simpa [checkSize] using h
    exact decide_eq_true (Nat.le_trans hle hb)

theorem KeysFit.mono {m n : Nat} (hle : m ≤ n) (h : KeysFit ceiling n) : KeysFit ceiling m := by
  rcases h with rfl | ⟨k, hk, hrest⟩
  · exact .inl (by omega)
  · exact .inr ⟨k, by omega, hrest⟩

/-- The next capacity is allowed when one more key fits. -/
theorem newCap_of_fits {cap : Nat} (hcap : Doubled cap) (hfits : KeysFit ceiling (cap + 1)) :
    ∃ next, newCap cap = .ok next ∧ cap + 1 ≤ next ∧ Doubled next ∧ checkSize ceiling (next * 8) =
      true := by
  obtain ⟨k, hk, hlt, hsize⟩ : ∃ k, cap + 1 ≤ 4 * 2 ^ k ∧ 4 * 2 ^ k < 2 ^ 32 ∧ checkSize ceiling
      (4 * 2 ^ k * 8) = true :=
    hfits.resolve_left (by omega)
  rcases hcap with rfl | ⟨j, rfl⟩
  · have hfour : 4 ≤ 4 * 2 ^ k := Nat.le_mul_of_pos_right 4 (Nat.two_pow_pos k)
    exact ⟨4, rfl, by omega, .inr ⟨0, rfl⟩, checkSize_mono (by omega) hsize⟩
  · -- the capacities are powers of two, so the next one is not beyond one that fits
    have hjk : j < k := by
      refine (Nat.pow_lt_pow_iff_right (show 1 < 2 by decide)).mp ?_
      omega
    have hnext : 2 ^ (j + 1) ≤ 2 ^ k := Nat.pow_le_pow_right (by decide) hjk
    have hpos := Nat.two_pow_pos j
    rw [Nat.pow_succ] at hnext
    refine ⟨4 * 2 ^ j * 2, ?_, by omega, .inr ⟨j + 1, by rw [Nat.pow_succ, Nat.mul_assoc]⟩,
      checkSize_mono (by omega) hsize⟩
    rw [newCap, if_neg (by omega), if_pos (by omega)]

/-! ## Maps -/

namespace HashMapData

/-- The map holds the entries in their order, and its index knows their positions. -/
structure Represents (hash : String → UInt64) (map : HashMapData V) (entries : List (String × V)) :
    Prop where
  keys : map.keys.data = entries.map Prod.fst
  values : map.values.data = entries.map Prod.snd
  nodup : (entries.map Prod.fst).Nodup
  index : Indexes hash map.index (entries.map Prod.fst)
  sameCap : map.values.cap = map.keys.cap
  room : entries.length ≤ map.keys.cap
  doubled : Doubled map.keys.cap

variable {map : HashMapData V} {entries : List (String × V)} {key : String} {i : Nat}

theorem represents_new : Represents hash (new : HashMapData V) [] where
  keys := rfl
  values := rfl
  nodup := List.nodup_nil
  index := indexes_nil
  sameCap := rfl
  room := Nat.le_refl 0
  doubled := .inl rfl

theorem Represents.scan_none (h : Represents hash map entries) (hnone : key ∉ entries.map Prod.fst) :
    scan map.keys.data key (map.index (hash key)) = .ok none := by
  rw [h.keys]
  exact h.index.scan_none hnone

theorem Represents.scan_some (h : Represents hash map entries) {value : V}
    (hi : entries[i]? = some (key, value)) :
    ∃ place, scan map.keys.data key (map.index (hash key)) = .ok (some (place, i)) ∧
      (map.index (hash key))[place]? = some i := by
  rw [h.keys]
  refine h.index.scan_some h.nodup ?_
  rw [List.getElem?_map, hi]
  rfl

theorem Represents.valueAt (h : Represents hash map entries) {value : V}
    (hi : entries[i]? = some (key, value)) :
    map.valueAt i = .ok value := by
  rw [HashMapData.valueAt, h.values, List.getElem?_map, hi]
  rfl

/-- A key of the entries stands at one of their positions. -/
theorem exists_getElem? (hmem : key ∈ entries.map Prod.fst) :
    ∃ (i : Nat) (value : V), entries[i]? = some (key, value) := by
  obtain ⟨entry, hentry, rfl⟩ := List.mem_map.mp hmem
  obtain ⟨i, hi⟩ := List.mem_iff_getElem?.mp hentry
  exact ⟨i, entry.2, hi⟩

/-- Both tables take one more element, and keep the same capacity. -/
theorem Represents.push (h : Represents hash map entries)
    (hfits : KeysFit ceiling (entries.length + 1)) (key : String) (value : V) :
    ∃ cap, map.keys.push ceiling key = .ok ⟨map.keys.data ++ [key], cap⟩ ∧
      valuesPush map.values value = .ok ⟨map.values.data ++ [value], cap⟩ ∧ entries.length + 1 ≤
        cap ∧ Doubled cap := by
  have hkeys : map.keys.data.length = entries.length := by rw [h.keys, List.length_map]
  have hvalues : map.values.data.length = entries.length := by rw [h.values, List.length_map]
  rw [TypedArray.push, valuesPush, hkeys, hvalues, h.sameCap]
  by_cases hfull : entries.length = map.keys.cap
  · rw [if_pos hfull, if_pos hfull]
    rw [hfull] at hfits
    obtain ⟨cap, hcap, hle, hdoubled, hsize⟩ := newCap_of_fits h.doubled hfits
    refine ⟨cap, ?_, ?_, by omega, hdoubled⟩
    · rw [hcap]
      exact congrArg Except.ok (if_pos hsize)
    · rw [hcap]
      rfl
  · have hroom := h.room
    rw [if_neg hfull, if_neg hfull]
    refine ⟨map.keys.cap, rfl, ?_, by omega, h.doubled⟩
    rw [← h.sameCap]

theorem Represents.insert (h : Represents hash map entries) (key : String) (value : V)
    (hfits : KeysFit ceiling (InsertionOrdered.insert entries key value).length) :
    ∃ map', map.insert hash ceiling key value =
        .ok ⟨map', decide (key ∉ entries.map Prod.fst), (InsertionOrdered.lookup entries key).toList⟩ ∧
      Represents hash map' (InsertionOrdered.insert entries key value) := by
  by_cases hmem : key ∈ entries.map Prod.fst
  -- the key is there: its value is replaced in place
  · obtain ⟨i, old, hi⟩ := exists_getElem? hmem
    obtain ⟨place, hscan, -⟩ := h.scan_some hi
    refine ⟨{ map with values := { map.values with data := map.values.data.set i value } }, ?_, ?_⟩
    · rw [HashMapData.insert, hscan]
      show (map.valueAt i >>= fun old => _) = _
      rw [h.valueAt hi, InsertionOrdered.lookup_eq_some h.nodup hi, decide_eq_false (not_not_intro hmem)]
      rfl
    · have hkeys : (InsertionOrdered.insert entries key value).map Prod.fst = entries.map Prod.fst := by
        rw [InsertionOrdered.map_fst_insert, if_pos hmem]
      rw [InsertionOrdered.insert_eq_set h.nodup hi] at hkeys ⊢
      constructor
      · exact h.keys.trans hkeys.symm
      · rw [List.map_set, ← h.values]
      · rw [hkeys]
        exact h.nodup
      · rw [hkeys]
        exact h.index
      · exact h.sameCap
      · rw [List.length_set]
        exact h.room
      · exact h.doubled
  -- a new key: it is pushed, and its bucket gets the new position
  · rw [InsertionOrdered.insert_of_notMem hmem, List.length_append, List.length_singleton] at hfits
    obtain ⟨cap, hkeys, hvalues, hroom, hdoubled⟩ := h.push hfits key value
    refine ⟨⟨⟨map.keys.data ++ [key], cap⟩, ⟨map.values.data ++ [value], cap⟩,
      Function.update map.index (hash key) (map.index (hash key) ++ [map.keys.data.length])⟩, ?_, ?_⟩
    · rw [HashMapData.insert, h.scan_none hmem]
      show (map.keys.push ceiling key >>= fun keys => valuesPush map.values value >>= fun values => _) = _
      rw [hkeys, hvalues, InsertionOrdered.lookup_eq_none hmem, decide_eq_true hmem]
      rfl
    · have hnodup := InsertionOrdered.nodup_insert h.nodup key value
      rw [InsertionOrdered.insert_of_notMem hmem] at hnodup ⊢
      constructor
      · rw [List.map_append, ← h.keys]
        rfl
      · rw [List.map_append, ← h.values]
        rfl
      · exact hnodup
      · rw [List.map_append, h.keys]
        exact h.index.push key
      · rfl
      · rw [List.length_append]
        exact hroom
      · exact hdoubled

theorem Represents.remove (h : Represents hash map entries) (key : String) :
    ∃ map', map.remove hash key = .ok (map', InsertionOrdered.lookup entries key) ∧
      Represents hash map' (InsertionOrdered.erase entries key) := by
  by_cases hmem : key ∈ entries.map Prod.fst
  -- both columns are shifted down, and the buckets renumbered
  · obtain ⟨i, old, hi⟩ := exists_getElem? hmem
    obtain ⟨place, hscan, hplace⟩ := h.scan_some hi
    have hlt : i < entries.length := (List.getElem?_eq_some_iff.mp hi).1
    have hkeys : shiftDown map.keys.data i map.keys.data.length = (entries.eraseIdx i).map Prod.fst := by
      rw [shiftDown_eq_eraseIdx (by rw [h.keys, List.length_map]; exact hlt), h.keys, List.eraseIdx_map]
    have hvalues : shiftDown map.values.data i map.keys.data.length = (entries.eraseIdx i).map
        Prod.snd := by
      have hlength : map.keys.data.length = map.values.data.length := by
        rw [h.keys, h.values, List.length_map, List.length_map]
      rw [hlength, shiftDown_eq_eraseIdx (by rw [h.values, List.length_map]; exact hlt), h.values,
        List.eraseIdx_map]
    refine ⟨⟨⟨shiftDown map.keys.data i map.keys.data.length, map.keys.cap⟩,
      ⟨shiftDown map.values.data i map.keys.data.length, map.values.cap⟩,
      renumber i (Function.update map.index (hash key) (swapRemove (map.index (hash key)) place))⟩, ?_, ?_⟩
    · rw [HashMapData.remove, hscan]
      show (map.valueAt i >>= fun removed => _) = _
      rw [h.valueAt hi, InsertionOrdered.lookup_eq_some h.nodup hi]
      rfl
    · have hnodup := InsertionOrdered.nodup_erase h.nodup key
      rw [InsertionOrdered.erase_eq_eraseIdx h.nodup hi] at hnodup ⊢
      constructor
      · exact hkeys
      · exact hvalues
      · exact hnodup
      · rw [← List.eraseIdx_map]
        refine h.index.remove ?_ hplace
        rw [List.getElem?_map, hi]
        rfl
      · exact h.sameCap
      · exact Nat.le_trans (List.length_eraseIdx_le entries i) h.room
      · exact h.doubled
  · refine ⟨map, ?_, ?_⟩
    · rw [HashMapData.remove, h.scan_none hmem, InsertionOrdered.lookup_eq_none hmem]
      rfl
    · rw [InsertionOrdered.erase_of_notMem hmem]
      exact h

theorem Represents.getShare (h : Represents hash map entries) (key : String) :
    map.getShare hash key = .ok (InsertionOrdered.lookup entries key) := by
  by_cases hmem : key ∈ entries.map Prod.fst
  · obtain ⟨i, old, hi⟩ := exists_getElem? hmem
    obtain ⟨place, hscan, -⟩ := h.scan_some hi
    rw [HashMapData.getShare, getIndex, hscan, InsertionOrdered.lookup_eq_some h.nodup hi]
    show (map.valueAt i >>= fun value => _) = _
    rw [h.valueAt hi]
    rfl
  · rw [HashMapData.getShare, getIndex, h.scan_none hmem, InsertionOrdered.lookup_eq_none hmem]
    rfl

/-- The values that the insertions of other entries replace. -/
def replaced (entries : List (String × V)) : List (String × V) → List V
  | [] => []
  | entry :: other =>
    (InsertionOrdered.lookup entries entry.1).toList ++ replaced
    (InsertionOrdered.insert entries entry.1 entry.2) other

/-- The loop over the entries from some position on. -/
theorem Represents.mergeFrom {other : HashMapData V} {before rest : List (String × V)}
    (hother : Represents hash other (before ++ rest)) (h : Represents hash map entries)
    (hfits : KeysFit ceiling (InsertionOrdered.insertAll entries rest).length) (cloned released : List V) :
    ∃ map', (List.range' before.length rest.length).foldlM (mergeEntry hash ceiling other)
      ⟨map, cloned, released⟩ =
        .ok ⟨map', cloned ++ rest.map Prod.snd, released ++ replaced entries rest⟩ ∧
      Represents hash map' (InsertionOrdered.insertAll entries rest) := by
  induction rest generalizing before map entries cloned released with
  | nil =>
    refine ⟨map, ?_, h⟩
    rw [List.map_nil, replaced, List.append_nil, List.append_nil]
    rfl
  | cons entry rest ih =>
    obtain ⟨key, value⟩ := entry
    have hat : (before ++ (key, value) :: rest)[before.length]? = some (key, value) := by simp
    have hkey : other.keys.data[before.length]? = some key := by
      rw [hother.keys, List.getElem?_map, hat]
      rfl
    -- one insertion never needs more room than all of them
    have hone : KeysFit ceiling (InsertionOrdered.insert entries key value).length :=
      hfits.mono (InsertionOrdered.length_le_length_insertAll _ rest)
    obtain ⟨next, hinsert, hnext⟩ := h.insert key value hone
    have hstep : mergeEntry hash ceiling other ⟨map, cloned, released⟩ before.length =
        .ok ⟨next, cloned ++ [value], released ++ (InsertionOrdered.lookup entries key).toList⟩ := by
      rw [mergeEntry, hkey]
      show (other.valueAt before.length >>= fun value => map.insert hash ceiling key value >>=
        fun inserted => _) = _
      rw [hother.valueAt hat]
      show (map.insert hash ceiling key value >>= fun inserted => _) = _
      rw [hinsert]
      rfl
    have hlater : Represents hash other ((before ++ [(key, value)]) ++ rest) := by
      rw [List.append_assoc]
      exact hother
    obtain ⟨map', hrun, hmap'⟩ := ih hlater hnext hfits (cloned ++ [value])
      (released ++ (InsertionOrdered.lookup entries key).toList)
    refine ⟨map', ?_, hmap'⟩
    rw [List.length_append, List.length_singleton, List.append_assoc, List.append_assoc] at hrun
    rw [List.length_cons, List.range'_succ, List.foldlM_cons, hstep]
    exact hrun

theorem Represents.merge {other : HashMapData V} {otherEntries : List (String × V)}
    (h : Represents hash map entries) (hother : Represents hash other otherEntries)
    (hfits : KeysFit ceiling (InsertionOrdered.insertAll entries otherEntries).length) :
    ∃ map', map.merge hash ceiling other = .ok
      ⟨map', otherEntries.map Prod.snd, replaced entries otherEntries⟩ ∧
      Represents hash map' (InsertionOrdered.insertAll entries otherEntries) := by
  rw [HashMapData.merge, hother.keys, List.length_map, List.range_eq_range']
  exact @Represents.mergeFrom V hash ceiling map entries other [] otherEntries hother h hfits [] []

end HashMapData

/-! ## Sets -/

namespace HashSetData

/-- The set holds the keys in their order, and its index knows their positions. -/
structure Represents (hash : String → UInt64) (set : HashSetData) (members : List String) : Prop where
  kind : set.elementKind = .string
  keys : set.keys = members
  nodup : members.Nodup
  index : Indexes hash set.index members

variable {set : HashSetData} {keys : List String}

theorem represents_new : Represents hash new [] where
  kind := rfl
  keys := rfl
  nodup := List.nodup_nil
  index := indexes_nil

theorem Represents.scan_some (h : Represents hash set keys) {key : String} (hmem : key ∈ keys) :
    ∃ place i, scan set.keys key (set.index (hash key)) = .ok (some (place, i)) ∧
      (set.index (hash key))[place]? = some i ∧ keys[i]? = some key := by
  obtain ⟨i, hi⟩ := List.mem_iff_getElem?.mp hmem
  obtain ⟨place, hscan, hplace⟩ := h.index.scan_some h.nodup hi
  rw [h.keys]
  exact ⟨place, i, hscan, hplace, hi⟩

theorem Represents.scan_none (h : Represents hash set keys) {key : String} (hnone : key ∉ keys) :
    scan set.keys key (set.index (hash key)) = .ok none := by
  rw [h.keys]
  exact h.index.scan_none hnone

theorem Represents.contains (h : Represents hash set keys) (key : String) :
    set.contains hash key = .ok (decide (key ∈ keys)) := by
  rw [HashSetData.contains, if_neg (not_not_intro h.kind)]
  by_cases hmem : key ∈ keys
  · obtain ⟨place, i, hscan, -⟩ := h.scan_some hmem
    rw [hscan, decide_eq_true hmem]
    rfl
  · rw [h.scan_none hmem, decide_eq_false hmem]
    rfl

/-- The cast of the new position changes nothing as long as the positions are 32-bit numbers. -/
theorem Represents.insert (h : Represents hash set keys) (key : String)
    (hle : (if key ∈ keys then keys else keys ++ [key]).length ≤ 2 ^ 32) :
    ∃ set', set.insert hash key = .ok (set', .ok (decide (key ∉ keys))) ∧
      Represents hash set' (if key ∈ keys then keys else keys ++ [key]) := by
  rw [HashSetData.insert, if_neg (not_not_intro h.kind)]
  by_cases hmem : key ∈ keys
  · obtain ⟨place, i, hscan, -⟩ := h.scan_some hmem
    rw [hscan, decide_eq_false (not_not_intro hmem), if_pos hmem]
    exact ⟨set, rfl, h⟩
  · rw [if_neg hmem, List.length_append, List.length_singleton] at hle
    rw [h.scan_none hmem, decide_eq_true hmem, if_neg hmem]
    refine ⟨_, rfl, h.kind, ?_, ?_, ?_⟩
    · rw [h.keys]
    · refine List.nodup_append.mpr ⟨h.nodup, List.nodup_singleton key, ?_⟩
      intro a ha b hb
      rw [List.mem_singleton.mp hb]
      exact fun heq => hmem (heq ▸ ha)
    · simp only [h.keys]
      rw [Nat.mod_eq_of_lt (by omega)]
      exact h.index.push key

theorem Represents.remove (h : Represents hash set keys) (key : String) :
    ∃ set', set.remove hash key = .ok (set', decide (key ∈ keys)) ∧ Represents hash set'
      (keys.erase key) := by
  rw [HashSetData.remove, if_neg (not_not_intro h.kind)]
  by_cases hmem : key ∈ keys
  · obtain ⟨place, i, hscan, hplace, hi⟩ := h.scan_some hmem
    have herase : keys.erase key = keys.eraseIdx i := by
      obtain ⟨hlt, hget⟩ := List.getElem?_eq_some_iff.mp hi
      rw [← hget]
      exact h.nodup.erase_getElem i hlt
    rw [hscan, decide_eq_true hmem, herase]
    refine ⟨_, rfl, h.kind, ?_, ?_, h.index.remove hi hplace⟩
    · rw [h.keys]
    · exact h.nodup.sublist (List.eraseIdx_sublist keys i)
  · rw [h.scan_none hmem, decide_eq_false hmem, List.erase_of_not_mem hmem]
    exact ⟨set, rfl, h⟩

end HashSetData

end

end ShapeLang.Value
