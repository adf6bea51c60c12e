import ShapeLang.Lib.Runs
import ShapeLang.Lib.ShareAccount
import ShapeLang.Value.OrderedHashTables

/-!
# Calls on hash maps and hash sets

Maps are called in any order, and a merge takes its entries from another one of them. Beside each
map stands an account of the shares: those that callers gave, those that the map cloned, those it
handed to a caller, those it released. The same calls on association lists are what the maps are
compared with.
-/

namespace ShapeLang.Value

open ShapeLang.Lib

inductive MapCall (V : Type) where
  | insert (map : Nat) (key : String) (value : V)
  | insertAt (map : Nat) (key : String) (value : V)
  | remove (map : Nat) (key : String)
  | getShare (map : Nat) (key : String)
  | merge (map other : Nat)
  | drop (map : Nat)

inductive MapAnswer (V : Type) where
  | inserted (isNew : Bool)
  | removed (value : Option V)
  | share (value : Option V)
  | done

/-! ## The account of a call -/

section

variable {V : Type} {account : ShareAccount V} {values values' : List V}

def inserted (account : ShareAccount V) (value : V) (released : List V) : ShareAccount V :=
  account.record [value] [] [] released

def removed (account : ShareAccount V) (value : Option V) : ShareAccount V :=
  account.record [] [] value.toList []

def shared (account : ShareAccount V) (value : Option V) : ShareAccount V :=
  account.record [] value.toList value.toList []

def merged (account : ShareAccount V) (cloned released : List V) : ShareAccount V :=
  account.record [] cloned [] released

def dropped (account : ShareAccount V) (values : List V) : ShareAccount V := account.record [] [] [] values

variable {released : List V}

theorem balanced_inserted (h : account.Balanced values) {value : V}
    (hvalues : (values' : Multiset V) + released = values + [value]) :
    (inserted account value released).Balanced values' :=
  h.record (by simpa using hvalues)

theorem balanced_removed (h : account.Balanced values) {value : Option V}
    (hvalues : (values' : Multiset V) + value.toList = values) : (removed account value).Balanced values' :=
  h.record (by simpa using hvalues)

theorem balanced_shared (h : account.Balanced values) (value : Option V) :
    (shared account value).Balanced values :=
  h.record (by simp)

theorem balanced_merged (h : account.Balanced values) {cloned : List V}
    (hvalues : (values' : Multiset V) + released = values + cloned) :
    (merged account cloned released).Balanced values' :=
  h.record (by simpa using hvalues)

theorem balanced_dropped (h : account.Balanced values) : (dropped account values).Balanced [] :=
  h.record (by simp)

end

section

variable {V : Type}

/-! ## The calls -/

abbrev MapStates (V : Type) := Nat → HashMapData V × ShareAccount V

/-- A map that has been dropped is a new one. -/
def stepMaps (hash : String → UInt64) (ceiling : Option Nat) (maps : MapStates V) :
    MapCall V → Except TableFault (MapStates V × MapAnswer V)
  | .insert m key value =>
    ((maps m).1.insert hash ceiling key value).map fun r =>
      (Function.update maps m (r.map, inserted (maps m).2 value r.released), .inserted r.isNew)
  | .insertAt m key value =>
    ((maps m).1.insertAt hash ceiling key value).map fun r =>
      (Function.update maps m (r.map, inserted (maps m).2 value r.released), .inserted r.isNew)
  | .remove m key =>
    ((maps m).1.remove hash key).map fun r =>
    (Function.update maps m (r.1, removed (maps m).2 r.2), .removed r.2)
  | .getShare m key =>
    ((maps m).1.getShare hash key).map fun value =>
      (Function.update maps m ((maps m).1, shared (maps m).2 value), .share value)
  | .merge m other =>
    ((maps m).1.merge hash ceiling (maps other).1).map fun r =>
      (Function.update maps m (r.map, merged (maps m).2 r.cloned r.released), .done)
  | .drop m => .ok (Function.update maps m (.new, dropped (maps m).2 (maps m).1.drop), .done)

def runMaps (hash : String → UInt64) (ceiling : Option Nat) (maps : MapStates V) :
    List (MapCall V) → Except TableFault (MapStates V × List (MapAnswer V))
  | [] => .ok (maps, [])
  | call :: calls =>
    stepMaps hash ceiling maps call >>= fun r =>
      (runMaps hash ceiling r.1 calls).map fun last => (last.1, r.2 :: last.2)

/-! ## The same on association lists -/

abbrev ListStates (V : Type) := Nat → List (String × V) × ShareAccount V

def stepLists (lists : ListStates V) : MapCall V → ListStates V × MapAnswer V
  | .insert m key value | .insertAt m key value =>
    (Function.update lists m (InsertionOrdered.insert (lists m).1 key value,
      inserted (lists m).2 value (InsertionOrdered.lookup (lists m).1 key).toList),
      .inserted (decide (key ∉ (lists m).1.map Prod.fst)))
  | .remove m key =>
    (Function.update lists m (InsertionOrdered.erase (lists m).1 key,
      removed (lists m).2 (InsertionOrdered.lookup (lists m).1 key)), .removed
        (InsertionOrdered.lookup (lists m).1 key))
  | .getShare m key =>
    (Function.update lists m ((lists m).1, shared (lists m).2 (InsertionOrdered.lookup (lists m).1 key)),
      .share (InsertionOrdered.lookup (lists m).1 key))
  | .merge m other =>
    (Function.update lists m (InsertionOrdered.insertAll (lists m).1 (lists other).1,
      merged (lists m).2 ((lists other).1.map Prod.snd)
        (HashMapData.replaced (lists m).1 (lists other).1)), .done)
  | .drop m => (Function.update lists m ([], dropped (lists m).2 ((lists m).1.map Prod.snd)), .done)

def runLists (lists : ListStates V) : List (MapCall V) → ListStates V × List (MapAnswer V)
  | [] => (lists, [])
  | call :: calls =>
    ((runLists (stepLists lists call).1 calls).1, (stepLists lists call).2 ::
      (runLists (stepLists lists call).1 calls).2)

/-! ## Shares -/

section

variable {entries : List (String × V)} {key : String}

theorem values_insert (hnodup : (entries.map Prod.fst).Nodup) (key : String) (value : V) :
    ((InsertionOrdered.insert entries key value).map Prod.snd : Multiset V) +
      (InsertionOrdered.lookup entries key).toList = entries.map Prod.snd + [value] := by
  by_cases hmem : key ∈ entries.map Prod.fst
  · obtain ⟨i, old, hi⟩ := HashMapData.exists_getElem? hmem
    obtain ⟨hlt, hget⟩ := List.getElem?_eq_some_iff.mp hi
    rw [InsertionOrdered.insert_eq_set hnodup hi, InsertionOrdered.lookup_eq_some hnodup hi,
      Multiset.coe_add, Multiset.coe_add, Multiset.coe_eq_coe]
    have hset : ((entries.set i (key, value)).map Prod.snd).Perm
        (value :: (entries.eraseIdx i).map Prod.snd) :=
      (List.set_perm_cons_eraseIdx hlt (key, value)).map Prod.snd
    have hall : (old :: (entries.eraseIdx i).map Prod.snd).Perm (entries.map Prod.snd) := by
      have h := (List.getElem_cons_eraseIdx_perm hlt).map Prod.snd
      rw [hget] at h
      exact h
    calc
      List.Perm ((entries.set i (key, value)).map Prod.snd ++ [old])
        (value :: (entries.eraseIdx i).map Prod.snd ++ [old]) :=
        hset.append_right [old]
      List.Perm _ (value :: old :: (entries.eraseIdx i).map Prod.snd) :=
        (List.perm_append_singleton old _).cons value
      List.Perm _ (value :: entries.map Prod.snd) := hall.cons value
      List.Perm _ (entries.map Prod.snd ++ [value]) := (List.perm_append_singleton value _).symm
  · rw [InsertionOrdered.insert_of_notMem hmem, InsertionOrdered.lookup_eq_none hmem,
      List.map_append, Multiset.coe_add, Multiset.coe_add]
    simp

theorem values_erase (hnodup : (entries.map Prod.fst).Nodup) (key : String) :
    ((InsertionOrdered.erase entries key).map Prod.snd : Multiset V) +
    (InsertionOrdered.lookup entries key).toList =
      entries.map Prod.snd := by
  by_cases hmem : key ∈ entries.map Prod.fst
  · obtain ⟨i, old, hi⟩ := HashMapData.exists_getElem? hmem
    obtain ⟨hlt, hget⟩ := List.getElem?_eq_some_iff.mp hi
    rw [InsertionOrdered.erase_eq_eraseIdx hnodup hi, InsertionOrdered.lookup_eq_some hnodup hi,
      Multiset.coe_add, Multiset.coe_eq_coe]
    have hall := (List.getElem_cons_eraseIdx_perm hlt).map Prod.snd
    rw [hget] at hall
    exact (List.perm_append_singleton old _).trans hall
  · rw [InsertionOrdered.erase_of_notMem hmem, InsertionOrdered.lookup_eq_none hmem]
    simp

theorem values_insertAll (hnodup : (entries.map Prod.fst).Nodup) (other : List (String × V)) :
    ((InsertionOrdered.insertAll entries other).map Prod.snd : Multiset V) + HashMapData.replaced
      entries other =
      entries.map Prod.snd + other.map Prod.snd := by
  induction other generalizing entries with
  | nil => rfl
  | cons entry other ih =>
    have hone := values_insert hnodup entry.1 entry.2
    have hrest := ih (InsertionOrdered.nodup_insert hnodup entry.1 entry.2)
    have hall : ((InsertionOrdered.insertAll entries (entry :: other)).map Prod.snd : Multiset V) =
        (InsertionOrdered.insertAll (InsertionOrdered.insert entries entry.1 entry.2) other).map
          Prod.snd := rfl
    rw [hall, HashMapData.replaced, ← Multiset.coe_add, add_left_comm, hrest, ← add_assoc,
      add_comm _ ((InsertionOrdered.insert entries entry.1 entry.2).map Prod.snd : Multiset V),
        hone, add_assoc,
      Multiset.coe_add [entry.2]]
    rfl

end

/-! ## The maps and the lists -/

/-- The map represents the list, the accounts agree and are balanced. -/
structure Agrees (hash : String → UInt64) (map : HashMapData V × ShareAccount V)
    (list : List (String × V) × ShareAccount V) :
    Prop where
  represents : map.1.Represents hash list.1
  account : map.2 = list.2
  balanced : list.2.Balanced (list.1.map Prod.snd)

variable {hash : String → UInt64} {ceiling : Option Nat} {maps : MapStates V} {lists : ListStates V}

theorem agrees_new : Agrees hash (.new, .empty) (([], .empty) : List (String × V) × ShareAccount V) where
  represents := HashMapData.represents_new
  account := rfl
  balanced := rfl

variable {map : HashMapData V × ShareAccount V} {list : List (String × V) × ShareAccount V}

theorem agrees_update (h : ∀ m, Agrees hash (maps m) (lists m)) {m : Nat}
    (hm : Agrees hash map list) (n : Nat) :
    Agrees hash (Function.update maps m map n) (Function.update lists m list n) := by
  by_cases hn : n = m
  · subst hn
    rw [Function.update_self, Function.update_self]
    exact hm
  · rw [Function.update_of_ne hn, Function.update_of_ne hn]
    exact h n

theorem agrees_insert (h : Agrees hash map list) (key : String) (value : V)
    (hfits : KeysFit ceiling (InsertionOrdered.insert list.1 key value).length) :
    ∃ map', map.1.insert hash ceiling key value =
        .ok ⟨map', decide (key ∉ list.1.map Prod.fst), (InsertionOrdered.lookup list.1 key).toList⟩ ∧
      Agrees hash (map', inserted map.2 value (InsertionOrdered.lookup list.1 key).toList)
        (InsertionOrdered.insert list.1 key value,
          inserted list.2 value (InsertionOrdered.lookup list.1 key).toList) := by
  obtain ⟨map', hinsert, hmap'⟩ := h.represents.insert key value hfits
  refine ⟨map', hinsert, hmap', by rw [h.account], ?_⟩
  exact balanced_inserted h.balanced (values_insert h.represents.nodup key value)

/-- One call: the same answer, and the maps and lists agree after it. -/
theorem stepMaps_agrees (h : ∀ m, Agrees hash (maps m) (lists m)) (call : MapCall V)
    (hfits : ∀ m, KeysFit ceiling ((stepLists lists call).1 m).1.length) :
    ∃ maps', stepMaps hash ceiling maps call = .ok (maps', (stepLists lists call).2) ∧
      ∀ m, Agrees hash (maps' m) ((stepLists lists call).1 m) := by
  cases call with
  | insert m key value =>
    have hone := hfits m
    simp only [stepLists, Function.update_self] at hone
    obtain ⟨map', hinsert, hmap'⟩ := agrees_insert (h m) key value hone
    refine ⟨_, ?_, agrees_update h hmap'⟩
    rw [stepMaps, hinsert]
    rfl
  | insertAt m key value =>
    have hone := hfits m
    simp only [stepLists, Function.update_self] at hone
    obtain ⟨map', hinsert, hmap'⟩ := agrees_insert (h m) key value hone
    refine ⟨_, ?_, agrees_update h hmap'⟩
    rw [stepMaps, HashMapData.insertAt, hinsert]
    rfl
  | remove m key =>
    -- removal moves the value out, and the account says so
    obtain ⟨map', hremove, hmap'⟩ := (h m).represents.remove key
    have hagrees : Agrees hash (map', removed (maps m).2 (InsertionOrdered.lookup (lists m).1 key))
        (InsertionOrdered.erase (lists m).1 key, removed (lists m).2
          (InsertionOrdered.lookup (lists m).1 key)) :=
      ⟨hmap', by rw [(h m).account],
        balanced_removed (h m).balanced (values_erase (h m).represents.nodup key)⟩
    refine ⟨_, ?_, agrees_update h hagrees⟩
    rw [stepMaps, hremove]
    rfl
  | getShare m key =>
    have hagrees : Agrees hash ((maps m).1, shared (maps m).2 (InsertionOrdered.lookup (lists m).1 key))
        ((lists m).1, shared (lists m).2 (InsertionOrdered.lookup (lists m).1 key)) :=
      ⟨(h m).represents, by rw [(h m).account], balanced_shared (h m).balanced _⟩
    refine ⟨_, ?_, agrees_update h hagrees⟩
    rw [stepMaps, (h m).represents.getShare key]
    rfl
  | merge m other =>
    have hone := hfits m
    simp only [stepLists, Function.update_self] at hone
    -- the values of the other map are shared, those replaced are released
    obtain ⟨map', hmerge, hmap'⟩ := (h m).represents.merge (h other).represents hone
    have hagrees : Agrees hash
        (map', merged (maps m).2 ((lists other).1.map Prod.snd)
          (HashMapData.replaced (lists m).1 (lists other).1))
        (InsertionOrdered.insertAll (lists m).1 (lists other).1,
          merged (lists m).2 ((lists other).1.map Prod.snd)
            (HashMapData.replaced (lists m).1 (lists other).1)) :=
      ⟨hmap', by rw [(h m).account],
        balanced_merged (h m).balanced (values_insertAll (h m).represents.nodup _)⟩
    refine ⟨_, ?_, agrees_update h hagrees⟩
    rw [stepMaps, hmerge]
    rfl
  | drop m =>
    refine ⟨_, rfl, agrees_update h ⟨HashMapData.represents_new, ?_, balanced_dropped (h m).balanced⟩⟩
    rw [HashMapData.drop, (h m).account, (h m).represents.values]

theorem runMaps_agrees (calls : List (MapCall V)) (h : ∀ m, Agrees hash (maps m) (lists m))
    (hfits : Throughout (fun lists call => (stepLists lists call).1) lists calls
      fun lists => ∀ m, KeysFit ceiling (lists m).1.length) :
    ∃ maps', runMaps hash ceiling maps calls = .ok (maps', (runLists lists calls).2) ∧
      ∀ m, Agrees hash (maps' m) ((runLists lists calls).1 m) := by
  induction calls generalizing maps lists with
  | nil => exact ⟨maps, rfl, h⟩
  | cons call calls ih =>
    have hone : ∀ m, KeysFit ceiling ((stepLists lists call).1 m).1.length :=
      hfits [call] (List.prefix_iff_exists_append_eq.mpr ⟨calls, rfl⟩)
    obtain ⟨next, hstep, hnext⟩ := stepMaps_agrees h call hone
    obtain ⟨maps', hrun, hmaps'⟩ := ih hnext fun done hdone =>
      hfits (call :: done) (List.cons_prefix_cons.mpr ⟨rfl, hdone⟩)
    refine ⟨maps', ?_, hmaps'⟩
    rw [runMaps, hstep]
    show (runMaps hash ceiling next calls).map _ = _
    rw [hrun]
    rfl

/-! ## Sets -/

inductive SetCall where
  | insert (key : String)
  | remove (key : String)
  | contains (key : String)

/-- An insertion into a string set has no other outcome than its answer. -/
def stepSet (hash : String → UInt64) (set : HashSetData) :
    SetCall → Except TableFault (HashSetData × Except String Bool)
  | .insert key => set.insert hash key
  | .remove key => (set.remove hash key).map fun r => (r.1, .ok r.2)
  | .contains key => (set.contains hash key).map fun found => (set, .ok found)

def runSet (hash : String → UInt64) (set : HashSetData) :
    List SetCall → Except TableFault (HashSetData × List (Except String Bool))
  | [] => .ok (set, [])
  | call :: calls =>
    stepSet hash set call >>= fun r => (runSet hash r.1 calls).map fun last => (last.1, r.2 :: last.2)

def stepKeys (keys : List String) : SetCall → List String × Bool
  | .insert key => (if key ∈ keys then keys else keys ++ [key], decide (key ∉ keys))
  | .remove key => (keys.erase key, decide (key ∈ keys))
  | .contains key => (keys, decide (key ∈ keys))

def runKeys (keys : List String) : List SetCall → List String × List Bool
  | [] => (keys, [])
  | call :: calls =>
    ((runKeys (stepKeys keys call).1 calls).1, (stepKeys keys call).2 ::
      (runKeys (stepKeys keys call).1 calls).2)

variable {set : HashSetData} {keys : List String}

theorem stepSet_represents (h : set.Represents hash keys) (call : SetCall)
    (hle : (stepKeys keys call).1.length ≤ 2 ^ 32) :
    ∃ set', stepSet hash set call = .ok (set', .ok (stepKeys keys call).2) ∧
      set'.Represents hash (stepKeys keys call).1 := by
  cases call with
  | insert key => exact h.insert key hle
  | remove key =>
    obtain ⟨set', hremove, hset'⟩ := h.remove key
    refine ⟨set', ?_, hset'⟩
    rw [stepSet, hremove]
    rfl
  | contains key =>
    refine ⟨set, ?_, h⟩
    rw [stepSet, h.contains key]
    rfl

theorem runSet_represents (calls : List SetCall) (h : set.Represents hash keys)
    (hle : Throughout (fun keys call => (stepKeys keys call).1) keys calls fun keys => keys.length ≤
      2 ^ 32) :
    ∃ set', runSet hash set calls = .ok (set', (runKeys keys calls).2.map Except.ok) ∧
      set'.Represents hash (runKeys keys calls).1 := by
  induction calls generalizing set keys with
  | nil => exact ⟨set, rfl, h⟩
  | cons call calls ih =>
    have hone : (stepKeys keys call).1.length ≤ 2 ^ 32 :=
      hle [call] (List.prefix_iff_exists_append_eq.mpr ⟨calls, rfl⟩)
    obtain ⟨next, hstep, hnext⟩ := stepSet_represents h call hone
    obtain ⟨set', hrun, hset'⟩ := ih hnext fun done hdone =>
      hle (call :: done) (List.cons_prefix_cons.mpr ⟨rfl, hdone⟩)
    refine ⟨set', ?_, hset'⟩
    rw [runSet, hstep]
    show (runSet hash next calls).map _ = _
    rw [hrun]
    rfl

/-! ## The tables -/

/-- The three tables of a map have the same entries. -/
structure HashMapData.Consistent (hash : String → UInt64) (map : HashMapData V) : Prop where
  length : map.keys.data.length = map.values.data.length
  nodup : map.keys.data.Nodup
  index : Indexes hash map.index map.keys.data

theorem HashMapData.Represents.consistent {map : HashMapData V} {entries : List (String × V)}
    (h : map.Represents hash entries) : map.Consistent hash where
  length := by rw [h.keys, h.values, List.length_map, List.length_map]
  nodup := h.keys ▸ h.nodup
  index := h.keys ▸ h.index

theorem HashMapData.Represents.zip_eq {map : HashMapData V} {entries : List (String × V)}
    (h : map.Represents hash entries) : map.keys.data.zip map.values.data = entries :=
  (List.zip_of_prod h.keys.symm h.values.symm).symm

end

/-- Whatever the hash function, maps whose entries fit under the ceiling and sets of at most 2^32
keys behave as lists in the order of insertion, and every share of a value ends at one place. -/
theorem hash_tables_refine_lists (hash : String → UInt64) :
    (∀ (V : Type) (ceiling : Option Nat) (calls : List (MapCall V)),
      Throughout (fun lists call => (stepLists lists call).1) (fun _ => ([], .empty)) calls
        (fun lists : ListStates V => ∀ m, KeysFit ceiling (lists m).1.length) →
      ∃ maps, runMaps hash ceiling (fun _ => (.new, .empty)) calls =
          .ok (maps, (runLists (fun _ => ([], .empty)) calls).2) ∧
        ∀ m, (maps m).1.keys.data.zip (maps m).1.values.data =
          ((runLists (fun _ => ([], .empty)) calls).1 m).1 ∧
          (maps m).2 = ((runLists (fun _ => ([], .empty)) calls).1 m).2 ∧
          (maps m).1.Consistent hash ∧ (maps m).2.Balanced (maps m).1.values.data) ∧
    ∀ calls : List SetCall,
      Throughout (fun keys call => (stepKeys keys call).1) [] calls (fun keys => keys.length ≤ 2 ^ 32) →
      ∃ set, runSet hash .new calls = .ok (set, (runKeys [] calls).2.map Except.ok) ∧
        set.keys = (runKeys [] calls).1 ∧ set.keys.Nodup ∧ Indexes hash set.index set.keys := by
  constructor
  · intro V ceiling calls hfits
    obtain ⟨maps, hrun, hmaps⟩ := runMaps_agrees calls (fun _ => agrees_new) hfits
    refine ⟨maps, hrun, fun m => ⟨(hmaps m).represents.zip_eq, (hmaps m).account,
      (hmaps m).represents.consistent, ?_⟩⟩
    rw [(hmaps m).account, (hmaps m).represents.values]
    exact (hmaps m).balanced
  · intro calls hle
    obtain ⟨set, hrun, hset⟩ := runSet_represents calls HashSetData.represents_new hle
    exact ⟨set, hrun, hset.keys, hset.keys ▸ hset.nodup, hset.keys ▸ hset.index⟩

/-- Two keys with the same hash code, one of them overwritten. -/
theorem colliding_keys_refine :
    let calls : List (MapCall Nat) := [.insert 0 "a" 1, .insert 0 "b" 2, .insert 0 "a" 3]
    ∃ maps, runMaps (fun _ => 0) (some 32) (fun _ => (.new, .empty)) calls =
        .ok (maps, (runLists (fun _ => ([], .empty)) calls).2) ∧
      ∀ m, (maps m).1.keys.data.zip (maps m).1.values.data =
        ((runLists (fun _ => ([], .empty)) calls).1 m).1 ∧
        (maps m).2 = ((runLists (fun _ => ([], .empty)) calls).1 m).2 ∧
        (maps m).1.Consistent (fun _ => 0) ∧ (maps m).2.Balanced (maps m).1.values.data := by
  intro calls
  refine (hash_tables_refine_lists fun _ => 0).1 Nat (some 32) calls fun done hdone m => ?_
  have hsmall : ((done.foldl (fun lists call => (stepLists lists call).1) fun _ => ([], .empty))
    m).1.length ≤ 2 := by
    obtain ⟨n, hn, rfl⟩ : ∃ n, n ≤ 3 ∧ done = calls.take n :=
      ⟨done.length, hdone.length_le, List.prefix_iff_eq_take.mp hdone⟩
    have hcases : n = 0 ∨ n = 1 ∨ n = 2 ∨ n = 3 := by omega
    by_cases hm : m = 0
    · subst hm
      rcases hcases with rfl | rfl | rfl | rfl <;> decide
    · rcases hcases with rfl | rfl | rfl | rfl <;> simp [calls, stepLists, hm]
  exact .inr ⟨0, by omega, by decide, rfl⟩

/-- Below the size of the first table of keys, a key is left out: the map answers that it was
inserted, and the next lookup reads outside the keys. -/
theorem refused_key_breaks_map :
    runMaps (fun _ => 0) (some 16) (fun _ => (.new, .empty)) [.insert 0 "a" 7, .getShare 0 "a"] =
        Except.error TableFault.outOfRange ∧
      (runLists (fun _ => ([], .empty)) [.insert 0 "a" 7, .getShare 0 "a"]).2 =
        [MapAnswer.inserted true, .share (some 7)] := by
  constructor
  · rfl
  · rfl

end ShapeLang.Value
