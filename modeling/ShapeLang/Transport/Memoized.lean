import ShapeLang.Lib.HashMap

/-!
# ShapeLang — the memoized transport

A wrapper around a transport that keeps the answers of `send` in a bounded cache
(`crates/shape-wire/src/transport/memoized.rs`). An answer is kept under the SHA-256 digest of the
destination followed by the payload. The keys are listed in the order they came in, and the first of
the list is evicted when the cache is full.

The cache and the list are behind one lock, which `send` takes twice: to look the key up, and to
store the answer. Between the two it waits for the inner transport without the lock, so the steps of
a run are the locked sections of all calls and the replies of the inner transport, in any order:

  * `enter` — a `send` up to the end of its first section;
  * `reply` — the inner transport answers a `send` that is waiting;
  * `store` — the second section of a `send`;
  * `invalidate`, `invalidateAll`.

The inner transport is a function of the request, and the digest a function of the bytes.
-/

namespace ShapeLang.Transport

open Lib

structure Request where
  destination : String
  payload : List UInt8
  deriving DecidableEq

/-- What the hasher is fed. -/
def Request.bytes (request : Request) : List UInt8 :=
  request.destination.toUTF8.data.toList ++ request.payload

structure CacheEntry where
  result : List UInt8
  hits : Nat
  deriving DecidableEq

structure MemoStats where
  cacheHits : Nat
  cacheMisses : Nat
  evictions : Nat
  totalRequests : Nat
  deriving DecidableEq

structure CacheState (κ : Type) where
  cache : HashMap κ CacheEntry
  stats : MemoStats
  /-- Oldest first. -/
  insertionOrder : List κ

structure MemoizedTransport (κ ε : Type) where
  inner : Request → Except ε (List UInt8)
  digest : List UInt8 → κ
  maxEntries : Nat
  enabled : Bool

variable {κ ε : Type}

def MemoizedTransport.computeCacheKey (M : MemoizedTransport κ ε) (request : Request) : κ :=
  M.digest request.bytes

/-! ## The locked sections -/

namespace CacheState

def new : CacheState κ := ⟨∅, ⟨0, 0, 0, 0⟩, []⟩

def len (s : CacheState κ) : Nat := s.cache.entries.length

def countRequest (s : CacheState κ) : CacheState κ :=
  { s with stats := { s.stats with totalRequests := s.stats.totalRequests + 1 } }

variable [DecidableEq κ]

/-- The first section of `send` behind its counter, with the cached answer if there is one. -/
def checkCache (s : CacheState κ) (key : κ) : CacheState κ × Option (List UInt8) :=
  match s.cache.lookup key with
  | some entry =>
    ({ s with
        cache := s.cache.insert key { entry with hits := entry.hits + 1 }
        stats := { s.stats with cacheHits := s.stats.cacheHits + 1 } }, some entry.result)
  | none => ({ s with stats := { s.stats with cacheMisses := s.stats.cacheMisses + 1 } }, none)

def evictOldest (s : CacheState κ) : CacheState κ :=
  match s.insertionOrder with
  | [] => s
  | oldestKey :: rest =>
    { cache := s.cache.erase oldestKey
      insertionOrder := rest
      stats := { s.stats with evictions := s.stats.evictions + 1 } }

def makeRoom (s : CacheState κ) (maxEntries : Nat) : CacheState κ :=
  if maxEntries ≤ s.len then s.evictOldest else s

/-- The second section of `send`. -/
def insertResult (s : CacheState κ) (maxEntries : Nat) (key : κ) (result : List UInt8) : CacheState κ :=
  let s := s.makeRoom maxEntries
  { s with
    insertionOrder := s.insertionOrder ++ [key]
    cache := s.cache.insert key ⟨result, 0⟩ }

def invalidate (s : CacheState κ) (key : κ) : CacheState κ :=
  match s.cache.lookup key with
  | some _ => { s with cache := s.cache.erase key, insertionOrder := s.insertionOrder.filter (· ≠ key) }
  | none => s

def invalidateAll (s : CacheState κ) : CacheState κ := { s with cache := ∅, insertionOrder := [] }

end CacheState

/-! ## Runs -/

/-- A `send` that has not returned. -/
inductive Flight where
  /-- Caching is off: it returns what the inner transport answers. -/
  | passing (request : Request)
  /-- It waits for the inner transport. -/
  | missed (request : Request)
  /-- It has the answer and waits for the lock. -/
  | answered (request : Request) (result : List UInt8)

structure System (T κ ε : Type) where
  state : CacheState κ
  flights : T → Option Flight
  /-- What the calls returned so far. -/
  returned : List (Request × Except ε (List UInt8))

inductive Action (T κ : Type) where
  | enter (t : T) (request : Request)
  | reply (t : T)
  | store (t : T)
  | invalidate (key : κ)
  | invalidateAll

namespace MemoizedTransport

variable {T : Type} [DecidableEq T] [DecidableEq κ]

omit [DecidableEq T] [DecidableEq κ] in
def init : System T κ ε := ⟨.new, fun _ => none, []⟩

def enter (M : MemoizedTransport κ ε) (sys : System T κ ε) (t : T) (request : Request) : System T κ ε :=
  let s := sys.state.countRequest
  if M.enabled then
    match s.checkCache (M.computeCacheKey request) with
    | (s, some result) => { sys with state := s, returned := (request, .ok result) :: sys.returned }
    | (s, none) =>
      { sys with state := s, flights := Function.update sys.flights t (some (.missed request)) }
  else { sys with state := s, flights := Function.update sys.flights t (some (.passing request)) }

/-- The call returns. -/
def leave (sys : System T κ ε) (t : T) (request : Request) (result : Except ε (List UInt8)) :
    System T κ ε :=
  { sys with flights := Function.update sys.flights t none, returned := (request, result) :: sys.returned }

def step (M : MemoizedTransport κ ε) (sys : System T κ ε) : Action T κ → Option (System T κ ε)
  | .enter t request =>
    match sys.flights t with
    | none => some (M.enter sys t request)
    | some _ => none
  | .reply t =>
    match sys.flights t with
    | some (.passing request) => some (leave sys t request (M.inner request))
    | some (.missed request) =>
      match M.inner request with
      | .error e => some (leave sys t request (.error e))
      | .ok result =>
        some { sys with flights := Function.update sys.flights t (some (.answered request result)) }
    | _ => none
  | .store t =>
    match sys.flights t with
    | some (.answered request result) =>
      let s := sys.state.insertResult M.maxEntries (M.computeCacheKey request) result
      some { leave sys t request (.ok result) with state := s }
    | _ => none
  | .invalidate key => some { sys with state := sys.state.invalidate key }
  | .invalidateAll => some { sys with state := sys.state.invalidateAll }

def runFrom (M : MemoizedTransport κ ε) (sys : System T κ ε) (actions : List (Action T κ)) :
    Option (System T κ ε) :=
  actions.foldlM M.step sys

def run (M : MemoizedTransport κ ε) (actions : List (Action T κ)) : Option (System T κ ε) :=
  M.runFrom init actions

end MemoizedTransport

/-! ## The list against the map -/

namespace CacheState

/-- The list has the keys of the map, each once. -/
structure Listed (s : CacheState κ) : Prop where
  nodup : s.insertionOrder.Nodup
  mem_iff : ∀ key, key ∈ s.insertionOrder ↔ key ∈ s.cache

theorem Listed.len_eq {s : CacheState κ} (h : s.Listed) : s.len = s.insertionOrder.length := by
  have hperm : s.insertionOrder.Perm s.cache.keys := by
    refine (List.perm_ext_iff_of_nodup h.nodup s.cache.keys_nodup).mpr fun key => ?_
    rw [h.mem_iff, AList.mem_keys]
  rw [hperm.length_eq]
  exact (List.length_map _).symm

theorem listed_new : (new : CacheState κ).Listed := ⟨List.nodup_nil, fun key => by simp [new]⟩

variable [DecidableEq κ] {s : CacheState κ} {maxEntries : Nat} {key : κ}

theorem Listed.checkCache (h : s.Listed) (key : κ) : (s.checkCache key).1.Listed := by
  unfold CacheState.checkCache
  cases hlookup : s.cache.lookup key with
  | none => exact ⟨h.nodup, h.mem_iff⟩
  | some entry =>
    refine ⟨h.nodup, fun key' => ?_⟩
    have hmem : key ∈ s.cache := AList.lookup_isSome.mp (by rw [hlookup]; rfl)
    rw [h.mem_iff, AList.mem_insert]
    constructor
    · exact Or.inr
    · rintro (rfl | hold)
      · exact hmem
      · exact hold

theorem checkCache_insertionOrder (s : CacheState κ) (key : κ) :
    (s.checkCache key).1.insertionOrder = s.insertionOrder := by
  unfold CacheState.checkCache
  split <;> rfl

theorem Listed.invalidate (h : s.Listed) (key : κ) : (s.invalidate key).Listed := by
  unfold CacheState.invalidate
  split
  · refine ⟨h.nodup.filter _, fun key' => ?_⟩
    rw [List.mem_filter, h.mem_iff, AList.mem_erase, decide_eq_true_iff, and_comm]
  · exact h

theorem invalidate_insertionOrder_length (s : CacheState κ) (key : κ) :
    (s.invalidate key).insertionOrder.length ≤ s.insertionOrder.length := by
  unfold CacheState.invalidate
  split
  · exact List.length_filter_le _ _
  · exact le_rfl

omit [DecidableEq κ] in
theorem listed_invalidateAll (s : CacheState κ) : s.invalidateAll.Listed :=
  ⟨List.nodup_nil, fun key => by simp [CacheState.invalidateAll]⟩

theorem Listed.evictOldest (h : s.Listed) : s.evictOldest.Listed := by
  unfold CacheState.evictOldest
  split
  · exact h
  · rename_i oldestKey rest hcons
    have hnodup := h.nodup
    rw [hcons, List.nodup_cons] at hnodup
    refine ⟨hnodup.2, fun key => ?_⟩
    show key ∈ rest ↔ key ∈ s.cache.erase oldestKey
    rw [AList.mem_erase, ← h.mem_iff, hcons, List.mem_cons]
    constructor
    · intro hmem
      exact ⟨fun heq => hnodup.1 (heq ▸ hmem), Or.inr hmem⟩
    · rintro ⟨hne, heq | hmem⟩
      · exact absurd heq hne
      · exact hmem

theorem Listed.makeRoom (h : s.Listed) (maxEntries : Nat) : (s.makeRoom maxEntries).Listed := by
  unfold CacheState.makeRoom
  split
  · exact h.evictOldest
  · exact h

/-- Behind the eviction there is room for one more entry. -/
theorem Listed.makeRoom_lt (h : s.Listed) (hbound : s.len ≤ maxEntries) (hpos : 1 ≤ maxEntries) :
    (s.makeRoom maxEntries).insertionOrder.length < maxEntries := by
  have hlen := h.len_eq
  unfold CacheState.makeRoom
  split
  · unfold CacheState.evictOldest
    split
    · rename_i hnil
      rw [hnil, List.length_nil] at hlen
      omega
    · rename_i rest hcons
      rw [hcons, List.length_cons] at hlen
      show rest.length < maxEntries
      omega
  · omega

/-- There is a place for an entry under the key: the cache may hold entries at all, and the key is
not in it or is the one that the eviction takes. -/
def HasRoom (s : CacheState κ) (maxEntries : Nat) (key : κ) : Prop :=
  1 ≤ maxEntries ∧ (key ∈ s.cache → maxEntries ≤ s.len ∧ s.insertionOrder.head? = some key)

instance (s : CacheState κ) (maxEntries : Nat) (key : κ) : Decidable (s.HasRoom maxEntries key) :=
  inferInstanceAs (Decidable (_ ∧ (_ → _)))

/-- With a place for it the key is new behind the eviction. -/
theorem HasRoom.fresh (hroom : s.HasRoom maxEntries key) : key ∉ (s.makeRoom maxEntries).cache := by
  intro hmem
  by_cases hkey : key ∈ s.cache
  · obtain ⟨hfull, hhead⟩ := hroom.2 hkey
    obtain ⟨rest, hcons⟩ : ∃ rest, s.insertionOrder = key :: rest := by
      cases horder : s.insertionOrder with
      | nil => simp [horder] at hhead
      | cons first rest =>
        rw [horder] at hhead
        exact ⟨rest, by rw [Option.some.inj hhead]⟩
    rw [CacheState.makeRoom, if_pos hfull, CacheState.evictOldest, hcons] at hmem
    exact (AList.mem_erase.mp hmem).1 rfl
  · -- the eviction adds nothing
    unfold CacheState.makeRoom CacheState.evictOldest at hmem
    split at hmem
    · split at hmem
      · exact hkey hmem
      · exact hkey (AList.mem_erase.mp hmem).2
    · exact hkey hmem

theorem Listed.insertResult (h : s.Listed) (hroom : s.HasRoom maxEntries key) (result : List UInt8) :
    (s.insertResult maxEntries key result).Listed := by
  have hlisted := h.makeRoom maxEntries
  have hfresh : key ∉ (s.makeRoom maxEntries).insertionOrder :=
    fun hmem => hroom.fresh ((hlisted.mem_iff key).mp hmem)
  refine ⟨?_, fun key' => ?_⟩
  · show ((s.makeRoom maxEntries).insertionOrder ++ [key]).Nodup
    exact List.nodup_append.mpr ⟨hlisted.nodup, List.nodup_singleton key, by
      rintro a ha b hb rfl
      exact hfresh (List.mem_singleton.mp hb ▸ ha)⟩
  · show key' ∈ (s.makeRoom maxEntries).insertionOrder ++ [key] ↔
      key' ∈ (s.makeRoom maxEntries).cache.insert key _
    rw [List.mem_append, List.mem_singleton, AList.mem_insert, hlisted.mem_iff, or_comm]

/-- The list has the keys of the map, which are no more than the cache may hold. -/
structure Coupled (s : CacheState κ) (maxEntries : Nat) : Prop where
  listed : s.Listed
  bounded : s.len ≤ maxEntries

omit [DecidableEq κ] in
theorem Listed.coupled {s' : CacheState κ} (h : s.Coupled maxEntries) (h' : s'.Listed)
    (hle : s'.insertionOrder.length ≤ s.insertionOrder.length) : s'.Coupled maxEntries := by
  refine ⟨h', ?_⟩
  have hbounded := h.bounded
  rw [h.listed.len_eq] at hbounded
  rw [h'.len_eq]
  exact Nat.le_trans hle hbounded

theorem Coupled.insertResult (h : s.Coupled maxEntries) (hroom : s.HasRoom maxEntries key)
    (result : List UInt8) :
    (s.insertResult maxEntries key result).Coupled maxEntries := by
  have hlisted := h.listed.insertResult hroom result
  refine ⟨hlisted, ?_⟩
  have hlt := h.listed.makeRoom_lt h.bounded hroom.1
  rw [hlisted.len_eq]
  show ((s.makeRoom maxEntries).insertionOrder ++ [key]).length ≤ maxEntries
  rw [List.length_append, List.length_singleton]
  omega

/-! ## Entries after a section -/

variable {result : List UInt8}

theorem checkCache_eq_hit {s' : CacheState κ} (h : s.checkCache key = (s', some result)) :
    ∃ entry, s.cache.lookup key = some entry ∧ entry.result = result := by
  unfold CacheState.checkCache at h
  split at h
  · rename_i entry hlookup
    exact ⟨entry, hlookup, by simpa using congrArg Prod.snd h⟩
  · cases h

variable {key' : κ}

theorem lookup_checkCache {entry' : CacheEntry} (h : (s.checkCache key).1.cache.lookup key' = some entry') :
    ∃ entry, s.cache.lookup key' = some entry ∧ entry.result = entry'.result := by
  unfold CacheState.checkCache at h
  split at h
  · rename_i entry hlookup
    rcases lookup_insert_eq_some h with ⟨rfl, rfl⟩ | hold
    · exact ⟨entry, hlookup, rfl⟩
    · exact ⟨entry', hold, rfl⟩
  · exact ⟨entry', h, rfl⟩

variable {entry : CacheEntry}

theorem lookup_invalidate (h : (s.invalidate key).cache.lookup key' = some entry) :
    s.cache.lookup key' = some entry := by
  unfold CacheState.invalidate at h
  split at h
  · exact lookup_erase_eq_some h
  · exact h

theorem lookup_insertResult (h : (s.insertResult maxEntries key result).cache.lookup key' = some entry) :
    (key' = key ∧ entry.result = result) ∨ s.cache.lookup key' = some entry := by
  rcases lookup_insert_eq_some h with ⟨rfl, rfl⟩ | hold
  · exact Or.inl ⟨rfl, rfl⟩
  · refine Or.inr ?_
    unfold CacheState.makeRoom CacheState.evictOldest at hold
    split at hold
    · split at hold
      · exact hold
      · exact lookup_erase_eq_some hold
    · exact hold

end CacheState

/-! ## Answers -/

def Flight.request : Flight → Request
  | .passing request => request
  | .missed request => request
  | .answered request _ => request

namespace MemoizedTransport

variable {T : Type} {M : MemoizedTransport κ ε} {sent : Set Request}

/-- The entry answers one of the requests sent. -/
def Answers (M : MemoizedTransport κ ε) (sent : Set Request) (key : κ) (result : List UInt8) : Prop :=
  ∃ request ∈ sent, M.computeCacheKey request = key ∧ M.inner request = .ok result

/-- Every answer that is cached, on its way or returned is the inner transport's. -/
structure Truthful (M : MemoizedTransport κ ε) [DecidableEq κ] (sent : Set Request)
    (sys : System T κ ε) : Prop where
  cached : ∀ key entry, sys.state.cache.lookup key = some entry → M.Answers sent key entry.result
  sent : ∀ t flight, sys.flights t = some flight → flight.request ∈ sent
  answered : ∀ t request result, sys.flights t = some (.answered request result) →
    M.inner request = .ok result
  returned : ∀ request result, (request, result) ∈ sys.returned → M.inner request = result

/-- Requests that are fed to the hasher as the same bytes are the same. -/
def Separated (sent : Set Request) : Prop :=
  ∀ request ∈ sent, ∀ request' ∈ sent, request.bytes = request'.bytes → request = request'

variable {request : Request}

theorem Answers.inner {key : κ} {result : List UInt8} (hsha : Function.Injective M.digest)
    (hsep : Separated sent) (h : M.Answers sent key result) (hsent : request ∈ sent)
    (hkey : M.computeCacheKey request = key) :
    M.inner request = .ok result := by
  obtain ⟨request', hsent', hkey', hinner⟩ := h
  have hbytes : request.bytes = request'.bytes := hsha (hkey.trans hkey'.symm)
  rw [hsep request hsent request' hsent' hbytes]
  exact hinner

variable [DecidableEq T] [DecidableEq κ] {sys sys' : System T κ ε}

omit [DecidableEq T] in
theorem truthful_init : M.Truthful sent (init : System T κ ε) where
  cached := fun key entry h => by cases h
  sent := fun t flight h => by cases h
  answered := fun t request result h => by cases h
  returned := fun request result h => by cases h

variable {flight : Flight}

omit [DecidableEq κ] in
theorem flight_of_update {flights : T → Option Flight} {t t' : T} {value : Option Flight}
    (h : Function.update flights t value t' = some flight) :
    value = some flight ∨ flights t' = some flight := by
  by_cases heq : t' = t
  · subst heq
    rw [Function.update_self] at h
    exact Or.inl h
  · rw [Function.update_of_ne heq] at h
    exact Or.inr h

/-- A call takes off with an answer that is right, if it has one. -/
theorem Truthful.takeOff (h : M.Truthful sent sys) {s : CacheState κ} {t : T}
    (hcached : ∀ key entry, s.cache.lookup key = some entry → M.Answers sent key entry.result)
    (hsent : flight.request ∈ sent)
    (hanswered : ∀ request result, flight = .answered request result → M.inner request = .ok result) :
    M.Truthful sent { sys with state := s, flights := Function.update sys.flights t (some flight) } where
  cached := hcached
  sent := by
    intro t' flight' hflight
    rcases flight_of_update hflight with heq | hold
    · rwa [← Option.some.inj heq]
    · exact h.sent t' flight' hold
  answered := by
    intro t' request result hflight
    rcases flight_of_update hflight with heq | hold
    · exact hanswered request result (Option.some.inj heq)
    · exact h.answered t' request result hold
  returned := h.returned

theorem Truthful.leave (h : M.Truthful sent sys) {t : T} {request : Request}
    {result : Except ε (List UInt8)} (hresult : M.inner request = result) :
    M.Truthful sent (leave sys t request result) where
  cached := h.cached
  sent := by
    intro t' flight hflight
    rcases flight_of_update hflight with heq | hold
    · cases heq
    · exact h.sent t' flight hold
  answered := by
    intro t' request' result' hflight
    rcases flight_of_update hflight with heq | hold
    · cases heq
    · exact h.answered t' request' result' hold
  returned := by
    intro request' result' hmem
    rcases List.mem_cons.mp hmem with heq | hmem
    · rw [(Prod.mk.inj heq).1, (Prod.mk.inj heq).2]
      exact hresult
    · exact h.returned request' result' hmem

theorem Truthful.enter (hsha : Function.Injective M.digest) (hsep : Separated sent)
    (h : M.Truthful sent sys) {t : T} (hsent : request ∈ sent) :
    M.Truthful sent (M.enter sys t request) := by
  have hcached :
      ∀ key entry, (sys.state.countRequest.checkCache (M.computeCacheKey request)).1.cache.lookup
      key = some entry →
      M.Answers sent key entry.result := by
    intro key entry hlookup
    obtain ⟨old, hold, heq⟩ := CacheState.lookup_checkCache hlookup
    rw [← heq]
    exact h.cached key old hold
  unfold MemoizedTransport.enter
  dsimp only
  split
  · split
    · rename_i s result hcheck
      obtain ⟨entry, hlookup, rfl⟩ := CacheState.checkCache_eq_hit hcheck
      rw [hcheck] at hcached
      refine ⟨hcached, h.sent, h.answered, ?_⟩
      intro request' result' hmem
      rcases List.mem_cons.mp hmem with heq | hmem
      · rw [(Prod.mk.inj heq).1, (Prod.mk.inj heq).2]
        exact (h.cached _ entry hlookup).inner hsha hsep hsent rfl
      · exact h.returned request' result' hmem
    · rename_i s hcheck
      rw [hcheck] at hcached
      exact h.takeOff hcached hsent (by rintro _ _ ⟨⟩)
  · exact h.takeOff h.cached hsent (by rintro _ _ ⟨⟩)

/-- The requests that the action sends are among them. -/
def Sends (sent : Set Request) : Action T κ → Prop
  | .enter _ request => request ∈ sent
  | _ => True

theorem Truthful.step (hsha : Function.Injective M.digest) (hsep : Separated sent) (h : M.Truthful sent sys)
    {action : Action T κ} (hsends : Sends sent action) (hstep : M.step sys action = some sys') :
    M.Truthful sent sys' := by
  cases action with
  | enter t request =>
    simp only [MemoizedTransport.step] at hstep
    split at hstep
    · cases hstep
      exact h.enter hsha hsep hsends
    · cases hstep
  | reply t =>
    simp only [MemoizedTransport.step] at hstep
    split at hstep
    · cases hstep
      exact h.leave rfl
    -- an error is not stored, an answer waits for its store
    · rename_i request hflight
      split at hstep
      · rename_i e hinner
        cases hstep
        exact h.leave hinner
      · rename_i result hinner
        cases hstep
        refine h.takeOff h.cached (h.sent t (.missed request) hflight) ?_
        rintro _ _ ⟨⟩
        exact hinner
    · cases hstep
  | store t =>
    simp only [MemoizedTransport.step] at hstep
    split at hstep
    · rename_i request result hflight
      cases hstep
      have hinner := h.answered t request result hflight
      have hleave := h.leave hinner (t := t)
      refine ⟨?_, hleave.sent, hleave.answered, hleave.returned⟩
      -- the new entry answers its request; the others were there
      intro key entry hlookup
      rcases CacheState.lookup_insertResult hlookup with ⟨rfl, heq⟩ | hold
      · exact ⟨request, h.sent t _ hflight, rfl, by rw [heq]; exact hinner⟩
      · exact h.cached key entry hold
    · cases hstep
  | invalidate key =>
    cases hstep
    exact ⟨fun key' entry hlookup => h.cached key' entry (CacheState.lookup_invalidate hlookup),
      h.sent, h.answered, h.returned⟩
  | invalidateAll =>
    cases hstep
    exact ⟨fun key' entry hlookup => (by cases hlookup), h.sent, h.answered, h.returned⟩

/-! ## Whole runs -/

/-- A call that is about to store an answer finds a place for it. -/
def StoresWithRoom (M : MemoizedTransport κ ε) (sys : System T κ ε) : Action T κ → Prop
  | .store t => ∀ request result, sys.flights t = some (.answered request result) →
    sys.state.HasRoom M.maxEntries (M.computeCacheKey request)
  | _ => True

variable {action : Action T κ}

theorem coupled_step (h : sys.state.Coupled M.maxEntries) (hroom : M.StoresWithRoom sys action)
    (hstep : M.step sys action = some sys') : sys'.state.Coupled M.maxEntries := by
  cases action with
  | enter t request =>
    simp only [MemoizedTransport.step] at hstep
    split at hstep
    · cases hstep
      -- a look-up changes hit counts and statistics, never the order
      have hcheck : ∀ key, (sys.state.countRequest.checkCache key).1.Coupled M.maxEntries := by
        intro key
        have hlisted : sys.state.countRequest.Listed := ⟨h.listed.nodup, h.listed.mem_iff⟩
        refine (hlisted.checkCache key).coupled h ?_
        rw [CacheState.checkCache_insertionOrder]
        exact le_rfl
      unfold MemoizedTransport.enter
      dsimp only
      split
      · have hkey := hcheck (M.computeCacheKey request)
        split
        · rename_i hhit
          rwa [hhit] at hkey
        · rename_i hmiss
          rwa [hmiss] at hkey
      · exact ⟨⟨h.listed.nodup, h.listed.mem_iff⟩, h.bounded⟩
    · cases hstep
  | reply t =>
    simp only [MemoizedTransport.step] at hstep
    split at hstep
    · cases hstep
      exact h
    · split at hstep <;> cases hstep <;> exact h
    · cases hstep
  | store t =>
    simp only [MemoizedTransport.step] at hstep
    split at hstep
    · rename_i request result hflight
      cases hstep
      exact h.insertResult (hroom request result hflight) result
    · cases hstep
  | invalidate key =>
    cases hstep
    exact (h.listed.invalidate key).coupled h (CacheState.invalidate_insertionOrder_length sys.state key)
  | invalidateAll =>
    cases hstep
    exact (CacheState.listed_invalidateAll sys.state).coupled h (Nat.zero_le _)

variable {actions : List (Action T κ)}

theorem run_snoc (h : M.run (actions ++ [action]) = some sys') :
    ∃ sys, M.run actions = some sys ∧ M.step sys action = some sys' := by
  unfold run runFrom at h
  rw [List.foldlM_append, Option.bind_eq_bind, Option.bind_eq_some_iff] at h
  obtain ⟨sys, hrun, hlast⟩ := h
  exact ⟨sys, hrun, by simpa using hlast⟩

/-- The requests of a run. -/
def sentBy (actions : List (Action T κ)) : Set Request := {request | ∃ t, .enter t request ∈ actions}

/-- Every call of a run that stores an answer finds a place for it. -/
def AlwaysRoom (M : MemoizedTransport κ ε) (actions : List (Action T κ)) : Prop :=
  ∀ before action after sys, actions = before ++ action :: after → M.run before = some sys →
    M.StoresWithRoom sys action

omit [DecidableEq T] [DecidableEq κ] in
theorem sends_sentBy (h : action ∈ actions) :
    Sends (sentBy actions) action := by
  cases action with
  | enter t request => exact ⟨t, h⟩
  | reply t => trivial
  | store t => trivial
  | invalidate key => trivial
  | invalidateAll => trivial

theorem truthful_run (hsha : Function.Injective M.digest) (hsep : Separated sent)
    (hsends : ∀ action ∈ actions, Sends sent action) (hrun : M.run actions = some sys) :
    M.Truthful sent sys := by
  induction actions using List.reverseRecOn generalizing sys with
  | nil =>
    cases hrun
    exact truthful_init
  | append_singleton actions action ih =>
    obtain ⟨sys', hbefore, hstep⟩ := run_snoc hrun
    have htruthful := ih (fun a ha => hsends a (List.mem_append_left _ ha)) hbefore
    exact htruthful.step hsha hsep
      (hsends action (List.mem_append_right _ (List.mem_singleton.mpr rfl))) hstep

theorem AlwaysRoom.before {actions after : List (Action T κ)} (h : M.AlwaysRoom (actions ++ after)) :
    M.AlwaysRoom actions := by
  rintro before action rest sys rfl hrun
  exact h before action (rest ++ after) sys (by simp) hrun

theorem coupled_run (hroom : M.AlwaysRoom actions) (hrun : M.run actions = some sys) :
    sys.state.Coupled M.maxEntries := by
  induction actions using List.reverseRecOn generalizing sys with
  | nil =>
    cases hrun
    exact ⟨CacheState.listed_new, Nat.zero_le _⟩
  | append_singleton actions action ih =>
    obtain ⟨sys', hbefore, hstep⟩ := run_snoc hrun
    exact coupled_step (ih hroom.before hbefore) (hroom actions action [] sys' rfl hbefore) hstep

/-- In every interleaving of requests that the key tells apart, where no call stores an answer that
is cached already, the cache is transparent and bounded, and the list is that of its keys. -/
theorem transparent_and_bounded (hsha : Function.Injective M.digest) {actions : List (Action T κ)}
    (hsep : Separated (sentBy actions)) (hroom : M.AlwaysRoom actions) (hrun : M.run actions = some sys) :
    (∀ request result, (request, .ok result) ∈ sys.returned → M.inner request = .ok result) ∧
      sys.state.len ≤ M.maxEntries ∧ sys.state.insertionOrder.Nodup ∧
      ∀ key, key ∈ sys.state.insertionOrder ↔ key ∈ sys.state.cache := by
  have htruthful := truthful_run hsha hsep (fun action h => sends_sentBy h) hrun
  have hcoupled := coupled_run hroom hrun
  exact ⟨fun request result h => htruthful.returned request (.ok result) h, hcoupled.bounded,
    hcoupled.listed.nodup, hcoupled.listed.mem_iff⟩

/-! ## Two requests, two calls -/

theorem AlwaysRoom.snoc (h : M.AlwaysRoom actions)
    (hlast : ∀ sys, M.run actions = some sys → M.StoresWithRoom sys action) :
    M.AlwaysRoom (actions ++ [action]) := by
  intro before action' after sys heq hrun
  rcases List.eq_nil_or_concat after with rfl | ⟨rest, last, rfl⟩
  · obtain ⟨rfl, hlasteq⟩ := List.append_inj' heq rfl
    rw [List.cons.inj hlasteq |>.1] at hlast
    exact hlast sys hrun
  · have hinit : actions = before ++ action' :: rest := by
      have hassoc : before ++ action' :: rest.concat last = (before ++ action' :: rest) ++ [last] := by simp
      rw [hassoc] at heq
      exact (List.append_inj' heq rfl).1
    exact h before action' rest sys hinit hrun

theorem alwaysRoom_of_no_store (h : ∀ t, .store t ∉ actions) : M.AlwaysRoom actions := by
  rintro before action after sys rfl hrun
  cases action with
  | store t => exact absurd (by simp) (h t)
  | enter t request => trivial
  | reply t => trivial
  | invalidate key => trivial
  | invalidateAll => trivial

/-- A transport that answers with the name of the destination, under a digest that keeps all bytes. -/
def naming (maxEntries : Nat) : MemoizedTransport (List UInt8) Unit where
  inner := fun request => .ok request.destination.toUTF8.data.toList
  digest := id
  maxEntries := maxEntries
  enabled := true

def toAB : Request := ⟨"ab", [99]⟩

def toA : Request := ⟨"a", [98, 99]⟩

def toB : Request := ⟨"b", [99]⟩

/-- Two calls that have their answers and wait for the lock. -/
def bothAnswered (request request' : Request) : List (Action Nat (List UInt8)) :=
  [.enter 0 request, .enter 1 request', .reply 1, .reply 0]

/-- The one that stores second evicts the answer of the other. -/
def overlapping : List (Action Nat (List UInt8)) := bothAnswered toAB toB ++ [.store 0] ++ [.store 1]

theorem alwaysRoom_overlapping : (naming 1).AlwaysRoom overlapping := by
  have hopen : (naming 1).AlwaysRoom (bothAnswered toAB toB) :=
    alwaysRoom_of_no_store (by simp [bothAnswered])
  have hfirst : (naming 1).AlwaysRoom (bothAnswered toAB toB ++ [.store 0]) := by
    refine hopen.snoc ?_
    rintro sys ⟨⟩ request result ⟨⟩
    decide
  refine hfirst.snoc ?_
  rintro sys ⟨⟩ request result ⟨⟩
  decide

theorem separated_overlapping : Separated (sentBy overlapping) := by
  have hsent : ∀ request ∈ sentBy overlapping, request = toAB ∨ request = toB := by
    rintro request ⟨t, hmem⟩
    simp [overlapping, bothAnswered] at hmem
    tauto
  intro request h request' h' hbytes
  rcases hsent request h with rfl | rfl <;> rcases hsent request' h' with rfl | rfl
  · rfl
  · exact absurd hbytes (by decide)
  · exact absurd hbytes (by decide)
  · rfl

theorem transparent_and_bounded_overlapping :
    ∃ sys, (naming 1).run overlapping = some sys ∧ sys.returned = [(toB, .ok [98]), (toAB, .ok [97, 98])] ∧
      (naming 1).inner toB = .ok [98] ∧ sys.state.len ≤ 1 ∧ sys.state.insertionOrder = [[98, 99]] := by
  refine ⟨_, rfl, rfl, ?_, ?_, rfl⟩
  · exact (transparent_and_bounded Function.injective_id separated_overlapping
      alwaysRoom_overlapping rfl).1 toB [98]
      List.mem_cons_self
  · exact (transparent_and_bounded Function.injective_id separated_overlapping
      alwaysRoom_overlapping rfl).2.1

/-- The answer for one destination is returned for another; two calls that miss the same key list it
twice; a cache that may hold nothing holds an entry. -/
theorem confused_and_unbounded :
    (∃ sys, (naming 8).run [.enter 0 toAB, .reply 0, .store 0, .enter 1 toA] = some sys ∧
      (toA, .ok [97, 98]) ∈ sys.returned ∧ (naming 8).inner toA = .ok [97]) ∧
    (∃ sys, (naming 8).run (bothAnswered toAB toAB ++ [.store 0] ++ [.store 1]) = some sys ∧
      ¬ sys.state.insertionOrder.Nodup) ∧
    ∃ sys, (naming 0).run [.enter (0 : Nat) toAB, .reply 0, .store 0] = some sys ∧ 0 < sys.state.len := by
  refine ⟨⟨_, rfl, List.mem_cons_self, rfl⟩, ⟨_, rfl, by decide⟩, ⟨_, rfl, by decide⟩⟩

end MemoizedTransport

end ShapeLang.Transport
