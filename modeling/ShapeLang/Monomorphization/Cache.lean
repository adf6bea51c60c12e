import ShapeLang.Lib.HashMap
import ShapeLang.Monomorphization.KeyReading

/-!
# The specialization cache

The cache maps the key of a specialization to the index of its compiled function. A request first
asks the cache and compiles only on a miss; the entry is written before the body is compiled and
taken back when that fails, and a rollback drops the entries of the functions it drops. The run of
these steps over one generic function is below.

A body is represented by the instantiation it was specialized for, and any other function by `none`.
-/

namespace ShapeLang.Monomorphization

open ShapeLang.Lib

structure MonomorphizationCache where
  entries : HashMap String UInt16

namespace MonomorphizationCache

def new : MonomorphizationCache := ⟨∅⟩

def lookup (cache : MonomorphizationCache) (monoKey : String) : Option UInt16 :=
  cache.entries.lookup monoKey

def insert (cache : MonomorphizationCache) (monoKey : String) (functionIdx : UInt16) :
    MonomorphizationCache :=
  ⟨cache.entries.insert monoKey functionIdx⟩

def remove (cache : MonomorphizationCache) (monoKey : String) : MonomorphizationCache :=
  ⟨cache.entries.erase monoKey⟩

def evictAtOrAboveFunctionIndex (cache : MonomorphizationCache) (watermark : Nat) : MonomorphizationCache :=
  ⟨retain cache.entries fun index => index.toNat < watermark⟩

end MonomorphizationCache

/-- The compiled functions and the cache. -/
structure Compiler where
  functions : List (Option Instantiation)
  cache : MonomorphizationCache

def Compiler.new : Compiler := ⟨[], .new⟩

/-- A request for the specialization of `fnName`; `compiles` says whether its body compiles.
Function indices that do not fit a `u16` are refused. -/
def Compiler.ensureMonomorphicFunction (s : Compiler) (fnName : String) (inst : Instantiation)
    (compiles : Bool) :
    Compiler × Option UInt16 :=
  let key := buildMonoKeyFull fnName inst
  match s.cache.lookup key with
  | some existing => (s, some existing)
  | none =>
      let functions := s.functions ++ [some inst]
      if s.functions.length < 2 ^ 16 then
        let idx := UInt16.ofNat s.functions.length
        let cache := s.cache.insert key idx
        if compiles then (⟨functions, cache⟩, some idx) else (⟨functions, cache.remove key⟩, none)
      else (⟨functions, s.cache⟩, none)

inductive Event where
  /-- A call site of the generic function. -/
  | ensure (inst : Instantiation) (compiles : Bool)
  /-- Another function is compiled. -/
  | compile
  /-- The functions from `watermark` on are dropped. -/
  | rollback (watermark : Nat)

def Compiler.step (fnName : String) (s : Compiler) : Event → Compiler
  | .ensure inst compiles => (s.ensureMonomorphicFunction fnName inst compiles).1
  | .compile => { s with functions := s.functions ++ [none] }
  | .rollback watermark =>
      { functions := s.functions.take watermark, cache := s.cache.evictAtOrAboveFunctionIndex watermark }

def Compiler.run (fnName : String) (events : List Event) : Compiler :=
  events.foldl (Compiler.step fnName) .new

/-! ## Every entry leads to a body with its key -/

def Event.Plain (layouts : Layouts) (specs : Bool) : Event → Prop
  | .ensure inst _ => inst.Plain layouts specs
  | _ => True

section

variable {layouts : Layouts} {specs : Bool} {fnName : String}

def Compiler.Keyed (layouts : Layouts) (specs : Bool) (fnName : String) (s : Compiler) : Prop :=
  ∀ key idx, s.cache.lookup key = some idx → ∃ inst : Instantiation,
    s.functions[idx.toNat]? = some (some inst) ∧ inst.Plain layouts specs ∧
      buildMonoKeyFull fnName inst = key

theorem Compiler.keyed_new : Compiler.new.Keyed layouts specs fnName := by
  intro key idx h
  cases h

theorem Compiler.Keyed.append {s : Compiler} (h : s.Keyed layouts specs fnName) (f : Option Instantiation) :
    (⟨s.functions ++ [f], s.cache⟩ : Compiler).Keyed layouts specs fnName := by
  intro key idx hlookup
  obtain ⟨inst, hfunction, hplain, hkey⟩ := h key idx hlookup
  refine ⟨inst, ?_, hplain, hkey⟩
  show (s.functions ++ [f])[idx.toNat]? = _
  rw [List.getElem?_append_left (List.getElem?_eq_some_iff.mp hfunction).1, hfunction]

/-- The step lemma of a request, with what it returns. -/
theorem Compiler.Keyed.ensure {s : Compiler} (h : s.Keyed layouts specs fnName) {inst : Instantiation}
    (hplain : inst.Plain layouts specs) (compiles : Bool) :
    (s.ensureMonomorphicFunction fnName inst compiles).1.Keyed layouts specs fnName ∧
      ∀ idx, (s.ensureMonomorphicFunction fnName inst compiles).2 = some idx →
        (s.ensureMonomorphicFunction fnName inst compiles).1.functions[idx.toNat]? = some (some inst) := by
  simp only [Compiler.ensureMonomorphicFunction]
  cases hlookup : s.cache.lookup (buildMonoKeyFull fnName inst) with
  | some existing =>
    refine ⟨h, ?_⟩
    rintro idx hidx
    obtain rfl := Option.some.inj hidx
    -- the body found under the key of `inst` is the body of `inst`
    obtain ⟨inst', hfunction, hplain', hkey⟩ := h _ _ hlookup
    rw [buildMonoKeyFull_injective fnName hplain hplain' hkey.symm]
    exact hfunction
  | none =>
    by_cases hfits : s.functions.length < 2 ^ 16
    · have hidx : (UInt16.ofNat s.functions.length).toNat = s.functions.length :=
        UInt16.toNat_ofNat_of_lt' hfits
      have hnew : (s.functions ++ [some inst])[(UInt16.ofNat s.functions.length).toNat]? = some
          (some inst) := by
        rw [hidx, List.getElem?_append_right (Nat.le_refl _), Nat.sub_self]
        rfl
      have hkeyed : (⟨s.functions ++ [some inst], s.cache.insert (buildMonoKeyFull fnName inst)
          (UInt16.ofNat s.functions.length)⟩ : Compiler).Keyed layouts specs fnName := by
        intro key idx hentry
        rcases lookup_insert_eq_some hentry with ⟨rfl, rfl⟩ | hold
        · exact ⟨inst, hnew, hplain, rfl⟩
        · exact h.append (some inst) key idx hold
      simp only [if_pos hfits]
      cases compiles with
      | true =>
        refine ⟨hkeyed, ?_⟩
        rintro idx hidx
        obtain rfl := Option.some.inj hidx
        exact hnew
      | false =>
        refine ⟨fun key idx hentry => hkeyed key idx (lookup_erase_eq_some hentry), ?_⟩
        rintro idx hidx
        cases hidx
    · simp only [if_neg hfits]
      refine ⟨h.append (some inst), ?_⟩
      rintro idx hidx
      cases hidx

theorem Compiler.Keyed.step {s : Compiler} (h : s.Keyed layouts specs fnName) {e : Event}
    (he : e.Plain layouts specs) : (s.step fnName e).Keyed layouts specs fnName := by
  cases e with
  | ensure inst compiles => exact (h.ensure he compiles).1
  | compile => exact h.append none
  | rollback watermark =>
    intro key idx hentry
    obtain ⟨hold, hbelow⟩ := lookup_retain_eq_some hentry
    obtain ⟨inst, hfunction, hplain, hkey⟩ := h key idx hold
    refine ⟨inst, ?_, hplain, hkey⟩
    show (s.functions.take watermark)[idx.toNat]? = _
    rw [List.getElem?_take_of_lt (of_decide_eq_true hbelow), hfunction]

theorem Compiler.keyed_run {events : List Event} (h : ∀ e ∈ events, e.Plain layouts specs) :
    (Compiler.run fnName events).Keyed layouts specs fnName := by
  have hfold : ∀ (events : List Event) (s : Compiler), (∀ e ∈ events, e.Plain layouts specs) →
      s.Keyed layouts specs fnName → (events.foldl (Compiler.step fnName) s).Keyed layouts specs
        fnName := by
    intro events
    induction events with
    | nil => exact fun s _ hs => hs
    | cons e events ih =>
      intro s hevents hs
      exact ih (s.step fnName e) (fun x hx => hevents x (List.mem_cons_of_mem _ hx))
        (hs.step (hevents e List.mem_cons_self))
  exact hfold events .new h Compiler.keyed_new

end

/-- Plain instantiations of one function are told apart by their keys, and in every run over them a
request returns a body specialized for its own arguments. -/
theorem specialization_keys_separate (layouts : Layouts) (specs : Bool) (fnName : String) :
    (∀ inst inst' : Instantiation, inst.Plain layouts specs → inst'.Plain layouts specs →
      buildMonoKeyFull fnName inst = buildMonoKeyFull fnName inst' → inst = inst') ∧
    ∀ events : List Event, (∀ e ∈ events, e.Plain layouts specs) →
      ∀ (inst : Instantiation) (compiles : Bool) (idx : UInt16), inst.Plain layouts specs →
        ((Compiler.run fnName events).ensureMonomorphicFunction fnName inst compiles).2 = some idx →
        ((Compiler.run fnName events).ensureMonomorphicFunction fnName inst
          compiles).1.functions[idx.toNat]? =
          some (some inst) :=
  ⟨fun _ _ h h' hkey => buildMonoKeyFull_injective fnName h h' hkey,
    fun _ hevents _ compiles idx hplain hidx =>
      ((Compiler.keyed_run hevents).ensure hplain compiles).2 idx hidx⟩

theorem ne_toString_of_letter {name : String} {c : Char} (hc : c ∈ name.toList)
    (hletter : c.isDigit = false) (n : UInt32) : name ≠ toString n.toNat := by
  intro h
  rw [h, Nat.toString_eq_ofList_toDigits, String.toList_ofList] at hc
  rw [Nat.isDigit_of_mem_toDigits (by decide) (by decide) hc] at hletter
  cases hletter

/-- `map` at `int`, then with two type arguments, two consts and a closure: the second request gets
a body of its own. -/
theorem specialization_keys_separate_map :
    let inst : Instantiation :=
      ⟨[.string, .array (.struct ⟨0, some "Point"⟩)], [.int 3, .string "hi"], [⟨7, some .i64, 31⟩]⟩
    let s := Compiler.run "map" [.ensure ⟨[.i64], [], []⟩ true]
    (s.ensureMonomorphicFunction "map" inst true).1.functions[1]? = some (some inst) := by
  intro inst s
  -- the struct has a name that no number spells
  have hpoint : NamedTypeId.Plain (fun _ => 0) ⟨0, some "Point"⟩ := by
    intro name hname
    obtain rfl := Option.some.inj hname
    have hletter : 'P' ∈ "Point".toList := by decide
    exact ⟨by decide, ne_toString_of_letter hletter rfl, rfl⟩
  refine (specialization_keys_separate ⟨fun _ => 0, fun _ => 0⟩ true "map").2
    [.ensure ⟨[.i64], [], []⟩ true] ?_ inst
    true 1 ⟨?_, ?_, ?_, ?_, nofun⟩ (by decide +kernel)
  · intro e he
    rw [List.mem_singleton.mp he]
    refine ⟨?_, nofun, nofun, ?_, nofun⟩
    · intro t ht
      rw [List.mem_singleton.mp ht]
      trivial
    · intro _ id hid
      cases List.mem_singleton.mp hid
  · intro t ht
    rcases List.mem_cons.mp ht with rfl | ht
    · trivial
    · rw [List.mem_singleton.mp ht]
      exact hpoint
  · intro c hc
    rcases List.mem_cons.mp hc with rfl | hc
    · trivial
    · rw [List.mem_singleton.mp hc]
      have hletters : ∀ c ∈ ['h', 'i'], c.isAlphanum = true := List.all_eq_true.mp rfl
      exact ⟨hletters, by decide +kernel⟩
  · intro spec hspec t ht
    rw [List.mem_singleton.mp hspec] at ht
    rw [← Option.some.inj ht]
    trivial
  · intro _ id hid
    rcases List.mem_cons.mp hid with hid | hid
    · cases hid
    · cases List.mem_singleton.mp hid

/-- The types `[[int, int, int], number]` and `[[int, int], int, number]` have one key. -/
theorem nested_tuples_share_key :
    ¬∀ (fnName : String) (inst inst' : Instantiation),
      buildMonoKeyFull fnName inst = buildMonoKeyFull fnName inst' → inst = inst' := by
  intro h
  have heq := h "id" ⟨[.tuple [.tuple [.i64, .i64, .i64], .f64]], [], []⟩
    ⟨[.tuple [.tuple [.i64, .i64], .i64, .f64]], [], []⟩ (by decide +kernel)
  cases heq

end ShapeLang.Monomorphization
