import ShapeLang.Lib.Bytes
import ShapeLang.Lib.Fallible

/-!
# Calls that can trap

A call returns a value, returns an error, or is stopped where it slices outside a buffer or where
the arithmetic of a 64-bit machine overflows. A call is safe when it is not stopped; `Safe` has a
rule for sequencing and one for loops, both exact, so that safety of a reader comes down to the
places where it can trap.
-/

namespace ShapeLang.Lib

inductive Trap (ε : Type) where
  | error (e : ε)
  | outOfRange
  | overflow
  deriving DecidableEq

namespace Trap

variable {ε α β : Type}

def Safe (call : Except (Trap ε) α) : Prop := call ≠ .error .outOfRange ∧ call ≠ .error .overflow

/-- `start..stop` of a slice. -/
def slice (data : Bytes) (start stop : Nat) : Except (Trap ε) Bytes :=
  if start ≤ stop ∧ stop ≤ data.length then .ok ((data.drop start).take (stop - start))
    else .error .outOfRange

/-- An element of a vector. -/
def index (items : List α) (i : Nat) : Except (Trap ε) α :=
  match items[i]? with
  | some item => .ok item
  | none => .error .outOfRange

/-- The sum of two `usize` values. -/
def add (a b : Nat) : Except (Trap ε) Nat := if a + b < 2 ^ 64 then .ok (a + b) else .error .overflow

/-- The product of two `usize` values. -/
def mul (a b : Nat) : Except (Trap ε) Nat := if a * b < 2 ^ 64 then .ok (a * b) else .error .overflow

theorem safe_ok (a : α) : Safe (.ok a : Except (Trap ε) α) := ⟨nofun, nofun⟩

theorem safe_error (e : ε) : Safe (.error (.error e) : Except (Trap ε) α) := ⟨nofun, nofun⟩

variable {call : Except (Trap ε) α}

theorem safe_map_iff {f : α → β} : Safe (call.map f) ↔ Safe call := by
  cases call with
  | error trap => cases trap <;> simp [Safe, Except.map]
  | ok a => simp [Safe, Except.map]

variable {next : α → Except (Trap ε) β}

theorem safe_bind_iff :
    Safe (call >>= next) ↔ Safe call ∧ ∀ a, call = .ok a → Safe (next a) := by
  cases call with
  | error trap =>
    have hbind : ((.error trap : Except (Trap ε) α) >>= next) = .error trap := rfl
    rw [hbind]
    cases trap <;> simp [Safe]
  | ok a =>
    have hbind : ((.ok a : Except (Trap ε) α) >>= next) = next a := rfl
    rw [hbind]
    exact ⟨fun h => ⟨safe_ok a, fun b hb => Except.ok.inj hb ▸ h⟩, fun h => h.2 a rfl⟩

/-- Calls that are safe and that succeed together can stand for each other. -/
theorem safe_bind_congr {α' β' : Type} {call' : Except (Trap ε) α'} {next' : α' → Except (Trap ε) β'}
    (hsafe : Safe call ↔ Safe call') (hok : (∃ a, call = .ok a) ↔ ∃ a, call' = .ok a)
    (hnext : ∀ a a', Safe (next a) ↔ Safe (next' a')) :
    Safe (call >>= next) ↔ Safe (call' >>= next') := by
  rw [safe_bind_iff, safe_bind_iff, hsafe]
  refine and_congr_right fun _ => ⟨fun h a' ha' => ?_, fun h a ha => ?_⟩
  · obtain ⟨a, ha⟩ := hok.mpr ⟨a', ha'⟩
    exact (hnext a a').mp (h a ha)
  · obtain ⟨a', ha'⟩ := hok.mp ⟨a, ha⟩
    exact (hnext a a').mpr (h a' ha')

variable {items : List α}

/-- A loop over items is safe when each item is, once those before it have gone through. -/
theorem safe_forM_iff {f : α → Except (Trap ε) Unit} :
    Safe (items.forM f) ↔
      ∀ before item after, items = before ++ item :: after →
        (∀ other ∈ before, ∃ b, f other = .ok b) → Safe (f item) := by
  induction items with
  | nil => exact ⟨fun _ before item after h => by simp at h, fun _ => safe_ok ()⟩
  | cons first items ih =>
    -- the first item, and then the loop over the rest
    rw [show (first :: items).forM f = (f first >>= fun _ => items.forM f) from rfl, safe_bind_iff]
    constructor
    · rintro ⟨hfirst, hrest⟩ before item after hsplit hbefore
      cases before with
      | nil =>
        rw [List.nil_append, List.cons.injEq] at hsplit
        rwa [← hsplit.1]
      | cons other before =>
        rw [List.cons_append, List.cons.injEq] at hsplit
        obtain ⟨b, hb⟩ := hbefore other List.mem_cons_self
        have hitems := hrest b (hsplit.1 ▸ hb)
        exact ih.mp hitems before item after hsplit.2 fun other hmem => hbefore other
          (List.mem_cons_of_mem _ hmem)
    · intro h
      refine ⟨h [] first items rfl (fun other hmem => absurd hmem List.not_mem_nil), fun b hb => ?_⟩
      refine ih.mpr fun before item after hsplit hbefore => ?_
      refine h (first :: before) item after (by rw [hsplit]; rfl) fun other hmem => ?_
      rcases List.mem_cons.mp hmem with rfl | hmem
      · exact ⟨b, hb⟩
      · exact hbefore other hmem

/-- A loop that collects values is as safe as one that drops them. -/
theorem safe_mapM_iff_forM {f : α → Except (Trap ε) β} :
    Safe (items.mapM f) ↔ Safe (items.forM fun item => (f item).map fun _ => ()) := by
  induction items with
  | nil => exact ⟨fun _ => safe_ok (), fun _ => safe_ok []⟩
  | cons first items ih =>
    rw [List.mapM_cons]
    refine safe_bind_congr safe_map_iff.symm (Fallible.exists_map_eq_ok _).symm fun b _ => ?_
    show Safe (items.mapM f >>= fun bs => pure (b :: bs)) ↔
      Safe (items.forM fun item => (f item).map fun _ => ())
    rw [safe_bind_iff, ← ih]
    exact and_iff_left fun bs _ => safe_ok _

theorem safe_mapM_range_iff {f : Nat → Except (Trap ε) β} {count : Nat} :
    Safe ((List.range count).mapM f) ↔ ∀ i < count, (∀ j < i, ∃ b, f j = .ok b) → Safe (f i) := by
  rw [safe_mapM_iff_forM, safe_forM_iff]
  simp only [Fallible.exists_map_eq_ok, safe_map_iff]
  constructor
  · intro h i hi hbefore
    -- The range splits at each of its items.
    have hsplit : List.range count = List.range i ++ i :: (List.range count).drop (i + 1) := by
      have hhead : (List.range count).drop i = i :: (List.range count).drop (i + 1) := by
        rw [List.drop_eq_getElem_cons (by rw [List.length_range]; exact hi), List.getElem_range]
      have htake : (List.range count).take i = List.range i := by
        rw [List.take_range, Nat.min_eq_left hi.le]
      rw [← hhead, ← htake, List.take_append_drop]
    exact h _ i _ hsplit fun j hj => hbefore j (List.mem_range.mp hj)
  · intro h before i after hsplit hbefore
    have hlength : before.length < (List.range count).length := by rw [hsplit]; simp
    have hi : i = before.length := by
      have hget : (List.range count)[before.length] = i := by simp [hsplit]
      rw [← hget, List.getElem_range]
    have hrange : before = List.range before.length := by
      have htake : (List.range count).take before.length = before := by rw [hsplit, List.take_left]
      rw [List.take_range, Nat.min_eq_left
        (by rw [List.length_range] at hlength; exact hlength.le)] at htake
      exact htake.symm
    rw [List.length_range, ← hi] at hlength
    refine h i hlength fun j hj => hbefore j ?_
    rw [hrange, ← hi]
    exact List.mem_range.mpr hj

theorem safe_slice_iff {data : Bytes} {start stop : Nat} :
    Safe (slice data start stop : Except (Trap ε) Bytes) ↔ start ≤ stop ∧ stop ≤ data.length := by
  unfold slice
  split
  · exact ⟨fun _ => by assumption, fun _ => safe_ok _⟩
  · exact ⟨fun h => absurd rfl h.1, fun h => by contradiction⟩

theorem safe_add_iff {a b : Nat} : Safe (add a b : Except (Trap ε) Nat) ↔ a + b < 2 ^ 64 := by
  unfold add
  split
  · exact ⟨fun _ => by assumption, fun _ => safe_ok _⟩
  · exact ⟨fun h => absurd rfl h.2, fun h => by contradiction⟩

/-- Going through a vector with its indices into one of the same length meets one element of each. -/
theorem mapM_zipIdx_index {γ : Type} {others : List β} (hlength : others.length = items.length)
    (f : α → Except (Trap ε) β → Except (Trap ε) γ) :
    (items.zipIdx.mapM fun item => f item.1 (index others item.2)) =
      (items.zip others).mapM fun item => f item.1 (.ok item.2) := by
  -- The elements of `others` that have been met stand in front.
  suffices h : ∀ met rest : List β, rest.length = items.length →
      ((items.zipIdx met.length).mapM fun item => f item.1 (index (met ++ rest) item.2)) =
        (items.zip rest).mapM fun item => f item.1 (.ok item.2) from h [] others hlength
  clear hlength
  induction items with
  | nil => exact fun _ _ _ => rfl
  | cons first items ih =>
    intro met rest hrest
    cases rest with
    | nil => cases hrest
    | cons other rest =>
      have hindex : (index (met ++ other :: rest) met.length : Except (Trap ε) β) = .ok other := by
        unfold index
        rw [List.getElem?_append_right (Nat.le_refl _), Nat.sub_self]
        rfl
      have hnext := ih (met ++ [other]) rest (Nat.succ.inj hrest)
      rw [List.length_append, List.append_assoc, List.singleton_append] at hnext
      rw [List.zipIdx_cons, List.zip_cons_cons, List.mapM_cons, List.mapM_cons, ← hnext]
      dsimp only
      rw [hindex]
      rfl

theorem slice_eq_ok {data bytes : Bytes} {start stop : Nat} :
    (slice data start stop : Except (Trap ε) Bytes) = .ok bytes ↔
      (start ≤ stop ∧ stop ≤ data.length) ∧ bytes = (data.drop start).take (stop - start) := by
  unfold slice
  split
  · rename_i h
    exact ⟨fun heq => ⟨h, (Except.ok.inj heq).symm⟩, fun heq => by rw [heq.2]⟩
  · exact ⟨nofun, fun heq => absurd heq.1 (by assumption)⟩

theorem add_eq_ok {a b sum : Nat} :
    (add a b : Except (Trap ε) Nat) = .ok sum ↔ a + b < 2 ^ 64 ∧ sum = a + b := by
  unfold add
  split
  · rename_i h
    exact ⟨fun heq => ⟨h, (Except.ok.inj heq).symm⟩, fun heq => by rw [heq.2]⟩
  · exact ⟨nofun, fun heq => absurd heq.1 (by assumption)⟩

end Trap

end ShapeLang.Lib
