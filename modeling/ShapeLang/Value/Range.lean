import ShapeLang.Lib.CheckedInt
import ShapeLang.Lib.Fallible

/-!
# Integer ranges

`RangeData` counts its elements from a shifted exclusive bound and then adds the step as often. The
bound of an inclusive range is `end + step`, cut at `i64::MAX`, so that a step above 1 can pass
`end`; the count takes a signed difference, and the loop adds the step once more after the last
element. `DenotesExactly` says when none of this is seen.
-/

namespace ShapeLang.Value

open Lib Lib.CheckedInt

/-- What stops a range: an overflow, in a build that checks for it, or a vector above `isize::MAX` bytes. -/
inductive RangePanic where
  | overflow
  | capacity
  deriving DecidableEq

def orOverflow {α : Type} (result : Option α) : Except RangePanic α := result.elim (.error .overflow) .ok

def addI64 (a b : Int64) : Except RangePanic Int64 := orOverflow (checked (a.toInt + b.toInt))

def subI64 (a b : Int64) : Except RangePanic Int64 := orOverflow (checked (a.toInt - b.toInt))

def addU64 (a b : Nat) : Except RangePanic Nat := if a + b < 2 ^ 64 then .ok (a + b) else .error .overflow

def subU64 (a b : Nat) : Except RangePanic Nat := if b ≤ a then .ok (a - b) else .error .overflow

/-- `as u64`. -/
def asU64 (a : Int64) : Nat := (a.toInt % 2 ^ 64).toNat

def saturatingAdd (a b : Int64) : Int64 :=
  Int64.ofInt (max (-2 ^ 63) (min (2 ^ 63 - 1) (a.toInt + b.toInt)))

/-- How many steps lie before `stop`, as the range and the iterator source over it both count them. -/
def elementCount (start stop step : Int64) : Except RangePanic Nat :=
  if step ≤ 0 ∨ stop ≤ start then .ok 0
  else do
    let span ← subI64 stop start
    let sum ← addU64 (asU64 span) (asU64 step)
    let sum ← subU64 sum 1
    return sum / asU64 step

/-- `IteratorSource::Range`; `stop` is exclusive. -/
structure RangeSource where
  start : Int64
  stop : Int64
  step : Int64

def RangeSource.len (source : RangeSource) : Except RangePanic Nat :=
  elementCount source.start source.stop source.step

/-- `stop` is the source's `end`. -/
structure RangeData where
  start : Int64
  stop : Int64
  step : Int64
  inclusive : Bool

namespace RangeData

def endExclusive (r : RangeData) : Int64 := if r.inclusive then saturatingAdd r.stop r.step else r.stop

def len (r : RangeData) : Except RangePanic Nat := elementCount r.start r.endExclusive r.step

def contains (r : RangeData) (value : Int64) : Bool :=
  if value < r.start then false
  else if r.inclusive then value ≤ r.stop
  else value < r.stop

/-- `Vec::with_capacity` for eight-byte elements. -/
def withCapacity (n : Nat) : Except RangePanic Unit :=
  if n * 8 ≤ 2 ^ 63 - 1 then .ok () else .error .capacity

/-- The loop: `v` is pushed, and the step is added to it, `n` times. -/
def fill (step : Int64) : Nat → Int64 → Except RangePanic (List Int64)
  | 0, _ => .ok []
  | n + 1, v => do
    let next ← addI64 v step
    let rest ← fill step n next
    return v :: rest

def toVecI64 (r : RangeData) : Except RangePanic (List Int64) := do
  let n ← r.len
  withCapacity n
  fill r.step n r.start

/-- The iterator source that `.iter()` builds. -/
def iter (r : RangeData) : RangeSource := { start := r.start, stop := r.endExclusive, step := r.step }

/-! ## What a range denotes -/

def Within (r : RangeData) (x : Int) : Prop := if r.inclusive then x ≤ r.stop.toInt else x < r.stop.toInt

/-- The values `start + k * step` within the end, in increasing order. -/
def Denotes (r : RangeData) (values : List Int) : Prop :=
  values.Pairwise (· < ·) ∧
    ∀ x, x ∈ values ↔ ∃ k : Nat, x = r.start.toInt + k * r.step.toInt ∧ r.Within x

/-- `to_vec_i64` returns what the range denotes, and both counts are its length. -/
def DenotesExactly (r : RangeData) : Prop :=
  ∃ values, r.toVecI64 = .ok values ∧ r.Denotes (values.map Int64.toInt) ∧
    r.len = .ok values.length ∧ r.iter.len = .ok values.length

/-- The number of steps from `start` that stay before `stop`. -/
def stepsBefore (start stop step : Int) : Int := (stop - start + step - 1) / step

theorem lt_stepsBefore_iff {start stop step k : Int} (hstep : 0 < step) :
    k < stepsBefore start stop step ↔ start + k * step < stop := by
  unfold stepsBefore
  rw [← Int.add_one_le_iff, Int.le_ediv_iff_mul_le hstep, Int.add_mul]
  omega

theorem asU64_of_nonneg {a : Int64} (h : 0 ≤ a.toInt) : (asU64 a : Int) = a.toInt := by
  have hfits := fits_toInt a
  unfold asU64 Fits at *
  omega

theorem orOverflow_checked {x : Int} (h : Fits x) : orOverflow (checked x) = .ok (Int64.ofInt x) := by
  rw [checked, if_pos h]
  rfl

theorem orOverflow_checked_of_not {x : Int} (h : ¬Fits x) : orOverflow (checked x) = .error .overflow := by
  rw [checked, if_neg h]
  rfl

/-- The count, with what the unsigned arithmetic of it comes to: only the signed difference can overflow. -/
theorem elementCount_eq {start stop step : Int64} (hstep : 1 ≤ step) :
    elementCount start stop step =
      if stop.toInt ≤ start.toInt then .ok 0
      else if Fits (stop.toInt - start.toInt) then
        .ok (stepsBefore start.toInt stop.toInt step.toInt).toNat
      else .error .overflow := by
  have hpos : 1 ≤ step.toInt := Int64.le_iff_toInt_le.mp hstep
  have hnonpos : ¬step ≤ 0 := fun h => by
    have hle : step.toInt ≤ 0 := Int64.le_iff_toInt_le.mp h
    omega
  unfold elementCount
  simp only [hnonpos, false_or, Int64.le_iff_toInt_le]
  split_ifs with hempty hfits
  · rfl
  · have hspan : (asU64 (Int64.ofInt (stop.toInt - start.toInt)) : Int) = stop.toInt - start.toInt := by
      rw [asU64_of_nonneg (by rw [toInt_ofInt hfits]; omega), toInt_ofInt hfits]
    have hstep' : (asU64 step : Int) = step.toInt := asU64_of_nonneg (by omega)
    have hbound := (fits_toInt step).2
    have hsum : addU64 (asU64 (Int64.ofInt (stop.toInt - start.toInt))) (asU64 step)
        = .ok (asU64 (Int64.ofInt (stop.toInt - start.toInt)) + asU64 step) := by
      have hlt := hfits.2
      exact if_pos (by omega)
    have hless : subU64 (asU64 (Int64.ofInt (stop.toInt - start.toInt)) + asU64 step) 1
        = .ok (asU64 (Int64.ofInt (stop.toInt - start.toInt)) + asU64 step - 1) := if_pos (by omega)
    rw [subI64, orOverflow_checked hfits]
    show (addU64 _ _ >>= fun sum => subU64 sum 1 >>= fun sum => .ok (sum / asU64 step)) = _
    rw [hsum]
    show (subU64 _ 1 >>= fun sum => .ok (sum / asU64 step)) = _
    rw [hless]
    refine congrArg Except.ok ?_
    generalize asU64 (Int64.ofInt (stop.toInt - start.toInt)) = span at hspan ⊢
    rw [stepsBefore, ← hspan, ← hstep', show (span : Int) + asU64 step - 1 =
      ((span + asU64 step - 1 : Nat) : Int) by omega, ← Int.natCast_ediv, Int.toNat_natCast]
  · rw [subI64, orOverflow_checked_of_not hfits]
    rfl

/-- The loop goes through exactly where the value after the last one is still an `i64`. -/
theorem fill_eq {step : Int64} (hstep : 1 ≤ step.toInt) (n : Nat) (v : Int64) :
    fill step n v =
      if v.toInt + n * step.toInt < 2 ^ 63 then
        .ok ((List.range n).map fun k : Nat => Int64.ofInt (v.toInt + k * step.toInt))
      else .error .overflow := by
  have hv := fits_toInt v
  unfold Fits at hv
  induction n generalizing v with
  | zero =>
    rw [if_pos (by simpa using hv.2)]
    rfl
  | succ n ih =>
    rw [fill, addI64]
    by_cases hnext : Fits (v.toInt + step.toInt)
    · rw [orOverflow_checked hnext]
      have hih := ih (Int64.ofInt (v.toInt + step.toInt)) (fits_toInt _)
      rw [toInt_ofInt hnext, show v.toInt + step.toInt + n * step.toInt = v.toInt + (n + 1 : Nat) *
        step.toInt by
        push_cast; ring] at hih
      show (fill step n _ >>= fun rest => .ok (v :: rest)) = _
      rw [hih]
      split
      · refine congrArg Except.ok ?_
        rw [List.range_succ_eq_map, List.map_cons, List.map_map]
        refine congrArg₂ List.cons (by simp) (List.map_congr_left fun k _ => ?_)
        simp only [Function.comp]
        congr 1
        push_cast
        ring
      · rfl
    · rw [orOverflow_checked_of_not hnext, if_neg]
      · rfl
      · have hmul : step.toInt ≤ ((n + 1 : Nat) : Int) * step.toInt := by
          push_cast
          nlinarith
        unfold Fits at hnext
        omega

variable {r : RangeData}

/-- What a list of equal steps from `start` denotes. -/
theorem denotes_steps_iff (hstep : 1 ≤ r.step.toInt) (n : Nat) :
    r.Denotes ((List.range n).map fun k : Nat => r.start.toInt + k * r.step.toInt) ↔
      ∀ k : Nat, k < n ↔ r.Within (r.start.toInt + k * r.step.toInt) := by
  have hinj : ∀ {i j : Nat}, r.start.toInt + i * r.step.toInt = r.start.toInt + j * r.step.toInt →
      i = j := by
    intro i j h
    have hmul : (i : Int) * r.step.toInt = j * r.step.toInt := by omega
    exact_mod_cast Int.eq_of_mul_eq_mul_right (by omega) hmul
  have hsorted : ((List.range n).map fun k : Nat => r.start.toInt + k * r.step.toInt).Pairwise (· < ·) := by
    rw [List.pairwise_map]
    refine List.pairwise_lt_range.imp fun {i j} hij => ?_
    have hmul : (i : Int) * r.step.toInt < j * r.step.toInt := by
      have : (i : Int) < j := by exact_mod_cast hij
      nlinarith
    omega
  constructor
  · intro h k
    rw [← List.mem_range]
    constructor
    · intro hk
      obtain ⟨j, hj, hwithin⟩ := (h.2 _).mp (List.mem_map_of_mem hk)
      exact hwithin
    · intro hwithin
      obtain ⟨j, hj, heq⟩ := List.mem_map.mp ((h.2 _).mpr ⟨k, rfl, hwithin⟩)
      exact hinj heq ▸ hj
  · intro h
    refine ⟨hsorted, fun x => ?_⟩
    simp only [List.mem_map, List.mem_range]
    constructor
    · rintro ⟨k, hk, rfl⟩
      exact ⟨k, rfl, (h k).mp hk⟩
    · rintro ⟨k, rfl, hwithin⟩
      exact ⟨k, (h k).mpr hwithin, rfl⟩

/-- A range is right exactly where its count, its vector and its loop go through, and the steps
before the bound it counts to are the steps within its end. -/
theorem denotesExactly_iff_count (hstep : 1 ≤ r.step) :
    r.DenotesExactly ↔ ∃ n, r.len = .ok n ∧ n * 8 ≤ 2 ^ 63 - 1 ∧ r.start.toInt + n * r.step.toInt < 2 ^ 63 ∧
      ∀ k : Nat, k < n ↔ r.Within (r.start.toInt + k * r.step.toInt) := by
  have hpos : 1 ≤ r.step.toInt := Int64.le_iff_toInt_le.mp hstep
  -- while the last step fits, no element wraps
  have hvalues : ∀ n : Nat, r.start.toInt + n * r.step.toInt < 2 ^ 63 →
      ((List.range n).map fun k : Nat => Int64.ofInt (r.start.toInt + k * r.step.toInt)).map Int64.toInt =
        (List.range n).map fun k : Nat => r.start.toInt + k * r.step.toInt := by
    intro n hlast
    rw [List.map_map]
    refine List.map_congr_left fun k hk => toInt_ofInt ⟨?_, ?_⟩
    · have hstart := (fits_toInt r.start).1
      have hmul : 0 ≤ (k : Int) * r.step.toInt := by positivity
      omega
    · have hlt : (k : Int) < n := by exact_mod_cast List.mem_range.mp hk
      nlinarith
  constructor
  · rintro ⟨values, hvec, hdenotes, hlen, -⟩
    refine ⟨values.length, hlen, ?_⟩
    rw [toVecI64, hlen] at hvec
    change (withCapacity values.length >>= fun _ => fill r.step values.length r.start) = .ok values at hvec
    -- the vector exists, so its capacity was granted and no step overflowed
    obtain ⟨_, hcapacity, hfill⟩ := Fallible.bind_eq_ok.mp hvec
    rw [withCapacity] at hcapacity
    rw [fill_eq hpos] at hfill
    split at hcapacity
    case isFalse => cases hcapacity
    case isTrue hroom =>
      split at hfill
      case isFalse => cases hfill
      case isTrue hlast =>
        refine ⟨hroom, hlast, (denotes_steps_iff hpos _).mp ?_⟩
        rw [← hvalues _ hlast, Except.ok.inj hfill]
        exact hdenotes
  · rintro ⟨n, hlen, hroom, hlast, hsteps⟩
    refine ⟨(List.range n).map fun k : Nat => Int64.ofInt (r.start.toInt + k * r.step.toInt), ?_,
      ?_, ?_, ?_⟩
    · rw [toVecI64, hlen]
      show (withCapacity n >>= fun _ => fill r.step n r.start) = _
      rw [withCapacity, if_pos hroom]
      show fill r.step n r.start = _
      rw [fill_eq hpos, if_pos hlast]
    · rw [hvalues n hlast]
      exact (denotes_steps_iff hpos n).mpr hsteps
    · simpa using hlen
    · show r.len = _
      simpa using hlen

/-- The exclusive bound `min (end + step) i64::MAX` of an inclusive range. -/
def inclusiveBound (r : RangeData) : Int := min (r.stop.toInt + r.step.toInt) (2 ^ 63 - 1)

/-- An exclusive range is empty, or its span is an `i64`, it has fewer than 2^60 elements and the
first value past its end is an `i64`. An inclusive range is empty, by its end as well as by its
bound; or its bound is past its end, a whole number of steps from its start, fewer than 2^60, and by
less than 2^63. -/
def StepsFit (r : RangeData) : Prop :=
  if r.inclusive then
    r.inclusiveBound ≤ r.start.toInt ∧ r.stop.toInt < r.start.toInt ∨
      r.start.toInt < r.inclusiveBound ∧ r.stop.toInt < r.inclusiveBound ∧
        r.step.toInt ∣ r.inclusiveBound - r.start.toInt ∧ r.inclusiveBound - r.start.toInt < 2 ^ 63 ∧
        (r.inclusiveBound - r.start.toInt) / r.step.toInt < 2 ^ 60
  else
    r.stop.toInt ≤ r.start.toInt ∨
      r.stop.toInt - r.start.toInt < 2 ^ 63 ∧
        stepsBefore r.start.toInt r.stop.toInt r.step.toInt < 2 ^ 60 ∧
        r.start.toInt + stepsBefore r.start.toInt r.stop.toInt r.step.toInt * r.step.toInt < 2 ^ 63

theorem endExclusive_of_inclusive (hstep : 1 ≤ r.step.toInt) (hinclusive : r.inclusive = true) :
    r.endExclusive.toInt = r.inclusiveBound := by
  have hstop := fits_toInt r.stop
  unfold Fits at hstop
  have hbound : max (-2 ^ 63) (min (2 ^ 63 - 1) (r.stop.toInt + r.step.toInt)) = r.inclusiveBound := by
    unfold inclusiveBound
    omega
  rw [endExclusive, if_pos hinclusive, saturatingAdd, hbound]
  refine toInt_ofInt ⟨?_, ?_⟩ <;> unfold inclusiveBound <;> omega

theorem stepsBefore_of_dvd {start stop step : Int} (hstep : 1 ≤ step) (hdvd : step ∣ stop - start) :
    stepsBefore start stop step = (stop - start) / step := by
  obtain ⟨q, hq⟩ := hdvd
  unfold stepsBefore
  rw [hq, Int.mul_comm, Int.add_sub_assoc, Int.add_comm, Int.add_mul_ediv_right _ _ (by omega),
    Int.ediv_eq_zero_of_lt (by omega) (by omega), Int.zero_add, Int.mul_ediv_cancel _ (by omega)]

/-- Stepping to the bound of an inclusive range meets its end exactly where a step lands on the
bound, past the end. -/
theorem inclusive_steps_iff (hstep : 1 ≤ r.step.toInt) (hlt : r.start.toInt < r.inclusiveBound) :
    (r.start.toInt + stepsBefore r.start.toInt r.inclusiveBound r.step.toInt * r.step.toInt < 2 ^ 63 ∧
      ∀ k : Nat, r.start.toInt + k * r.step.toInt < r.inclusiveBound ↔
        r.start.toInt + k * r.step.toInt ≤ r.stop.toInt) ↔
      r.stop.toInt < r.inclusiveBound ∧ r.step.toInt ∣ r.inclusiveBound - r.start.toInt := by
  have hbound : r.inclusiveBound ≤ r.stop.toInt + r.step.toInt ∧ r.inclusiveBound ≤ 2 ^ 63 - 1 :=
    ⟨min_le_left _ _, min_le_right _ _⟩
  constructor
  · rintro ⟨hlast, hsteps⟩
    obtain ⟨n, hn⟩ : ∃ n : Nat, stepsBefore r.start.toInt r.inclusiveBound r.step.toInt = n + 1 := by
      have hzero : 0 < stepsBefore r.start.toInt r.inclusiveBound r.step.toInt :=
        (lt_stepsBefore_iff (by omega)).mpr (by omega)
      exact ⟨(stepsBefore r.start.toInt r.inclusiveBound r.step.toInt).toNat - 1, by omega⟩
    rw [hn, Int.add_mul, Int.one_mul] at hlast
    -- the last step before the bound is within the end, and the next one is at or past the bound
    have hbefore : r.start.toInt + n * r.step.toInt ≤ r.stop.toInt :=
      (hsteps n).mp ((lt_stepsBefore_iff (by omega)).mp (by omega))
    have hafter : ¬r.start.toInt + (n + 1) * r.step.toInt < r.inclusiveBound := fun h => by
      have := (lt_stepsBefore_iff (by omega)).mpr h
      omega
    have hend : ¬r.start.toInt + ((n + 1 : Nat) : Int) * r.step.toInt ≤ r.stop.toInt := fun h =>
      hafter (by exact_mod_cast (hsteps (n + 1)).mpr h)
    push_cast at hend
    rw [Int.add_mul, Int.one_mul] at hafter hend
    have hland : r.inclusiveBound = r.start.toInt + (n * r.step.toInt + r.step.toInt) := by
      unfold inclusiveBound at *
      omega
    refine ⟨by omega, ⟨n + 1, ?_⟩⟩
    rw [hland]
    ring
  · rintro ⟨hend, q, hq⟩
    have hsteps : stepsBefore r.start.toInt r.inclusiveBound r.step.toInt = q := by
      rw [stepsBefore_of_dvd hstep ⟨q, hq⟩, hq, Int.mul_ediv_cancel_left _ (by omega)]
    rw [hsteps]
    refine ⟨by nlinarith, fun k => ⟨fun hk => ?_, fun hk => by omega⟩⟩
    have hkq : (k : Int) + 1 ≤ q := by
      have := (lt_stepsBefore_iff (by omega)).mpr hk
      omega
    nlinarith

theorem Within.of_le {x y : Int} (h : r.Within y) (hle : x ≤ y) : r.Within x := by
  unfold Within at *
  split at h <;> rename_i hinclusive <;> simp only [hinclusive, if_true, if_false,
    Bool.false_eq_true] <;> omega

/-- The count read off, case by case: there is nothing before the bound, or the span is an `i64`. -/
theorem denotesExactly_iff_bound (hstep : 1 ≤ r.step) :
    r.DenotesExactly ↔
      r.endExclusive.toInt ≤ r.start.toInt ∧ ¬r.Within r.start.toInt ∨
        r.start.toInt < r.endExclusive.toInt ∧ r.endExclusive.toInt - r.start.toInt < 2 ^ 63 ∧
          stepsBefore r.start.toInt r.endExclusive.toInt r.step.toInt < 2 ^ 60 ∧
          r.start.toInt + stepsBefore r.start.toInt r.endExclusive.toInt r.step.toInt *
            r.step.toInt < 2 ^ 63 ∧
          ∀ k : Nat, r.start.toInt + k * r.step.toInt < r.endExclusive.toInt ↔
            r.Within (r.start.toInt + k * r.step.toInt) := by
  have hpos : 1 ≤ r.step.toInt := Int64.le_iff_toInt_le.mp hstep
  have hstart := (fits_toInt r.start).2
  rw [denotesExactly_iff_count hstep, len, elementCount_eq hstep]
  -- no element, a span that fits, and one that does not
  split_ifs with hempty hfits
  · constructor
    · rintro ⟨n, hn, -, -, hall⟩
      cases hn
      exact .inl ⟨hempty, fun h => absurd ((hall 0).mpr (by simpa using h)) (by omega)⟩
    · rintro (⟨-, hnone⟩ | ⟨hlt, -⟩)
      · refine ⟨0, rfl,
          by decide, by simpa using hstart, fun k => ⟨fun hk => absurd hk (by omega), fun h => ?_⟩⟩
        have hk : 0 ≤ (k : Int) * r.step.toInt := by positivity
        exact absurd (h.of_le (by omega)) hnone
      · exact absurd hempty (by omega)
  · have hcount : 0 ≤ stepsBefore r.start.toInt r.endExclusive.toInt r.step.toInt :=
      ((lt_stepsBefore_iff (by omega)).mpr (by omega)).le
    obtain ⟨n, hn⟩ := Int.eq_ofNat_of_zero_le hcount
    have hlt : ∀ k : Nat, k < n ↔ r.start.toInt + k * r.step.toInt < r.endExclusive.toInt := fun k => by
      rw [← lt_stepsBefore_iff (by omega), hn, Int.ofNat_lt]
    rw [hn, Int.toNat_natCast]
    constructor
    · rintro ⟨m, hm, hroom, hlast, hall⟩
      cases hm
      exact .inr ⟨by omega, hfits.2, by omega, hlast, fun k => (hlt k).symm.trans (hall k)⟩
    · rintro (⟨hge, -⟩ | ⟨-, -, hroom, hlast, hall⟩)
      · exact absurd hge (by omega)
      · exact ⟨n, rfl, by omega, hlast, fun k => (hlt k).trans (hall k)⟩
  · constructor
    · rintro ⟨n, hn, -⟩
      cases hn
    · rintro (⟨hge, -⟩ | ⟨-, hspan, -⟩)
      · exact absurd hge hempty
      · exact absurd ⟨by omega, hspan⟩ hfits

/-- An integer range denotes its elements exactly where its steps fit. -/
theorem denotesExactly_iff_stepsFit (r : RangeData) (hstep : 1 ≤ r.step) :
    r.DenotesExactly ↔ r.StepsFit := by
  have hpos : 1 ≤ r.step.toInt := Int64.le_iff_toInt_le.mp hstep
  rw [denotesExactly_iff_bound hstep, StepsFit]
  by_cases hinclusive : r.inclusive = true
  · simp only [Within, if_pos hinclusive, endExclusive_of_inclusive hpos hinclusive, not_le]
    refine or_congr_right (and_congr_right fun hlt => ?_)
    have hsteps := inclusive_steps_iff hpos hlt
    constructor
    · rintro ⟨hspan, hcount, hlast, hall⟩
      obtain ⟨hend, hdvd⟩ := hsteps.mp ⟨hlast, hall⟩
      refine ⟨hend, hdvd, hspan, ?_⟩
      rwa [stepsBefore_of_dvd hpos hdvd] at hcount
    · rintro ⟨hend, hdvd, hspan, hcount⟩
      obtain ⟨hlast, hall⟩ := hsteps.mpr ⟨hend, hdvd⟩
      refine ⟨hspan, ?_, hlast, hall⟩
      rwa [stepsBefore_of_dvd hpos hdvd]
  · have hbound : r.endExclusive = r.stop := if_neg hinclusive
    simp only [Within, if_neg hinclusive, hbound, not_lt, and_self, implies_true, and_true]
    constructor
    · rintro (hempty | ⟨-, h⟩)
      · exact .inl hempty
      · exact .inr h
    · rintro (hempty | h)
      · exact .inl hempty
      · rcases lt_or_ge r.start.toInt r.stop.toInt with hlt | hge
        · exact .inr ⟨hlt, h⟩
        · exact .inl hge

/-- The range `3..=10` by steps of one. -/
theorem denotesExactly_three_to_ten :
    (1 : Int64) ≤ 1 ∧ RangeData.DenotesExactly { start := 3, stop := 10, step := 1, inclusive := true } :=
  ⟨by decide, (denotesExactly_iff_stepsFit _ (by decide)).mpr (by simp only [StepsFit]; decide)⟩

/-- `0..=1` by steps of two has the elements 0 and 2, and does not contain 2. -/
theorem inclusive_range_passes_end :
    RangeData.toVecI64 { start := 0, stop := 1, step := 2, inclusive := true } = .ok [0, 2] ∧
      RangeData.contains { start := 0, stop := 1, step := 2, inclusive := true } 2 = false ∧
      ¬RangeData.DenotesExactly { start := 0, stop := 1, step := 2, inclusive := true } := by
  refine ⟨by decide +kernel, by decide, ?_⟩
  rintro ⟨values, hvec, ⟨-, hmem⟩, -⟩
  have hvalues : values = [0, 2] := Except.ok.inj (hvec.symm.trans (by decide +kernel))
  subst hvalues
  obtain ⟨k, -, hwithin⟩ := (hmem 2).mp (by decide)
  exact absurd hwithin (by simp only [Within]; decide)

end RangeData

end ShapeLang.Value
