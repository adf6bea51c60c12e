import ShapeLang.Lib.MonotoneQueue

/-!
# Rolling windows over i64 columns

`rolling_sum_i64`, `rolling_min_i64` and `rolling_max_i64` of the runtime. The sum slides over the data: it
drops the value that leaves and adds the one that enters. Minimum and maximum keep a monotone deque of the
window, with the indices that left the window popped from its front.

The pop tests `idx <= i.saturating_sub(window)`. From `i = window` on this pops exactly what has left the
window; before that it already pops index `0`, so the first full window is read without its first value.
-/

namespace ShapeLang.Runtime

open ShapeLang.Lib

/-! ## The loops -/

/-- State of the sliding sum: the current sum and the results written so far. -/
structure SumState where
  sum : Int64
  result : List (Option Int64)
  deriving DecidableEq

def slideSum (data : List Int64) (window : Nat) (s : SumState) (i : Nat) : SumState :=
  let sum := s.sum - data.getD (i - window) 0 + data.getD i 0
  { sum, result := s.result.set i (some sum) }

def rollingSumI64 (data : List Int64) (window : Nat) : List (Option Int64) :=
  let n := data.length
  if window = 0 ∨ n < window then List.replicate n none
  else
    let sum := (data.take window).foldl (· + ·) 0
    let result := (List.replicate n none).set (window - 1) (some sum)
    ((List.range' window (n - window)).foldl (slideSum data window) { sum, result }).result

/-- State of the deque loops: `(index, value)` from front to back, and the results written so far. -/
structure DequeState where
  deque : List (Nat × Int64)
  result : List (Option Int64)
  deriving DecidableEq

section

-- `removes x val`: the entering value `x` pops `val` from the back of the deque.
variable (removes : Int64 → Int64 → Bool)

def slideDeque (window : Nat) (s : DequeState) (i : Nat) (x : Int64) : DequeState :=
  let deque := s.deque.dropWhile fun e => e.1 ≤ i - window
  let deque := deque.rdropWhile fun e => removes x e.2
  let deque := deque ++ [(i, x)]
  { deque, result := if window - 1 ≤ i then s.result.set i (deque.head?.map Prod.snd) else s.result }

def slideDequeFrom (window : Nat) : Nat → List Int64 → DequeState → DequeState
  | _, [], s => s
  | i, x :: rest, s => slideDequeFrom window (i + 1) rest (slideDeque removes window s i x)

/-- The body that minimum and maximum share. -/
def rollingExtremumI64 (data : List Int64) (window : Nat) : List (Option Int64) :=
  let n := data.length
  if window = 0 ∨ n < window then List.replicate n none
  else (slideDequeFrom removes window 0 data { deque := [], result := List.replicate n none }).result

end

/-- Keeps the deque ascending: values `>=` the current one are removed. -/
def rollingMinI64 : List Int64 → Nat → List (Option Int64) :=
  rollingExtremumI64 fun x val => decide (x ≤ val)

/-- Keeps the deque descending: values `<=` the current one are removed. -/
def rollingMaxI64 : List Int64 → Nat → List (Option Int64) :=
  rollingExtremumI64 fun x val => decide (val ≤ x)

/-! ## What a rolling window is -/

/-- The window that ends at index `i`. -/
def windowAt (data : List Int64) (window i : Nat) : List Int64 :=
  (data.drop (i + 1 - window)).take window

def IsWrappingSum (xs : List Int64) (v : Int64) : Prop := v = Int64.ofInt (xs.map Int64.toInt).sum

def IsMinimum (xs : List Int64) (v : Int64) : Prop := v ∈ xs ∧ ∀ x ∈ xs, v ≤ x

def IsMaximum (xs : List Int64) (v : Int64) : Prop := v ∈ xs ∧ ∀ x ∈ xs, x ≤ v

/-- One entry per index: `None` until the window is full, then a value of the window ending there. -/
structure Rolls (data : List Int64) (window : Nat) (IsValue : List Int64 → Int64 → Prop)
    (result : List (Option Int64)) : Prop where
  length : result.length = data.length
  warmup : ∀ i < window - 1, i < data.length → result[i]? = some none
  full : ∀ i, window - 1 ≤ i → i < data.length →
    ∃ v, result[i]? = some (some v) ∧ IsValue (windowAt data window i) v

variable {data : List Int64} {window i : Nat}

theorem mem_windowAt (hfull : window ≤ i + 1) (v : Int64) :
    v ∈ windowAt data window i ↔ ∃ k, i + 1 - window ≤ k ∧ k < i + 1 ∧ data[k]? = some v := by
  unfold windowAt
  rw [List.mem_iff_getElem?]
  constructor
  · rintro ⟨j, hj⟩
    have hlt : j < window := by
      by_contra hge
      rw [List.getElem?_take_eq_none (by omega)] at hj
      cases hj
    rw [List.getElem?_take_of_lt hlt, List.getElem?_drop] at hj
    exact ⟨i + 1 - window + j, by omega, by omega, hj⟩
  · rintro ⟨k, hlo, hhi, hk⟩
    refine ⟨k - (i + 1 - window), ?_⟩
    rw [List.getElem?_take_of_lt (by omega), List.getElem?_drop, ← hk]
    congr 1
    omega

/-! ## The deque loop -/

section

variable {removes : Int64 → Int64 → Bool}
  (htotal : ∀ a b, removes a b = true ∨ removes b a = true)
  (htrans : ∀ a b c, removes a b = true → removes b c = true → removes a c = true)

/-- Where the stretch behind the entry at `i` starts: after the indices that the loop has popped. -/
def stretchStart (window i : Nat) : Nat := if i = 0 then 0 else i - window + 1

/-- The entry written at `i` comes from the stretch and bounds all of it. -/
def BoundsStretch (removes : Int64 → Int64 → Bool) (data : List Int64) (window i : Nat)
    (v : Int64) : Prop :=
  (∃ k, stretchStart window i ≤ k ∧ k < i + 1 ∧ data[k]? = some v) ∧
    ∀ k x, stretchStart window i ≤ k → k < i + 1 → data[k]? = some x → removes v x = true

/-- Before index `i` of the loop. -/
structure DequeInv (removes : Int64 → Int64 → Bool) (data : List Int64) (window i : Nat) (s : DequeState) :
    Prop where
  covers : Covers removes data (stretchStart window (i - 1)) i s.deque
  length : s.result.length = data.length
  unwritten : ∀ j, i ≤ j → j < data.length → s.result[j]? = some none
  warmup : ∀ j < i, j < window - 1 → s.result[j]? = some none
  written : ∀ j < i, window - 1 ≤ j → ∃ v, s.result[j]? = some (some v) ∧
    BoundsStretch removes data window j v

theorem DequeInv.init (data : List Int64) (window : Nat) :
    DequeInv removes data window 0 { deque := [], result := List.replicate data.length none } where
  covers := covers_nil data 0
  length := List.length_replicate
  unwritten := fun j _ hj => by
    rw [List.getElem?_replicate, if_pos hj]
  warmup := fun j hj => by omega
  written := fun j hj => by omega

include htotal htrans

/-- The deque after index `i` covers the stretch behind it. -/
theorem covers_slideDeque {x : Int64} {s : DequeState} (hwindow : 0 < window) (hx : data[i]? = some x)
    (hcovers : Covers removes data (stretchStart window (i - 1)) i s.deque) :
    Covers removes data (stretchStart window i) (i + 1) (slideDeque removes window s i x).deque := by
  rcases Nat.eq_zero_or_pos i with rfl | hpos
  · -- Index 0 meets an empty deque: the pop of index 0 finds nothing.
    have hempty : s.deque = [] := by
      cases hdeque : s.deque with
      | nil => rfl
      | cons e rest =>
        have := (hcovers.entry e (by rw [hdeque]; exact List.mem_cons_self)).2.1
        omega
    have hnil : Covers removes data 0 0 [] := covers_nil data 0
    have hstart := hnil.append htotal htrans (Nat.le_refl 0) hx
    have hslide : (slideDeque removes window s 0 x).deque = [(0, x)] := by
      simp [slideDeque, hempty]
    rw [hslide]
    exact hstart
  · have hstretch : stretchStart window i = i - window + 1 := if_neg (by omega)
    have hprev : stretchStart window (i - 1) ≤ i - window + 1 := by
      unfold stretchStart
      split <;> omega
    rw [hstretch]
    exact hcovers.push htotal htrans hprev (by omega) hx

theorem DequeInv.step {x : Int64} {s : DequeState} (hwindow : 0 < window) (hx : data[i]? = some x)
    (hs : DequeInv removes data window i s) :
    DequeInv removes data window (i + 1) (slideDeque removes window s i x) := by
  have hi : i < data.length := (List.getElem?_eq_some_iff.mp hx).1
  have hcovers := covers_slideDeque htotal htrans hwindow hx hs.covers
  have hlt : stretchStart window i < i + 1 := by
    unfold stretchStart
    split <;> omega
  obtain ⟨e, hfront, hbounds⟩ := hcovers.front htotal htrans hlt hi
  have hresult : (slideDeque removes window s i x).result =
      if window - 1 ≤ i then s.result.set i (some e.2) else s.result := by
    show (if window - 1 ≤ i then s.result.set i ((slideDeque removes window s i x).deque.head?.map Prod.snd)
      else s.result) = _
    rw [hfront]
    rfl
  -- Only index `i` of the results can change.
  have hother : ∀ j, j ≠ i → (slideDeque removes window s i x).result[j]? = s.result[j]? := by
    intro j hne
    rw [hresult]
    split
    · exact List.getElem?_set_ne (Ne.symm hne)
    · rfl
  refine ⟨hcovers, ?_, ?_, ?_, ?_⟩
  · rw [hresult, ← hs.length]
    split
    · exact List.length_set
    · rfl
  · intro j hj hlen
    rw [hother j (by omega)]
    exact hs.unwritten j (by omega) hlen
  · intro j hj hwarm
    rcases Nat.lt_succ_iff_lt_or_eq.mp hj with hlt' | rfl
    · rw [hother j (by omega)]
      exact hs.warmup j hlt' hwarm
    · rw [hresult, if_neg (by omega)]
      exact hs.unwritten j (Nat.le_refl j) hi
  · intro j hj hfull
    rcases Nat.lt_succ_iff_lt_or_eq.mp hj with hlt' | rfl
    · rw [hother j (by omega)]
      exact hs.written j hlt' hfull
    · refine ⟨e.2, ?_, hbounds⟩
      rw [hresult, if_pos hfull]
      exact List.getElem?_set_self (by rw [hs.length]; exact hi)

theorem DequeInv.run (hwindow : 0 < window) (rest : List Int64) {s : DequeState}
    (hrest : data.drop i = rest) (hi : i ≤ data.length) (hs : DequeInv removes data window i s) :
    DequeInv removes data window data.length (slideDequeFrom removes window i rest s) := by
  induction rest generalizing i s with
  | nil =>
    have hlen : i = data.length := by
      have := List.drop_eq_nil_iff.mp hrest
      omega
    rw [← hlen]
    exact hlen ▸ hs
  | cons x rest ih =>
    have hx : data[i]? = some x := by
      rw [← List.head?_drop, hrest]
      rfl
    have hlt : i < data.length := (List.getElem?_eq_some_iff.mp hx).1
    have hnext : data.drop (i + 1) = rest := by
      rw [← List.tail_drop, hrest]
      rfl
    exact ih hnext hlt (hs.step htotal htrans hwindow hx)

/-- What the loop writes: an extremum of the stretch behind each full index. -/
theorem rollingExtremum_spec (hwindow : 0 < window) (hle : window ≤ data.length) :
    (rollingExtremumI64 removes data window).length = data.length ∧
    (∀ i < window - 1, i < data.length → (rollingExtremumI64 removes data window)[i]? = some none) ∧
    ∀ i, window - 1 ≤ i → i < data.length → ∃ v,
      (rollingExtremumI64 removes data window)[i]? = some (some v) ∧
        BoundsStretch removes data window i v := by
  have hinv := (DequeInv.init data window).run htotal htrans hwindow data rfl (Nat.zero_le _)
  have hrun : rollingExtremumI64 removes data window =
      (slideDequeFrom removes window 0 data
        { deque := [], result := List.replicate data.length none }).result :=
    if_neg (by omega)
  rw [hrun]
  exact ⟨hinv.length, fun i hwarm hi => hinv.warmup i hi hwarm, fun i hfull hi => hinv.written i hi hfull⟩

/-- The loop rolls an extremum exactly when the first value is not the only one of the first window. -/
theorem rollingExtremum_iff {IsValue : List Int64 → Int64 → Prop}
    (hvalue : ∀ xs v, IsValue xs v ↔ v ∈ xs ∧ ∀ x ∈ xs, removes v x = true)
    (hwindow : 0 < window) (hle : window ≤ data.length) :
    Rolls data window IsValue (rollingExtremumI64 removes data window) ↔
      window = 1 ∨ ∃ j x first, 0 < j ∧ j < window ∧ data[j]? = some x ∧ data[0]? = some first ∧
        removes x first = true := by
  obtain ⟨hlength, hwarmup, hfull⟩ := rollingExtremum_spec htotal htrans hwindow hle
  constructor
  · intro hrolls
    by_cases hone : window = 1
    · exact Or.inl hone
    · right
      obtain ⟨v, hv, hmem⟩ := hrolls.full (window - 1) (Nat.le_refl _) (by omega)
      obtain ⟨v', hv', ⟨k, hlo, hhi, hk⟩, -⟩ := hfull (window - 1) (Nat.le_refl _) (by omega)
      obtain rfl : v = v' := Option.some.inj (Option.some.inj (hv.symm.trans hv'))
      have hstart : stretchStart window (window - 1) = 1 := by
        unfold stretchStart
        split <;> omega
      have hfirst : data[0]? = some (data.get ⟨0, by omega⟩) := List.getElem?_eq_getElem (by omega)
      refine ⟨k, v, _, by omega, by omega, hk, hfirst, ((hvalue _ _).mp hmem).2 _ ?_⟩
      exact (mem_windowAt (by omega) _).mpr ⟨0, by omega, by omega, hfirst⟩
  · intro hcond
    refine ⟨hlength, hwarmup, ?_⟩
    intro i hi hlen
    obtain ⟨v, hv, ⟨k, hlo, hhi, hk⟩, hbound⟩ := hfull i hi hlen
    refine ⟨v, hv, (hvalue _ _).mpr ?_⟩
    have hstart : i + 1 - window ≤ stretchStart window i := by
      unfold stretchStart
      split <;> omega
    refine ⟨(mem_windowAt (by omega) v).mpr ⟨k, by omega, hhi, hk⟩, ?_⟩
    intro x hx
    obtain ⟨k', hlo', hhi', hk'⟩ := (mem_windowAt (by omega) x).mp hx
    by_cases hin : stretchStart window i ≤ k'
    · exact hbound k' x hin hhi' hk'
    · -- Only index 0 of the first full window is left of the stretch.
      have hk0 : k' = 0 ∧ i + 1 = window ∧ window ≠ 1 := by
        unfold stretchStart at hin
        split at hin <;> omega
      obtain ⟨rfl, hfirst, hne⟩ := hk0
      obtain hone | ⟨j, y, first, hj, hjw, hy, hzero, hremoves⟩ := hcond
      · exact absurd hone hne
      · obtain rfl : x = first := Option.some.inj (hk'.symm.trans hzero)
        have hstretch : stretchStart window i = 1 := by
          unfold stretchStart
          split <;> omega
        exact htrans v y x (hbound j y (by omega) (by omega) hy) hremoves

end

/-! ## The sliding sum -/

/-- The window one step on: the value that leaves against the one that enters. -/
theorem sum_windowAt_succ (hwindow : 0 < window) (hfull : window ≤ i) (hi : i < data.length) :
    ((windowAt data window (i - 1)).map Int64.toInt).sum - (data.getD (i - window) 0).toInt +
        (data.getD i 0).toInt = ((windowAt data window i).map Int64.toInt).sum := by
  have hleave : data.drop (i - window) = data.getD (i - window) 0 :: data.drop (i - window + 1) := by
    rw [List.drop_eq_getElem_cons (by omega), List.getD_eq_getElem _ _ (by omega)]
  have henter : (data.drop (i - window))[window]? = some (data.getD i 0) := by
    rw [List.getElem?_drop, show i - window + window = i from by omega, List.getD_eq_getElem _ _ hi,
      List.getElem?_eq_getElem hi]
  -- Both windows are cut from the same stretch of `window + 1` values.
  have hboth : (data.drop (i - window)).take (window + 1) = windowAt data window (i - 1) ++
      [data.getD i 0] := by
    rw [List.take_add_one, henter]
    show _ = (data.drop (i - 1 + 1 - window)).take window ++ [data.getD i 0]
    rw [show i - 1 + 1 - window = i - window from by omega]
    rfl
  have hcons : (data.drop (i - window)).take (window + 1) =
      data.getD (i - window) 0 :: windowAt data window i := by
    rw [hleave]
    show _ = _ :: (data.drop (i + 1 - window)).take window
    rw [show i + 1 - window = i - window + 1 from by omega]
    rfl
  have hsums := congrArg (fun xs => (List.map Int64.toInt xs).sum) (hboth.symm.trans hcons)
  simp only [List.map_append, List.map_cons, List.map_nil, List.sum_append, List.sum_cons,
    List.sum_nil] at hsums
  omega

theorem foldl_add_isWrappingSum (xs : List Int64) (acc : Int64) :
    xs.foldl (· + ·) acc = acc + Int64.ofInt (xs.map Int64.toInt).sum := by
  induction xs generalizing acc with
  | nil => simp
  | cons x xs ih =>
    rw [List.foldl_cons, ih, List.map_cons, List.sum_cons, Int64.ofInt_add, Int64.ofInt_toInt,
      Int64.add_assoc]

/-- Before index `i` of the sliding loop. -/
structure SumInv (data : List Int64) (window i : Nat) (s : SumState) : Prop where
  sum : IsWrappingSum (windowAt data window (i - 1)) s.sum
  length : s.result.length = data.length
  warmup : ∀ j < window - 1, j < data.length → s.result[j]? = some none
  written : ∀ j < i, window - 1 ≤ j → ∃ v, s.result[j]? = some (some v) ∧ IsWrappingSum
    (windowAt data window j) v

theorem SumInv.init (hwindow : 0 < window) (hle : window ≤ data.length) :
    SumInv data window window
      { sum := (data.take window).foldl (· + ·) 0,
        result := (List.replicate data.length none).set (window - 1)
          (some ((data.take window).foldl (· + ·) 0)) } := by
  have hfirst : windowAt data window (window - 1) = data.take window := by
    unfold windowAt
    rw [show window - 1 + 1 - window = 0 from by omega]
    rfl
  have hsum : IsWrappingSum (data.take window) ((data.take window).foldl (· + ·) 0) := by
    unfold IsWrappingSum
    rw [foldl_add_isWrappingSum, Int64.zero_add]
  refine ⟨by rw [hfirst]; exact hsum, by simp, ?_, ?_⟩
  · intro j hj hlen
    rw [List.getElem?_set_ne (by omega), List.getElem?_replicate, if_pos hlen]
  · intro j hj hfull
    obtain rfl : j = window - 1 := by omega
    refine ⟨_, ?_, by rw [hfirst]; exact hsum⟩
    exact List.getElem?_set_self (by rw [List.length_replicate]; omega)

theorem SumInv.step {s : SumState} (hwindow : 0 < window) (hfull : window ≤ i) (hi : i < data.length)
    (hs : SumInv data window i s) : SumInv data window (i + 1) (slideSum data window s i) := by
  have hsum : IsWrappingSum (windowAt data window i) (slideSum data window s i).sum := by
    have hold := hs.sum
    unfold IsWrappingSum at hold ⊢
    rw [← sum_windowAt_succ hwindow hfull hi, Int64.ofInt_add, Int64.ofInt_sub, Int64.ofInt_toInt,
      Int64.ofInt_toInt, ← hold]
    rfl
  refine ⟨hsum, ?_, ?_, ?_⟩
  · rw [← hs.length]
    exact List.length_set
  · intro j hj hlen
    rw [← hs.warmup j hj hlen]
    exact List.getElem?_set_ne (by omega)
  · intro j hj hwritten
    rcases Nat.lt_succ_iff_lt_or_eq.mp hj with hlt | rfl
    · obtain ⟨v, hv, hvalue⟩ := hs.written j hlt hwritten
      refine ⟨v, ?_, hvalue⟩
      rw [← hv]
      exact List.getElem?_set_ne (by omega)
    · refine ⟨_, ?_, hsum⟩
      exact List.getElem?_set_self (by rw [hs.length]; exact hi)

theorem SumInv.run (hwindow : 0 < window) (count : Nat) {s : SumState} (hfull : window ≤ i)
    (hi : i + count ≤ data.length) (hs : SumInv data window i s) :
    SumInv data window (i + count) ((List.range' i count).foldl (slideSum data window) s) := by
  induction count generalizing i s with
  | zero => exact hs
  | succ count ih =>
    rw [List.range'_succ, List.foldl_cons, show i + (count + 1) = i + 1 + count from by omega]
    exact ih (by omega) (by omega) (hs.step hwindow hfull (by omega))

theorem rollingSum_rolls (hwindow : 0 < window) (hle : window ≤ data.length) :
    Rolls data window IsWrappingSum (rollingSumI64 data window) := by
  have hinv := (SumInv.init hwindow hle).run hwindow (data.length - window) (Nat.le_refl window) (by omega)
  rw [show window + (data.length - window) = data.length from by omega] at hinv
  have hrun : rollingSumI64 data window =
      ((List.range' window (data.length - window)).foldl (slideSum data window)
        { sum := (data.take window).foldl (· + ·) 0,
          result := (List.replicate data.length none).set (window - 1)
            (some ((data.take window).foldl (· + ·) 0)) }).result := if_neg (by omega)
  rw [hrun]
  exact ⟨hinv.length, hinv.warmup, fun i hfull hi => hinv.written i hi hfull⟩

/-! ## The three windows together -/

/-- What the three functions are for: sum, minimum and maximum of every full window. -/
def RollingWindowsMatch (data : List Int64) (window : Nat) : Prop :=
  Rolls data window IsWrappingSum (rollingSumI64 data window) ∧
    Rolls data window IsMinimum (rollingMinI64 data window) ∧
    Rolls data window IsMaximum (rollingMaxI64 data window)

theorem rollingMin_iff (hwindow : 0 < window) (hle : window ≤ data.length) :
    Rolls data window IsMinimum (rollingMinI64 data window) ↔
      window = 1 ∨ ∃ j x first, 0 < j ∧ j < window ∧ data[j]? = some x ∧ data[0]? = some first ∧
        x ≤ first := by
  have htotal : ∀ a b : Int64, decide (a ≤ b) = true ∨ decide (b ≤ a) = true :=
    fun a b => by simpa using Int64.le_total a b
  have htrans : ∀ a b c : Int64, decide (a ≤ b) = true → decide (b ≤ c) = true → decide (a ≤ c) = true :=
    fun a b c hab hbc => by simpa using Int64.le_trans (by simpa using hab) (by simpa using hbc)
  have hvalue : ∀ xs v, IsMinimum xs v ↔ v ∈ xs ∧ ∀ x ∈ xs, decide (v ≤ x) = true :=
    fun xs v => by simp [IsMinimum]
  simpa [rollingMinI64] using rollingExtremum_iff htotal htrans hvalue hwindow hle

theorem rollingMax_iff (hwindow : 0 < window) (hle : window ≤ data.length) :
    Rolls data window IsMaximum (rollingMaxI64 data window) ↔
      window = 1 ∨ ∃ j x first, 0 < j ∧ j < window ∧ data[j]? = some x ∧ data[0]? = some first ∧
        first ≤ x := by
  have htotal : ∀ a b : Int64, decide (b ≤ a) = true ∨ decide (a ≤ b) = true :=
    fun a b => by simpa using Int64.le_total b a
  have htrans : ∀ a b c : Int64, decide (b ≤ a) = true → decide (c ≤ b) = true → decide (c ≤ a) = true :=
    fun a b c hab hbc => by simpa using Int64.le_trans (by simpa using hbc) (by simpa using hab)
  have hvalue : ∀ xs v, IsMaximum xs v ↔ v ∈ xs ∧ ∀ x ∈ xs, decide (x ≤ v) = true :=
    fun xs v => by simp [IsMaximum]
  simpa [rollingMaxI64] using rollingExtremum_iff htotal htrans hvalue hwindow hle

/-- The windows match exactly when the first value is neither the strict minimum nor the strict maximum of
the first window, or the window is a single value. -/
theorem rollingWindows_match_iff (data : List Int64) (window : Nat) (hwindow : 1 ≤ window)
    (hle : window ≤ data.length) :
    RollingWindowsMatch data window ↔
      window = 1 ∨
        (∃ j x first, 0 < j ∧ j < window ∧ data[j]? = some x ∧ data[0]? = some first ∧ x ≤ first) ∧
        ∃ j x first, 0 < j ∧ j < window ∧ data[j]? = some x ∧ data[0]? = some first ∧ first ≤ x := by
  unfold RollingWindowsMatch
  rw [rollingMin_iff hwindow hle, rollingMax_iff hwindow hle]
  constructor
  · rintro ⟨-, hmin | hmin, hmax | hmax⟩
    · exact Or.inl hmin
    · exact Or.inl hmin
    · exact Or.inl hmax
    · exact Or.inr ⟨hmin, hmax⟩
  · rintro (hone | ⟨hmin, hmax⟩)
    · exact ⟨rollingSum_rolls hwindow hle, Or.inl hone, Or.inl hone⟩
    · exact ⟨rollingSum_rolls hwindow hle, Or.inr hmin, Or.inr hmax⟩

theorem rollingWindows_match_plateau : RollingWindowsMatch [2, 2, 7, 1] 2 :=
  (rollingWindows_match_iff [2, 2, 7, 1] 2 (by decide) (by decide)).mpr
    (Or.inr ⟨⟨1, 2, 2, by decide⟩, 1, 2, 2, by decide⟩)

/-- The first value of the first window is a strict minimum: the minimum read there is the second one. -/
theorem rollingMin_misses_first : rollingMinI64 [1, 5, 6] 3 = [none, none, some 5] ∧
    ¬ RollingWindowsMatch [1, 5, 6] 3 := by
  have hread : rollingMinI64 [1, 5, 6] 3 = [none, none, some 5] := by decide +kernel
  refine ⟨hread, ?_⟩
  rintro ⟨-, hmin, -⟩
  obtain ⟨v, hv, -, hbound⟩ := hmin.full 2 (by decide) (by decide)
  rw [hread] at hv
  obtain rfl : 5 = v := Option.some.inj (Option.some.inj hv)
  exact absurd (hbound 1 (by decide)) (by decide)

end ShapeLang.Runtime
