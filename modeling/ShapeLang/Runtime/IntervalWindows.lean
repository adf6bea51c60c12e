import ShapeLang.Runtime.Windows

/-!
# Windows that are intervals

Tumbling and sliding windows are intervals that start at the multiples of a step. The manager opens
a window for the current point only, at the boundary that `alignToWindow` gives, so what it reports
is decided by the points at which it opens windows: `openings`. A run is followed by the boundary
`b` up to which the windows are settled (`Settled`): windows that start at `b` or before get nothing
more, and every later window with a point has to be opened by a later point.

Two things keep a later window from being opened: a point in it is not in the step that starts it,
so that no point opens it; or the point that should open it is before 1970 and not on a boundary,
and opens the window after it instead.
-/

namespace ShapeLang.Runtime

/-- The number of points from `lo` on and before `hi`. -/
def pointsIn (ts : List Int) (lo hi : Int) : Nat := ts.countP fun t => lo ≤ t ∧ t < hi

/-- The last multiple of the step that is not after `t`. -/
def boundary (step t : Int) : Int := t / step * step

/-- The windows that have a point. -/
def filled (keys : List WindowKey) : List WindowKey := keys.filter fun w => 0 < w.2

theorem pointsIn_cons_of_lt {t lo : Int} (h : t < lo) (ts : List Int) (hi : Int) :
    pointsIn (t :: ts) lo hi = pointsIn ts lo hi := by
  refine List.countP_cons_of_neg ?_
  simp only [decide_eq_true_eq]
  omega

theorem pointsIn_cons_of_le {t hi : Int} (h : hi ≤ t) (ts : List Int) (lo : Int) :
    pointsIn (t :: ts) lo hi = pointsIn ts lo hi := by
  refine List.countP_cons_of_neg ?_
  simp only [decide_eq_true_eq]
  omega

theorem pointsIn_cons_of_mem {t lo hi : Int} (h : lo ≤ t) (h' : t < hi) (ts : List Int) :
    pointsIn (t :: ts) lo hi = pointsIn ts lo hi + 1 := by
  refine List.countP_cons_of_pos ?_
  simp only [decide_eq_true_eq]
  exact ⟨h, h'⟩

theorem pointsIn_eq_zero {ts : List Int} {lo hi : Int} :
    pointsIn ts lo hi = 0 ↔ ∀ t ∈ ts, lo ≤ t → hi ≤ t := by
  rw [pointsIn, List.countP_eq_zero]
  refine forall₂_congr fun t _ => ?_
  simp only [decide_eq_true_eq]
  omega

theorem pointsIn_pos {ts : List Int} {lo hi : Int} : 0 < pointsIn ts lo hi ↔ ∃ t ∈ ts, lo ≤ t ∧ t < hi := by
  rw [pointsIn, List.countP_pos_iff]
  simp only [decide_eq_true_eq]

/-! ## Boundaries -/

section

variable {step : Int}

theorem boundary_dvd (step t : Int) : step ∣ boundary step t := Dvd.intro_left _ rfl

theorem boundary_le (hstep : 0 < step) (t : Int) : boundary step t ≤ t := Int.ediv_mul_le t hstep.ne'

theorem lt_boundary_add (hstep : 0 < step) (t : Int) : t < boundary step t + step := by
  have h := Int.lt_ediv_add_one_mul_self t hstep
  rw [Int.add_mul, Int.one_mul] at h
  exact h

/-- Two multiples of the step are a step apart. -/
theorem add_le_of_dvd {a b : Int} (ha : step ∣ a) (hb : step ∣ b) (h : a < b) : a + step ≤ b := by
  have hle : step ≤ b - a := Int.le_of_dvd (by omega) (Int.dvd_sub hb ha)
  omega

theorem le_boundary (hstep : 0 < step) {a t : Int} (ha : step ∣ a) (h : a ≤ t) : a ≤ boundary step t := by
  refine Int.not_lt.mp fun hlt => ?_
  have h1 := add_le_of_dvd (boundary_dvd step t) ha hlt
  have h2 := lt_boundary_add hstep t
  omega

/-- The alignment goes down to the boundary, but up from a time before 1970 between two boundaries. -/
theorem alignToWindow_cases (hstep : 0 < step) (t : Int) :
    (alignToWindow t step = boundary step t ∧ (0 ≤ t ∨ boundary step t = t)) ∨
      (alignToWindow t step = boundary step t + step ∧ t < 0 ∧ boundary step t < t) := by
  rw [alignToWindow, if_neg hstep.ne', Int.tdiv_eq_ediv]
  by_cases h : 0 ≤ t ∨ step ∣ t
  · left
    rw [if_pos h, Int.add_zero]
    refine ⟨rfl, ?_⟩
    rcases h with h | h
    · exact .inl h
    · exact .inr (Int.ediv_mul_cancel h)
  · right
    rw [if_neg h, Int.sign_eq_one_of_pos hstep, Int.add_mul, Int.one_mul]
    refine ⟨rfl, by omega, lt_of_le_of_ne (boundary_le hstep t) fun heq => h (.inr ?_)⟩
    rw [← heq]
    exact boundary_dvd step t

end

/-! ## The windows that a run opens -/

/-- The start of the last window, unless the point at `t` has closed it. -/
def lastOpen (size s t : Int) : Option Int := if s + size ≤ t then none else some s

/-- The windows opened from here on; `last` is the start of the last open window, and `count` is how
many of the points go into a window opened at the first of them. -/
def openings (count : Int → List Int → Nat) (size slide : Int) : Option Int → List Int → List WindowKey
  | _, [] => []
  | last, t :: ts =>
    if last.all fun s => s + slide ≤ t then
      (alignToWindow t slide, count (alignToWindow t slide) (t :: ts)) ::
        openings count size slide (lastOpen size (alignToWindow t slide) t) ts
    else openings count size slide (last.bind fun s => lastOpen size s t) ts

/-- Every point until the window ends goes into it, also one before its start. -/
def pointsUntil (size s : Int) (ts : List Int) : Nat := ts.countP fun t => t < s + size

section

variable {size slide : Int}

theorem alignToWindow_dvd (hslide : 0 < slide) (t : Int) : slide ∣ alignToWindow t slide := by
  rcases alignToWindow_cases hslide t with ⟨h, _⟩ | ⟨h, _⟩
  · rw [h]
    exact boundary_dvd slide t
  · rw [h]
    exact Int.dvd_add (boundary_dvd slide t) (Int.dvd_refl slide)

theorem boundary_le_alignToWindow (hslide : 0 < slide) (t : Int) :
    boundary slide t ≤ alignToWindow t slide := by
  have h := alignToWindow_cases hslide t
  omega

theorem lt_alignToWindow_add (hslide : 0 < slide) (t : Int) : t < alignToWindow t slide + slide := by
  have h := lt_boundary_add hslide t
  have h' := boundary_le_alignToWindow hslide t
  omega

theorem pointsUntil_opened (hsize : 0 < size) (t : Int) (ts : List Int) :
    pointsUntil size (alignToWindow t size) (t :: ts) = 1 + pointsUntil size (alignToWindow t size) ts := by
  rw [Nat.add_comm]
  exact List.countP_cons_of_pos (by simpa using lt_alignToWindow_add hsize t)

theorem lastOpen_opened (hsize : 0 < size) (t : Int) :
    lastOpen size (alignToWindow t size) t = some (alignToWindow t size) :=
  if_neg (Int.not_le.mpr (lt_alignToWindow_add hsize t))

theorem tumblingKeys_some (hsize : 0 < size) {ts : List Int} (hsorted : ts.Pairwise (· ≤ ·))
    (w : WindowKey) :
    tumblingKeys size (some w) ts =
      (w.1, w.2 + pointsUntil size w.1 ts) :: openings (pointsUntil size) size size (some w.1) ts := by
  induction ts generalizing w with
  | nil => rfl
  | cons t ts ih =>
    obtain ⟨hle, hrest⟩ := List.pairwise_cons.mp hsorted
    rw [tumblingKeys, openings, Option.all_some]
    by_cases hclose : w.1 + size ≤ t
    · -- the window is closed with the points it has, and the next one starts with this point
      have hnone : pointsUntil size w.1 (t :: ts) = 0 := by
        refine List.countP_eq_zero.mpr fun t' ht' => ?_
        have hge : t ≤ t' := by
          rcases List.mem_cons.mp ht' with rfl | ht'
          · exact Int.le_refl _
          · exact hle t' ht'
        simp only [decide_eq_true_eq]
        omega
      rw [if_pos hclose, if_pos (by simpa using hclose), ih hrest, hnone, pointsUntil_opened hsize,
        lastOpen_opened hsize]
      rfl
    · have hadd : pointsUntil size w.1 (t :: ts) = pointsUntil size w.1 ts + 1 :=
        List.countP_cons_of_pos (by simpa using hclose)
      rw [if_neg hclose, if_neg (by simpa using hclose), ih hrest, hadd, Option.bind_some, lastOpen,
        if_neg hclose]
      simp only [Nat.add_assoc, Nat.add_comm 1]

theorem tumblingKeys_none (hsize : 0 < size) {ts : List Int} (hsorted : ts.Pairwise (· ≤ ·)) :
    tumblingKeys size none ts = openings (pointsUntil size) size size none ts := by
  cases ts with
  | nil => rfl
  | cons t ts =>
    rw [tumblingKeys, tumblingKeys_some hsize (List.pairwise_cons.mp hsorted).2, openings,
      if_pos Option.all_none, pointsUntil_opened hsize, lastOpen_opened hsize]

/-- Windows end in the order in which they start, so the last one is closed last. -/
theorem getLast?_filter_open {windows : List WindowKey}
    (hstarts : (windows.map Prod.fst).Pairwise (· < ·)) (t : Int) :
    (windows.filter fun w => !decide (w.1 + size ≤ t)).getLast?.map Prod.fst =
      (windows.getLast?.map Prod.fst).bind fun s => lastOpen size s t := by
  rcases List.eq_nil_or_concat windows with rfl | ⟨before, w, rfl⟩
  · rfl
  rw [List.concat_eq_append] at hstarts ⊢
  rw [List.getLast?_concat, Option.map_some, Option.bind_some, lastOpen, List.filter_append]
  by_cases hclose : w.1 + size ≤ t
  · have hall : before.filter (fun w => !decide (w.1 + size ≤ t)) = [] := by
      refine List.filter_eq_nil_iff.mpr fun v hv => ?_
      rw [List.map_append] at hstarts
      have hlt : v.1 < w.1 := (List.pairwise_append.mp hstarts).2.2 v.1 (List.mem_map_of_mem hv) w.1
          (by simp)
      have hclosed : v.1 + size ≤ t := by omega
      simpa using hclosed
    rw [if_pos hclose, hall, List.filter_cons_of_neg (by simpa using hclose)]
    rfl
  · rw [if_neg hclose, List.filter_cons_of_pos (by simpa using hclose), List.filter_nil,
      List.getLast?_concat]
    rfl

/-- The point at `t` and the ones after it, for a window that `t` has been added to. -/
theorem pointsIn_slide (w : WindowKey) (t : Int) (ts : List Int) :
    (fun w : WindowKey => (w.1, w.2 + pointsIn ts w.1 (w.1 + size)))
        (if w.1 ≤ t ∧ t < w.1 + size then (w.1, w.2 + 1) else w) =
      (w.1, w.2 + pointsIn (t :: ts) w.1 (w.1 + size)) := by
  by_cases h : w.1 ≤ t ∧ t < w.1 + size
  · rw [if_pos h, pointsIn_cons_of_mem h.1 h.2]
    simp only [Nat.add_assoc, Nat.add_comm 1]
  · rw [if_neg h]
    rcases Int.lt_or_le t w.1 with hlt | hle
    · rw [pointsIn_cons_of_lt hlt]
    · rw [pointsIn_cons_of_le (by omega)]

/-- The windows after the point at `t` may have opened one. -/
def openedAt (slide : Int) (active : List WindowKey) (t : Int) : List WindowKey :=
  if (active.getLast?.map fun w => decide (w.1 + slide ≤ t)).getD true then
    active ++ [(alignToWindow t slide, 0)]
  else active

theorem map_fst_slideKeys (size slide : Int) (active : List WindowKey) (t : Int) :
    (slideKeys size slide active t).map Prod.fst = (openedAt slide active t).map Prod.fst := by
  show (List.map _ (openedAt slide active t)).map Prod.fst = _
  rw [List.map_map]
  refine List.map_congr_left fun w _ => ?_
  show (if w.1 ≤ t ∧ t < w.1 + size then (w.1, w.2 + 1) else w).1 = w.1
  split <;> rfl

theorem openedAt_cases (active : List WindowKey) (t : Int) :
    ((active.getLast?.map Prod.fst).all fun s => s + slide ≤ t) = true ∧
        openedAt slide active t = active ++ [(alignToWindow t slide, 0)] ∨
      ((active.getLast?.map Prod.fst).all fun s => s + slide ≤ t) = false ∧
        openedAt slide active t = active := by
  cases hlast : active.getLast? with
  | none =>
    rw [openedAt, hlast]
    exact .inl ⟨rfl, rfl⟩
  | some w =>
    rw [openedAt, hlast, Option.map_some, Option.map_some, Option.all_some, Option.getD_some]
    cases hopens : decide (w.1 + slide ≤ t) with
    | true => exact .inl ⟨rfl, rfl⟩
    | false => exact .inr ⟨rfl, rfl⟩

/-- A new window starts after the ones that are open. -/
theorem openedAt_sorted (hslide : 0 < slide) {active : List WindowKey}
    (hstarts : (active.map Prod.fst).Pairwise (· < ·)) (hdvd : ∀ w ∈ active, slide ∣ w.1)
    (t : Int) :
    ((openedAt slide active t).map Prod.fst).Pairwise
    (· < ·) ∧ ∀ w ∈ openedAt slide active t, slide ∣ w.1 := by
  rcases openedAt_cases active t with ⟨hopens, h⟩ | ⟨-, h⟩
  · rw [h, List.map_append, List.pairwise_append]
    refine ⟨⟨hstarts, List.pairwise_singleton _ _, ?_⟩, ?_⟩
    · intro s hs s' hs'
      obtain rfl := List.mem_singleton.mp hs'
      obtain ⟨w, hw, rfl⟩ := List.mem_map.mp hs
      obtain ⟨before, last, rfl⟩ := (List.eq_nil_or_concat active).resolve_left (List.ne_nil_of_mem hw)
      rw [List.concat_eq_append] at hw hstarts hdvd hopens
      rw [List.getLast?_concat, Option.map_some, Option.all_some, decide_eq_true_eq] at hopens
      have hlast : w.1 ≤ last.1 := by
        rcases List.mem_append.mp hw with hw | hw
        · rw [List.map_append] at hstarts
          exact Int.le_of_lt ((List.pairwise_append.mp hstarts).2.2 w.1
            (List.mem_map_of_mem hw) last.1 (by simp))
        · rw [List.mem_singleton.mp hw]
      have hnext : last.1 + slide ≤ boundary slide t :=
        le_boundary hslide (Int.dvd_add (hdvd last (by simp)) (Int.dvd_refl slide)) hopens
      have halign := boundary_le_alignToWindow hslide t
      show w.1 < alignToWindow t slide
      omega
    · intro w hw
      rcases List.mem_append.mp hw with hw | hw
      · exact hdvd w hw
      · rw [List.mem_singleton.mp hw]
        exact alignToWindow_dvd hslide t
  · rw [h]
    exact ⟨hstarts, hdvd⟩

/-- A window of a sliding manager is reported with the points of its interval among the ones still
to come. -/
theorem slidingKeys_perm (hslide : 0 < slide) {ts : List Int} (hsorted : ts.Pairwise (· ≤ ·))
    {active : List WindowKey} (hstarts : (active.map Prod.fst).Pairwise (· < ·))
    (hdvd : ∀ w ∈ active, slide ∣ w.1) :
    (slidingKeys size slide active ts).Perm
      (active.map (fun w => (w.1, w.2 + pointsIn ts w.1 (w.1 + size))) ++
        openings (fun s ts => pointsIn ts s (s + size)) size slide (active.getLast?.map Prod.fst) ts) := by
  induction ts generalizing active with
  | nil =>
    have hid : active.map (fun w => (w.1, w.2 + pointsIn [] w.1 (w.1 + size))) = active :=
      List.map_id active
    rw [hid]
    simp [slidingKeys, openings]
  | cons t ts ih =>
    obtain ⟨hle, hrest⟩ := List.pairwise_cons.mp hsorted
    obtain ⟨hsortedAt, hdvdAt⟩ := openedAt_sorted hslide hstarts hdvd t
    have hfst := map_fst_slideKeys size slide active t
    generalize hwindows : slideKeys size slide active t = windows at hfst
    have hsortedW : (windows.map Prod.fst).Pairwise (· < ·) := hfst ▸ hsortedAt
    have hdvdW : ∀ w ∈ windows, slide ∣ w.1 := by
      intro w hw
      have hmem : w.1 ∈ (openedAt slide active t).map Prod.fst := hfst ▸ List.mem_map_of_mem hw
      obtain ⟨v, hv, hvw⟩ := List.mem_map.mp hmem
      exact hvw ▸ hdvdAt v hv
    -- what is closed gets nothing more, so it may be counted like what is kept
    let final (w : WindowKey) : WindowKey := (w.1, w.2 + pointsIn ts w.1 (w.1 + size))
    have hclosed : windows.filter (fun w => w.1 + size ≤ t) =
        (windows.filter fun w => decide (w.1 + size ≤ t)).map final := by
      refine (List.map_id _).symm.trans (List.map_congr_left fun w hw => ?_)
      have hend : w.1 + size ≤ t := by simpa using (List.mem_filter.mp hw).2
      have hnone : pointsIn ts w.1 (w.1 + size) = 0 :=
        pointsIn_eq_zero.mpr fun t' ht' _ => hend.trans (hle t' ht')
      show w = (w.1, w.2 + pointsIn ts w.1 (w.1 + size))
      rw [hnone, Nat.add_zero]
    have hkeep := @ih hrest (windows.filter fun w => !decide (w.1 + size ≤ t))
      (hsortedW.sublist (List.filter_sublist.map _)) fun w hw => hdvdW w (List.mem_of_mem_filter hw)
    rw [getLast?_filter_open hsortedW] at hkeep
    have hparts : ((windows.filter fun w => decide (w.1 + size ≤ t)).map final ++
        (windows.filter fun w => !decide (w.1 + size ≤ t)).map final).Perm (windows.map final) := by
      rw [← List.map_append]
      exact (List.filter_append_perm _ windows).map final
    have hfinal : windows.map final =
        (openedAt slide active t).map fun w => (w.1, w.2 + pointsIn (t :: ts) w.1 (w.1 + size)) := by
      rw [← hwindows]
      show (List.map _ (openedAt slide active t)).map final = _
      rw [List.map_map]
      exact List.map_congr_left fun w _ => pointsIn_slide w t ts
    have hlast : windows.getLast?.map Prod.fst = (openedAt slide active t).getLast?.map Prod.fst := by
      rw [← List.getLast?_map, ← List.getLast?_map, hfst]
    have hall : (slidingKeys size slide active (t :: ts)).Perm
        (((openedAt slide active t).map fun w => (w.1, w.2 + pointsIn (t :: ts) w.1 (w.1 + size))) ++
          openings (fun s ts => pointsIn ts s (s + size)) size slide
            (((openedAt slide active t).getLast?.map Prod.fst).bind fun s => lastOpen size s t) ts) := by
      rw [slidingKeys, hwindows, hclosed, ← hfinal, ← hlast]
      refine (hkeep.append_left _).trans ?_
      rw [← List.append_assoc]
      exact hparts.append_right _
    refine hall.trans (.of_eq ?_)
    rw [openings]
    rcases openedAt_cases active t with ⟨hopens, h⟩ | ⟨hopens, h⟩
    · rw [h, if_pos hopens, List.map_append, List.append_assoc, List.getLast?_concat]
      simp
    · rw [h, if_neg (by simp [hopens])]

/-! ## When the windows that a run opens are the right ones -/

/-- Windows that start at `b` or before have been opened and get nothing more that is not counted
already. -/
structure Settled (size slide b : Int) (last : Option Int) (ts : List Int) : Prop where
  dvd : slide ∣ b
  last : last = some b ∨ last = none ∧ ∀ t ∈ ts, b + size ≤ t

/-- The keys are those of the windows that start after `b` and have a point. -/
def ExactFrom (size slide b : Int) (ts : List Int) (keys : List WindowKey) : Prop :=
  ∀ x n, (x, n) ∈ keys ↔ slide ∣ x ∧ b < x ∧ n = pointsIn ts x (x + size) ∧ 0 < n

/-- Every window after `b` with a point has a point in its first step; and if that is before 1970,
on its start. -/
structure OpenedFrom (size slide b : Int) (ts : List Int) : Prop where
  step : ∀ p ∈ ts, ∀ x, slide ∣ x → b < x → x ≤ p → p < x + size → ∃ q ∈ ts, x ≤ q ∧ q < x + slide
  start : ∀ p ∈ ts, p < 0 → b < boundary slide p → p < boundary slide p + size → boundary slide p ∈ ts

variable {b : Int} {last : Option Int} {t : Int} {ts : List Int} {keys : List WindowKey}
  {count : Int → List Int → Nat}

theorem filled_cons_zero (x : Int) (keys : List WindowKey) : filled ((x, 0) :: keys) = filled keys :=
  List.filter_cons_of_neg (by simp)

theorem mem_filled {w : WindowKey} : w ∈ filled keys ↔ w ∈ keys ∧ 0 < w.2 := by
  rw [filled, List.mem_filter, decide_eq_true_eq]

/-- A point before the next boundary is in no later window. -/
theorem ExactFrom.skip_iff (hdvd : slide ∣ b) (ht : t < b + slide) :
    ExactFrom size slide b (t :: ts) keys ↔ ExactFrom size slide b ts keys := by
  refine forall₂_congr fun x n => iff_congr Iff.rfl
    (and_congr_right fun hx => and_congr_right fun hlt => ?_)
  have hnext := add_le_of_dvd hdvd hx hlt
  rw [pointsIn_cons_of_lt (by omega)]

theorem OpenedFrom.skip_iff (hslide : 0 < slide) (hdvd : slide ∣ b) (ht : t < b + slide) :
    OpenedFrom size slide b (t :: ts) ↔ OpenedFrom size slide b ts := by
  constructor
  · intro h
    constructor
    · intro p hp x hx hlt hle hend
      obtain ⟨q, hq, hxq, hqx⟩ := h.step p (.tail _ hp) x hx hlt hle hend
      have hnext := add_le_of_dvd hdvd hx hlt
      rcases List.mem_cons.mp hq with rfl | hq
      · omega
      · exact ⟨q, hq, hxq, hqx⟩
    · intro p hp hneg hlt hend
      have hnext := add_le_of_dvd hdvd (boundary_dvd slide p) hlt
      rcases List.mem_cons.mp (h.start p (.tail _ hp) hneg hlt hend) with hq | hq
      · omega
      · exact hq
  · intro h
    constructor
    · intro p hp x hx hlt hle hend
      have hnext := add_le_of_dvd hdvd hx hlt
      rcases List.mem_cons.mp hp with rfl | hp
      · omega
      · obtain ⟨q, hq, hxq, hqx⟩ := h.step p hp x hx hlt hle hend
        exact ⟨q, .tail _ hq, hxq, hqx⟩
    · intro p hp hneg hlt hend
      have hnext := add_le_of_dvd hdvd (boundary_dvd slide p) hlt
      rcases List.mem_cons.mp hp with rfl | hp
      · have hle := boundary_le hslide p
        omega
      · exact .tail _ (h.start p hp hneg hlt hend)

/-- The windows that start after `b` and before `g` have no point. -/
def NoneBetween (size slide b g : Int) (ts : List Int) : Prop :=
  ∀ x, slide ∣ x → b < x → x < g → pointsIn ts x (x + size) = 0

/-- Opening a window at `g` is right when no window before it is left out. -/
theorem ExactFrom.open_iff {g : Int} (hg : slide ∣ g) (hbg : b < g) (ht : t < g + slide)
    (hstarts : ∀ w ∈ filled keys, g < w.1) :
    ExactFrom size slide b (t :: ts) (filled ((g, pointsIn (t :: ts) g (g + size)) :: keys)) ↔
      NoneBetween size slide b g (t :: ts) ∧ ExactFrom size slide g ts (filled keys) := by
  have hcons : ∀ x n, (x, n) ∈ filled ((g, pointsIn (t :: ts) g (g + size)) :: keys) ↔
      (x = g ∧ n = pointsIn (t :: ts) x (x + size) ∧ 0 < n) ∨ (x, n) ∈ filled keys := by
    intro x n
    rw [mem_filled, mem_filled, List.mem_cons, Prod.mk.injEq, or_and_right, and_assoc]
    refine or_congr (and_congr_right fun h => ?_) Iff.rfl
    rw [h]
  -- the first point lies before every later window
  have hskip : ∀ x, slide ∣ x → g < x → pointsIn (t :: ts) x (x + size) = pointsIn ts x (x + size) := by
    intro x hx hlt
    have hnext := add_le_of_dvd hg hx hlt
    exact pointsIn_cons_of_lt (by omega) ts _
  constructor
  · intro h
    constructor
    · intro x hx hlt hlt'
      -- a window between with a point in it would be among the keys
      by_contra hpos
      have hmem := (h x _).mpr ⟨hx, hlt, rfl, Nat.pos_of_ne_zero hpos⟩
      rcases (hcons x _).mp hmem with ⟨hxg, -⟩ | hmem
      · omega
      · have hgt := hstarts _ hmem
        omega
    · intro x n
      constructor
      · intro hmem
        have hlt : g < x := hstarts _ hmem
        obtain ⟨hx, -, hn, hpos⟩ := (h x n).mp ((hcons x n).mpr (.inr hmem))
        exact ⟨hx, hlt, hn.trans (hskip x hx hlt), hpos⟩
      · rintro ⟨hx, hlt, hn, hpos⟩
        have hmem := (h x n).mpr ⟨hx, hbg.trans hlt, hn.trans (hskip x hx hlt).symm, hpos⟩
        rcases (hcons x n).mp hmem with ⟨hxg, -⟩ | hmem
        · omega
        · exact hmem
  · rintro ⟨hnone, h⟩ x n
    rw [hcons]
    constructor
    · rintro (⟨rfl, hn, hpos⟩ | hmem)
      · exact ⟨hg, hbg, hn, hpos⟩
      · obtain ⟨hx, hlt, hn, hpos⟩ := (h x n).mp hmem
        exact ⟨hx, hbg.trans hlt, hn.trans (hskip x hx hlt).symm, hpos⟩
    · rintro ⟨hx, hlt, hn, hpos⟩
      -- before `g`, at `g`, or after it
      rcases Int.lt_trichotomy x g with hxg | hxg | hxg
      · have hzero := hnone x hx hlt hxg
        omega
      · exact .inl ⟨hxg, hn, hpos⟩
      · exact .inr ((h x n).mpr ⟨hx, hxg, hn.trans (hskip x hx hxg), hpos⟩)

theorem OpenedFrom.mono {g : Int} (hbg : b ≤ g) (h : OpenedFrom size slide b ts) :
    OpenedFrom size slide g ts where
  step p hp x hx hlt := h.step p hp x hx (by omega)
  start p hp hneg hlt := h.start p hp hneg (by omega)

theorem le_of_mem_sorted {p : Int} (hsorted : (t :: ts).Pairwise (· ≤ ·)) (hp : p ∈ t :: ts) : t ≤ p := by
  rcases List.mem_cons.mp hp with rfl | hp
  · exact Int.le_refl _
  · exact (List.pairwise_cons.mp hsorted).1 p hp

/-- A window before the one of the first point has no point in its first step. -/
theorem OpenedFrom.noneBetween (hslide : 0 < slide) (hsorted : (t :: ts).Pairwise (· ≤ ·))
    (h : OpenedFrom size slide b (t :: ts)) : NoneBetween size slide b (boundary slide t) (t :: ts) := by
  intro x hx hlt hlt'
  by_contra hpos
  obtain ⟨p, hp, hxp, hpx⟩ := pointsIn_pos.mp (Nat.pos_of_ne_zero hpos)
  obtain ⟨q, hq, -, hqx⟩ := h.step p hp x hx hlt hxp hpx
  have htq := le_of_mem_sorted hsorted hq
  have hnext := add_le_of_dvd hx (boundary_dvd slide t) hlt'
  have hle := boundary_le hslide t
  omega

theorem OpenedFrom.open_iff (hslide : 0 < slide) (hsorted : (t :: ts).Pairwise (· ≤ ·))
    (hb : b < boundary slide t) (hgood : 0 ≤ t ∨ boundary slide t = t) :
    OpenedFrom size slide b (t :: ts) ↔
      NoneBetween size slide b (boundary slide t) (t :: ts) ∧ OpenedFrom size slide
        (boundary slide t) ts := by
  have hle := boundary_le hslide t
  have hlt := lt_boundary_add hslide t
  have hdvd := boundary_dvd slide t
  constructor
  · intro h
    exact ⟨h.noneBetween hslide hsorted, (OpenedFrom.skip_iff hslide hdvd hlt).mp (h.mono (by omega))⟩
  · rintro ⟨hnone, h⟩
    have hlater := (OpenedFrom.skip_iff hslide hdvd hlt).mpr h
    constructor
    · intro p hp x hx hbx hxp hpx
      rcases Int.lt_trichotomy x (boundary slide t) with hxf | hxf | hxf
      · have hpos := pointsIn_pos.mpr ⟨p, hp, hxp, hpx⟩
        have hzero := hnone x hx hbx hxf
        omega
      · exact ⟨t, .head _, by omega, by omega⟩
      · exact hlater.step p hp x hx hxf hxp hpx
    · intro p hp hneg hbp hpend
      have htp := le_of_mem_sorted hsorted hp
      rcases Int.lt_or_le (boundary slide t) (boundary slide p) with hfp | hfp
      · exact hlater.start p hp hneg hfp hpend
      · -- the window that this point opens: it is before 1970 as well, and so on its start
        have hge := le_boundary hslide hdvd (hle.trans htp)
        rw [show boundary slide p = t by omega]
        exact .head _

/-- What is counted for a window opened at the first point: the points of its interval. For windows
without gaps between them this is asked only of a window that does not start after that point. -/
def CountsInterval (count : Int → List Int → Nat) (size slide : Int) : Prop :=
  ∀ s t ts, (t :: ts).Pairwise (· ≤ ·) → s ≤ t ∨ size < slide → count s (t :: ts) = pointsIn
    (t :: ts) s (s + size)

theorem Settled.lastOpen (hb : slide ∣ b) (hle : ∀ t' ∈ ts, t ≤ t') :
    Settled size slide b (lastOpen size b t) ts := by
  refine ⟨hb, ?_⟩
  unfold Runtime.lastOpen
  split
  · exact .inr ⟨rfl, fun t' ht' => le_trans ‹_› (hle t' ht')⟩
  · exact .inl rfl

/-- What the next point does: nothing for the windows after `b`; or it opens its own window; or,
before 1970 and between two boundaries, the window after its own. -/
theorem Settled.openings_cases (hsize : 0 < size) (hslide : 0 < slide)
    (hcount : CountsInterval count size slide) (hsorted : (t :: ts).Pairwise (· ≤ ·))
    (h : Settled size slide b last (t :: ts)) :
    (∃ last', t < b + slide ∧ Settled size slide b last' ts ∧
      filled (openings count size slide last (t :: ts)) = filled (openings count size slide last' ts)) ∨
    (∃ last', b < boundary slide t ∧ (0 ≤ t ∨ boundary slide t = t) ∧ Settled size slide
      (boundary slide t) last' ts ∧
      openings count size slide last (t :: ts) =
        (boundary slide t, pointsIn (t :: ts) (boundary slide t) (boundary slide t + size)) ::
          openings count size slide last' ts) ∨
    ((t < 0 ∧ boundary slide t < t) ∧
      (b ≤ boundary slide t ∧ (t < boundary slide t + size → b < boundary slide t)) ∧
      Settled size slide (boundary slide t + slide) (some (boundary slide t + slide)) ts ∧
      openings count size slide last (t :: ts) =
        (boundary slide t + slide, count (boundary slide t + slide) (t :: ts)) ::
          openings count size slide (some (boundary slide t + slide)) ts) := by
  have hle := (List.pairwise_cons.mp hsorted).1
  have hfle := boundary_le hslide t
  have hflt := lt_boundary_add hslide t
  have hfdvd := boundary_dvd slide t
  have hsettled : ((last.all fun s => s + slide ≤ t) = true ∧ b ≤ boundary slide t ∧
      (t < boundary slide t + size → b < boundary slide t)) ∨ last = some b ∧ t < b + slide := by
    rcases h.last with rfl | ⟨rfl, hend⟩
    · rcases Int.lt_or_le t (b + slide) with hlt | hge
      · exact .inr ⟨rfl, hlt⟩
      · have hnext := le_boundary hslide (Int.dvd_add h.dvd (Int.dvd_refl slide)) hge
        exact .inl ⟨by simpa using hge, by omega, fun _ => by omega⟩
    · have hend := hend t (.head _)
      have hbf := le_boundary hslide h.dvd (show b ≤ t by omega)
      exact .inl ⟨rfl, hbf, fun _ => by omega⟩
  rcases hsettled with ⟨hopens, hbf, hin⟩ | ⟨rfl, hlt⟩
  · rw [openings, if_pos hopens]
    rcases alignToWindow_cases hslide t with ⟨halign, hgood⟩ | ⟨halign, hneg, hoff⟩
    · rw [halign, hcount _ t ts hsorted (.inl hfle)]
      rcases Int.lt_or_le b (boundary slide t) with hlt | hge
      · exact .inr (.inl ⟨_, hlt, hgood, .lastOpen hfdvd hle, rfl⟩)
      · -- a window that is over is opened once more, and gets nothing
        have heq : boundary slide t = b := by omega
        refine .inl ⟨_, by omega, .lastOpen h.dvd hle, ?_⟩
        have hzero : pointsIn (t :: ts) (boundary slide t) (boundary slide t + size) = 0 :=
          pointsIn_eq_zero.mpr fun p hp _ => le_trans (by omega) (le_of_mem_sorted hsorted hp)
        rw [hzero, filled_cons_zero, heq]
    · rw [halign]
      have hopen : Runtime.lastOpen size (boundary slide t + slide) t = some (boundary slide t + slide) :=
        if_neg (by omega)
      rw [hopen]
      exact .inr (.inr ⟨⟨hneg, hoff⟩, ⟨hbf, hin⟩, ⟨Int.dvd_add hfdvd (Int.dvd_refl slide), .inl rfl⟩, rfl⟩)
  · refine .inl ⟨_, hlt, .lastOpen h.dvd hle, ?_⟩
    rw [openings, if_neg (by simpa using hlt)]
    rfl

/-- Windows are opened in the order of their starts. -/
theorem openings_sorted (hsize : 0 < size) (hslide : 0 < slide) (hcount : CountsInterval count size slide)
    (hsorted : ts.Pairwise (· ≤ ·)) (h : Settled size slide b last ts) :
    (∀ w ∈ filled (openings count size slide last ts), b < w.1) ∧
      ((filled (openings count size slide last ts)).map Prod.fst).Pairwise (· < ·) := by
  induction ts generalizing b last with
  | nil => simp [openings, filled]
  | cons t ts ih =>
    have hrest := (List.pairwise_cons.mp hsorted).2
    -- a window at `g` in front of windows that start after `g`
    have hopen : ∀ g n keys, b < g → (∀ w ∈ filled keys, g < w.1) ∧
        ((filled keys).map Prod.fst).Pairwise (· < ·) →
        (∀ w ∈ filled ((g, n) :: keys), b < w.1) ∧ ((filled ((g, n) :: keys)).map Prod.fst).Pairwise
          (· < ·) := by
      rintro g n keys hbg ⟨hlater, hpairs⟩
      by_cases hn : 0 < n
      · rw [show filled ((g, n) :: keys) = (g, n) :: filled keys from List.filter_cons_of_pos
          (by simpa using hn)]
        refine ⟨fun w hw => ?_, List.pairwise_cons.mpr ⟨fun s hs => ?_, hpairs⟩⟩
        · rcases List.mem_cons.mp hw with rfl | hw
          · exact hbg
          · exact hbg.trans (hlater w hw)
        · obtain ⟨w, hw, rfl⟩ := List.mem_map.mp hs
          exact hlater w hw
      · obtain rfl : n = 0 := by omega
        rw [filled_cons_zero]
        exact ⟨fun w hw => hbg.trans (hlater w hw), hpairs⟩
    rcases h.openings_cases hsize hslide hcount hsorted with
      ⟨last', -, hnext, heq⟩ | ⟨last', hlt, -, hnext, heq⟩ | ⟨-, ⟨hle, -⟩, hnext, heq⟩
    · rw [heq]
      exact ih hrest hnext
    · rw [heq]
      exact hopen _ _ _ hlt (ih hrest hnext)
    · rw [heq]
      exact hopen _ _ _ (by omega) (ih hrest hnext)

theorem exactFrom_nil : ExactFrom size slide b [] [] := by
  intro x n
  simp only [List.not_mem_nil, false_iff]
  rintro ⟨-, -, rfl, hpos⟩
  exact Nat.lt_irrefl 0 hpos

theorem openings_exactFrom (hsize : 0 < size) (hslide : 0 < slide)
    (hcount : CountsInterval count size slide) (hsorted : ts.Pairwise (· ≤ ·))
    (h : Settled size slide b last ts) (hopened : OpenedFrom size slide b ts) :
    ExactFrom size slide b ts (filled (openings count size slide last ts)) := by
  induction ts generalizing b last with
  | nil => exact exactFrom_nil
  | cons t ts ih =>
    have hrest := (List.pairwise_cons.mp hsorted).2
    have hlt := lt_boundary_add hslide t
    rcases h.openings_cases hsize hslide hcount hsorted with
      ⟨last', hskip, hnext, heq⟩ | ⟨last', hbf, hgood, hnext, heq⟩ | ⟨⟨hneg, hoff⟩, ⟨hle, hin⟩, hnext, heq⟩
    · rw [heq, ExactFrom.skip_iff h.dvd hskip]
      exact ih hrest hnext ((OpenedFrom.skip_iff hslide h.dvd hskip).mp hopened)
    · obtain ⟨hnone, hlater⟩ := (OpenedFrom.open_iff hslide hsorted hbf hgood).mp hopened
      rw [heq, ExactFrom.open_iff hnext.dvd hbf hlt (openings_sorted hsize hslide hcount hrest hnext).1]
      exact ⟨hnone, ih hrest hnext hlater⟩
    · -- its own window has no point: it would be missing
      have hhole : boundary slide t + size ≤ t := by
        refine Int.not_lt.mp fun hlt => ?_
        have hmem := hopened.start t (.head _) hneg (hin hlt) hlt
        have hge := le_of_mem_sorted hsorted hmem
        omega
      rw [heq, hcount _ t ts hsorted (.inr (by omega)),
        ExactFrom.open_iff hnext.dvd (by omega) (by omega)
          (openings_sorted hsize hslide hcount hrest hnext).1]
      refine ⟨fun x hx hbx hxg => ?_, ih hrest hnext ?_⟩
      · rcases Int.lt_or_le x (boundary slide t) with hxf | hxf
        · exact hopened.noneBetween hslide hsorted x hx hbx hxf
        · have hxle := add_le_of_dvd hx hnext.dvd hxg
          exact pointsIn_eq_zero.mpr fun p hp _ => le_trans (by omega) (le_of_mem_sorted hsorted hp)
      · exact (OpenedFrom.skip_iff hslide hnext.dvd (by omega)).mp (hopened.mono (by omega))

/-- Without a point before 1970 between two windows, a window that is opened too early is not its
point's own one. -/
theorem openedFrom_of_exactFrom (hsize : 0 < size) (hslide : 0 < slide)
    (hcount : CountsInterval count size slide) (hsorted : ts.Pairwise (· ≤ ·))
    (hholes : ∀ p ∈ ts, p < 0 → p < boundary slide p + size) (h : Settled size slide b last ts)
    (hexact : ExactFrom size slide b ts (filled (openings count size slide last ts))) :
    OpenedFrom size slide b ts := by
  induction ts generalizing b last with
  | nil => exact ⟨fun _ hp => (nomatch hp), fun _ hp => (nomatch hp)⟩
  | cons t ts ih =>
    have hrest := (List.pairwise_cons.mp hsorted).2
    have hlt := lt_boundary_add hslide t
    have hih {b last} := @ih b last hrest fun p hp => hholes p (.tail _ hp)
    rcases h.openings_cases hsize hslide hcount hsorted with
      ⟨last', hskip, hnext, heq⟩ | ⟨last', hbf, hgood, hnext, heq⟩ | ⟨⟨hneg, hoff⟩, ⟨hle, hin⟩, hnext, heq⟩
    · rw [heq, ExactFrom.skip_iff h.dvd hskip] at hexact
      exact (OpenedFrom.skip_iff hslide h.dvd hskip).mpr (hih hnext hexact)
    · rw [heq, ExactFrom.open_iff hnext.dvd hbf hlt
        (openings_sorted hsize hslide hcount hrest hnext).1] at hexact
      exact (OpenedFrom.open_iff hslide hsorted hbf hgood).mpr ⟨hexact.1, hih hnext hexact.2⟩
    · -- the window of this point is not opened, neither now nor later
      have hend := hholes t (.head _) hneg
      have hpos := pointsIn_pos.mpr ⟨t, .head ts, Int.le_of_lt hoff, hend⟩
      have hmem := (hexact _ _).mpr ⟨boundary_dvd slide t, hin hend, rfl, hpos⟩
      rw [heq, mem_filled, List.mem_cons] at hmem
      rcases hmem.1 with hfirst | hlater
      · have hstart := congrArg Prod.fst hfirst
        simp only at hstart
        omega
      · have hgt := (openings_sorted hsize hslide hcount hrest hnext).1 _ (mem_filled.mpr ⟨hlater, hmem.2⟩)
        simp only at hgt
        omega

/-! ## A whole sequence -/

/-- One result for each interval that starts at a multiple of the step and contains a point, with
the number of its points. -/
structure IntervalWindows (step size : Int) (ts : List Int) (keys : List WindowKey) : Prop where
  nodup : (keys.map Prod.fst).Nodup
  mem_iff : ∀ x n, (x, n) ∈ keys ↔ step ∣ x ∧ n = pointsIn ts x (x + size) ∧ 0 < n

/-- Every window with a point has a point in its first step; and a window whose first step has a
point before 1970 in it has a point on its start. -/
structure Opened (slide size : Int) (ts : List Int) : Prop where
  step : ∀ p ∈ ts, ∀ x, slide ∣ x → x ≤ p → p < x + size → ∃ q ∈ ts, x ≤ q ∧ q < x + slide
  start : ∀ p ∈ ts, p < 0 → p < boundary slide p + size → boundary slide p ∈ ts

/-- A boundary before which no window has a point. -/
theorem exists_settled (hslide : 0 < slide) (hsorted : ts.Pairwise (· ≤ ·)) :
    ∃ b, Settled size slide b none ts ∧ ∀ t ∈ ts, b + size ≤ t := by
  cases ts with
  | nil => exact ⟨0, ⟨Int.dvd_zero slide, .inr ⟨rfl, fun _ h => (nomatch h)⟩⟩, fun _ h => (nomatch h)⟩
  | cons t ts =>
    have hend : ∀ t' ∈ t :: ts, boundary slide (t - size) + size ≤ t' := by
      intro t' ht'
      have hle := boundary_le hslide (t - size)
      have hge := le_of_mem_sorted hsorted ht'
      omega
    exact ⟨_, ⟨boundary_dvd slide (t - size), .inr ⟨rfl, hend⟩⟩, hend⟩

theorem openedFrom_iff_opened (hend : ∀ t ∈ ts, b + size ≤ t) :
    OpenedFrom size slide b ts ↔ Opened slide size ts := by
  have hafter : ∀ p ∈ ts, ∀ x, p < x + size → b < x := fun p hp x hpx => by
    have hge := hend p hp
    omega
  constructor
  · intro h
    exact ⟨fun p hp x hx hxp hpx => h.step p hp x hx (hafter p hp x hpx) hxp hpx,
      fun p hp hneg hpx => h.start p hp hneg (hafter p hp _ hpx) hpx⟩
  · intro h
    exact ⟨fun p hp x hx _ => h.step p hp x hx, fun p hp hneg _ => h.start p hp hneg⟩

theorem exactFrom_iff_mem_iff (hend : ∀ t ∈ ts, b + size ≤ t) :
    ExactFrom size slide b ts keys ↔ ∀ x n, (x, n) ∈ keys ↔ slide ∣ x ∧ n = pointsIn ts x
      (x + size) ∧ 0 < n := by
  refine forall₂_congr fun x n => iff_congr Iff.rfl (and_congr_right fun _ => ?_)
  constructor
  · exact fun h => h.2
  · rintro ⟨rfl, hpos⟩
    obtain ⟨t, ht, -, htx⟩ := pointsIn_pos.mp hpos
    have hge := hend t ht
    exact ⟨by omega, rfl, hpos⟩

theorem openings_intervalWindows (hsize : 0 < size) (hslide : 0 < slide)
    (hcount : CountsInterval count size slide) (hsorted : ts.Pairwise (· ≤ ·))
    (hopened : Opened slide size ts) :
    IntervalWindows slide size ts (filled (openings count size slide none ts)) := by
  obtain ⟨b, hsettled, hend⟩ := exists_settled hslide hsorted
  have hexact := openings_exactFrom hsize hslide hcount hsorted hsettled
    ((openedFrom_iff_opened hend).mpr hopened)
  exact ⟨(openings_sorted hsize hslide hcount hsorted hsettled).2.imp fun h => h.ne,
    (exactFrom_iff_mem_iff hend).mp hexact⟩

theorem opened_of_intervalWindows (hsize : 0 < size) (hslide : 0 < slide)
    (hcount : CountsInterval count size slide) (hsorted : ts.Pairwise (· ≤ ·))
    (hholes : ∀ p ∈ ts, p < 0 → p < boundary slide p + size)
    (h : IntervalWindows slide size ts (filled (openings count size slide none ts))) :
    Opened slide size ts := by
  obtain ⟨b, hsettled, hend⟩ := exists_settled hslide hsorted
  have hexact := (exactFrom_iff_mem_iff hend).mpr h.mem_iff
  exact (openedFrom_iff_opened hend).mp
    (openedFrom_of_exactFrom hsize hslide hcount hsorted hholes hsettled hexact)

theorem IntervalWindows.perm {keys' : List WindowKey} (hperm : keys.Perm keys') :
    IntervalWindows slide size ts keys ↔ IntervalWindows slide size ts keys' := by
  constructor
  · exact fun h => ⟨(hperm.map _).nodup_iff.mp h.nodup, fun x n => hperm.mem_iff.symm.trans (h.mem_iff x n)⟩
  · exact fun h => ⟨(hperm.map _).nodup_iff.mpr h.nodup, fun x n => hperm.mem_iff.trans (h.mem_iff x n)⟩

/-- A tumbling window that does not start after its first point gets the points of its interval. -/
theorem countsInterval_pointsUntil : CountsInterval (pointsUntil size) size size := by
  intro s t ts hsorted hle
  have hst : s ≤ t := hle.resolve_right (Int.lt_irrefl size)
  refine List.countP_congr fun p hp => ?_
  have htp := le_of_mem_sorted hsorted hp
  simp only [decide_eq_true_eq]
  omega

theorem countsInterval_pointsIn : CountsInterval (fun s ts => pointsIn ts s (s + size)) size slide :=
  fun _ _ _ _ _ => rfl

/-- Windows of the length of the step have no gaps between them, and a window's first step is all of it. -/
theorem opened_iff_of_tumbling (hsize : 0 < size) :
    Opened size size ts ↔ ∀ p ∈ ts, p < 0 → boundary size p ∈ ts := by
  constructor
  · intro h p hp hneg
    exact h.start p hp hneg (lt_boundary_add hsize p)
  · intro h
    exact ⟨fun p hp x _ hxp hpx => ⟨p, hp, hxp, hpx⟩, fun p hp hneg _ => h p hp hneg⟩

theorem tumblingKeys_intervalWindows_iff (hsize : 0 < size) (hsorted : ts.Pairwise (· ≤ ·)) :
    IntervalWindows size size ts (filled (tumblingKeys size none ts)) ↔ ∀ p ∈ ts, p < 0 →
      boundary size p ∈ ts := by
  rw [tumblingKeys_none hsize hsorted, ← opened_iff_of_tumbling hsize]
  constructor
  · exact opened_of_intervalWindows hsize hsize countsInterval_pointsUntil hsorted
      fun p _ _ => lt_boundary_add hsize p
  · exact openings_intervalWindows hsize hsize countsInterval_pointsUntil hsorted

theorem slidingKeys_intervalWindows_iff (hslide : 0 < slide) (hsorted : ts.Pairwise (· ≤ ·)) :
    IntervalWindows slide size ts (filled (slidingKeys size slide [] ts)) ↔
      IntervalWindows slide size ts
        (filled (openings (fun s ts => pointsIn ts s (s + size)) size slide none ts)) := by
  refine IntervalWindows.perm ?_
  have hperm : (slidingKeys size slide [] ts).Perm _ :=
    slidingKeys_perm hslide hsorted List.Pairwise.nil (by simp)
  exact hperm.filter _

end

end ShapeLang.Runtime
