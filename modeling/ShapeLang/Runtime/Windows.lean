import ShapeLang.Runtime.WindowManager

/-!
# What the windows of a stream contain

The results of a sequence are compared with the windows as sets of times: the intervals that contain
a point, the maximal runs without a long gap, the chunks. A result counts by its start and its
number of points; results of windows without a point are left out.

The manager is followed on starts and counts only: `tumblingKeys`, `slidingKeys`, `sessionKeys` and
`countKeys` are what the four kinds of windows do to these.
-/

namespace ShapeLang.Runtime

/-- Start and number of points. -/
abbrev WindowKey := Int × Nat

section

variable {F A : Type}

def WindowState.key (w : WindowState F) : WindowKey := (w.start, w.data.length)

def WindowResult.key (r : WindowResult A) : WindowKey := (r.start, r.count)

theorem WindowState.key_add (w : WindowState F) (point : WindowDataPoint F) :
    (w.add point).key = (w.start, w.data.length + 1) := by
  simp [key, add]

/-! ## The kinds of windows on keys -/

def tumblingKeys (size : Int) : Option WindowKey → List Int → List WindowKey
  | current, [] => current.toList
  | none, t :: ts => tumblingKeys size (some (alignToWindow t size, 1)) ts
  | some w, t :: ts =>
    if w.1 + size ≤ t then w :: tumblingKeys size (some (alignToWindow t size, 1)) ts
    else tumblingKeys size (some (w.1, w.2 + 1)) ts

/-- The current session with the time of its last point. -/
def sessionKeys (gap : Int) : Option (WindowKey × Int) → List Int → List WindowKey
  | current, [] => (current.map Prod.fst).toList
  | none, t :: ts => sessionKeys gap (some ((t, 1), t)) ts
  | some (w, last), t :: ts =>
    if gap < t - last then w :: sessionKeys gap (some ((t, 1), t)) ts
    else sessionKeys gap (some ((w.1, w.2 + 1), t)) ts

def countKeys (size : Nat) : Option WindowKey → Nat → List Int → List WindowKey
  | current, _, [] => current.toList
  | current, count, t :: ts =>
    let w : WindowKey := current.elim (t, 1) fun w => (w.1, w.2 + 1)
    if size ≤ count + 1 then w :: countKeys size none 0 ts else countKeys size (some w) (count + 1) ts

/-- The windows after a point at `t` has been added. -/
def slideKeys (size slide : Int) (active : List WindowKey) (t : Int) : List WindowKey :=
  let windows := if (active.getLast?.map fun w => decide (w.1 + slide ≤ t)).getD true then
    active ++ [(alignToWindow t slide, 0)] else active
  windows.map fun w => if w.1 ≤ t ∧ t < w.1 + size then (w.1, w.2 + 1) else w

def slidingKeys (size slide : Int) : List WindowKey → List Int → List WindowKey
  | active, [] => active
  | active, t :: ts =>
    let windows := slideKeys size slide active t
    windows.filter (fun w => w.1 + size ≤ t) ++
      slidingKeys size slide (windows.filter fun w => !decide (w.1 + size ≤ t)) ts

namespace WindowManager

/-- The keys of the results that a sequence and a flush give. -/
def finishKeys (m : WindowManager F A) (points : List (WindowDataPoint F)) : List WindowKey :=
  (m.finish points).1.map WindowResult.key

variable {m : WindowManager F A}

theorem closeCurrent_of_some {w : WindowState F} (h : m.currentWindow = some w) :
    m.closeCurrent =
      { m with
        currentWindow := none, completedWindows :=
          m.completedWindows ++ [m.computeWindowResult w] } := by
  rw [closeCurrent, h]

theorem closeCurrent_of_none (h : m.currentWindow = none) : m.closeCurrent = m := by
  rw [closeCurrent, h]

theorem addToCurrent_of_some {w : WindowState F} (h : m.currentWindow = some w)
    (point : WindowDataPoint F) (start : Int) :
    m.addToCurrent point start = { m with currentWindow := some (w.add point) } := by
  rw [addToCurrent, h]

theorem addToCurrent_of_none (h : m.currentWindow = none) (point : WindowDataPoint F) (start : Int) :
    m.addToCurrent point start = { m with currentWindow := some (.opened start point) } := by
  rw [addToCurrent, h]

theorem finishKeys_nil (m : WindowManager F A) :
    m.finishKeys [] = m.completedWindows.map WindowResult.key ++
      ((m.currentWindow.map WindowState.key).toList ++
      m.activeWindows.map WindowState.key) := by
  have hactive : ∀ windows : List (WindowState F),
      (windows.map m.computeWindowResult).map WindowResult.key = windows.map WindowState.key :=
        fun windows => by
    rw [List.map_map]
    rfl
  show List.map WindowResult.key (m.closeCurrent.completedWindows ++
    m.closeCurrent.activeWindows.map m.closeCurrent.computeWindowResult) = _
  cases hcurrent : m.currentWindow with
  | none => rw [closeCurrent_of_none hcurrent, List.map_append, hactive]; rfl
  | some w =>
    rw [closeCurrent_of_some hcurrent, List.map_append, List.map_append, List.append_assoc]
    exact congrArg _ (congrArg _ (hactive _))

variable (points : List (WindowDataPoint F))

theorem finishKeys_cons (m : WindowManager F A) (point : WindowDataPoint F)
    (points : List (WindowDataPoint F)) :
    m.finishKeys (point :: points) = (m.process point).finishKeys points := rfl

theorem finishKeys_tumbling {size : Int} (htype : m.windowType = .tumbling size)
    (hactive : m.activeWindows = []) :
    m.finishKeys points = m.completedWindows.map WindowResult.key ++
      tumblingKeys size (m.currentWindow.map WindowState.key) (points.map WindowDataPoint.timestamp) := by
  induction points generalizing m with
  | nil => simp [finishKeys_nil, hactive, tumblingKeys]
  | cons point points ih =>
    have hprocess : m.process point = m.processTumbling point size := by rw [process, htype]
    rw [finishKeys_cons, hprocess, processTumbling]
    cases hcurrent : m.currentWindow with
    | none =>
      rw [if_neg (by simp), addToCurrent_of_none hcurrent]
      refine (ih ?_ ?_).trans rfl
      · exact htype
      · exact hactive
    | some w =>
      by_cases hclose : w.start + size ≤ point.timestamp
      · rw [if_pos (by simpa using hclose), closeCurrent_of_some hcurrent, addToCurrent_of_none rfl]
        refine (ih ?_ ?_).trans ?_
        · exact htype
        · exact hactive
        simp only [List.map_append, List.append_assoc, List.map_cons, Option.map_some, tumblingKeys]
        rw [if_pos (show w.key.1 + size ≤ point.timestamp from hclose)]
        rfl
      · rw [if_neg (by simpa using hclose), addToCurrent_of_some hcurrent]
        refine (ih ?_ ?_).trans ?_
        · exact htype
        · exact hactive
        simp only [List.map_cons, Option.map_some, tumblingKeys, WindowState.key_add]
        rw [if_neg (show ¬w.key.1 + size ≤ point.timestamp from hclose)]
        rfl

/-- A session with the time of its last point; every session has one. -/
def sessionState (m : WindowManager F A) : Option (WindowKey × Int) :=
  m.currentWindow.bind fun w => w.lastTimestamp.map fun last => (w.key, last)

theorem finishKeys_session {gap : Int} (htype : m.windowType = .session gap)
    (hactive : m.activeWindows = [])
    (hlast : ∀ w, m.currentWindow = some w → w.lastTimestamp.isSome) :
    m.finishKeys points = m.completedWindows.map WindowResult.key ++
      sessionKeys gap m.sessionState (points.map WindowDataPoint.timestamp) := by
  induction points generalizing m with
  | nil =>
    rw [finishKeys_nil, hactive]
    cases hcurrent : m.currentWindow with
    | none => simp [sessionState, sessionKeys, hcurrent]
    | some w =>
      obtain ⟨last, hw⟩ := Option.isSome_iff_exists.mp (hlast w hcurrent)
      simp [sessionState, sessionKeys, hcurrent, hw]
  | cons point points ih =>
    have hprocess : m.process point = m.processSession point gap := by rw [process, htype]
    rw [finishKeys_cons, hprocess, processSession]
    cases hcurrent : m.currentWindow with
    -- no window is open: the point opens one
    | none =>
      have hstate : m.sessionState = none := by rw [sessionState, hcurrent]; rfl
      rw [if_neg (by simp), addToCurrent_of_none hcurrent, hstate]
      refine (ih ?_ ?_ ?_).trans rfl
      · exact htype
      · exact hactive
      · rintro w ⟨⟩
        rfl
    | some w =>
      obtain ⟨last, hw⟩ := Option.isSome_iff_exists.mp (hlast w hcurrent)
      have hstate : m.sessionState = some (w.key, last) := by
        rw [sessionState, hcurrent, Option.bind_some, hw]; rfl
      rw [hstate, List.map_cons, sessionKeys]
      -- the gap is exceeded: the window closes before the point is added
      by_cases hclose : gap < point.timestamp - last
      · rw [if_pos (by simpa [hw] using hclose), if_pos hclose, closeCurrent_of_some hcurrent,
          addToCurrent_of_none rfl]
        refine (ih ?_ ?_ ?_).trans ?_
        · exact htype
        · exact hactive
        · rintro w ⟨⟩
          rfl
        simp only [List.map_append, List.append_assoc]
        rfl
      · rw [if_neg (by simpa [hw] using hclose), if_neg hclose, addToCurrent_of_some hcurrent]
        refine (ih ?_ ?_ ?_).trans ?_
        · exact htype
        · exact hactive
        · rintro w ⟨⟩
          rfl
        have hnext : sessionState { m with currentWindow := some (w.add point) }
            = some ((w.start, w.data.length + 1), point.timestamp) := by
          rw [← WindowState.key_add]
          rfl
        rw [hnext]
        rfl

theorem finishKeys_count {size : Nat} (htype : m.windowType = .count size)
    (hactive : m.activeWindows = []) :
    m.finishKeys points = m.completedWindows.map WindowResult.key ++
      countKeys size (m.currentWindow.map WindowState.key) m.currentCount
        (points.map WindowDataPoint.timestamp) := by
  induction points generalizing m with
  | nil => simp [finishKeys_nil, hactive, countKeys]
  | cons point points ih =>
    have hprocess : m.process point = m.processCount point size := by rw [process, htype]
    obtain ⟨w, hadd, hkey⟩ : ∃ w, m.addToCurrent point point.timestamp =
        { m with currentWindow := some w } ∧
        w.key = (m.currentWindow.map WindowState.key).elim (point.timestamp, 1) fun w =>
          (w.1, w.2 + 1) := by
      cases hcurrent : m.currentWindow with
      | none => exact ⟨_, addToCurrent_of_none hcurrent point _, rfl⟩
      | some w => exact ⟨_, addToCurrent_of_some hcurrent point _, w.key_add point⟩
    rw [finishKeys_cons, hprocess, processCount, hadd, List.map_cons, countKeys, ← hkey]
    by_cases hfull : size ≤ m.currentCount + 1
    · rw [if_pos hfull, if_pos hfull]
      refine (ih ?_ ?_).trans ?_
      · exact htype
      · exact hactive
      show List.map WindowResult.key (m.completedWindows ++ [_]) ++ _ = _
      rw [List.map_append, List.append_assoc]
      rfl
    · rw [if_neg hfull, if_neg hfull]
      refine (ih ?_ ?_).trans rfl
      · exact htype
      · exact hactive

/-- The windows that a point is added to, on keys. -/
theorem map_key_slide (windows : List (WindowState F)) (point : WindowDataPoint F) (size slide : Int) :
    ((if (windows.getLast?.map fun w => decide (w.start + slide ≤ point.timestamp)).getD true then
        windows ++ [{ start := alignToWindow point.timestamp slide, data := [], lastTimestamp := none }]
      else windows).map fun w : WindowState F =>
        if w.start ≤ point.timestamp ∧ point.timestamp < w.start + size then w.add point
          else w).map WindowState.key =
      slideKeys size slide (windows.map WindowState.key) point.timestamp := by
  have hadd : ∀ w : WindowState F,
      (if w.start ≤ point.timestamp ∧ point.timestamp < w.start + size then w.add point else w).key =
        if w.key.1 ≤ point.timestamp ∧ point.timestamp < w.key.1 + size then (w.key.1, w.key.2 + 1)
          else w.key := by
    intro w
    by_cases h : w.start ≤ point.timestamp ∧ point.timestamp < w.start + size
    · rw [if_pos h, if_pos (show w.key.1 ≤ point.timestamp ∧ point.timestamp < w.key.1 + size from h),
        WindowState.key_add]
      rfl
    · rw [if_neg h, if_neg (show ¬(w.key.1 ≤ point.timestamp ∧ point.timestamp < w.key.1 + size) from h)]
  have hlast : ((windows.map WindowState.key).getLast?.map fun w => decide
    (w.1 + slide ≤ point.timestamp)) =
      windows.getLast?.map fun w => decide (w.start + slide ≤ point.timestamp) := by
    rw [List.getLast?_map, Option.map_map]
    rfl
  have hopen : windows.map WindowState.key ++ [(alignToWindow point.timestamp slide, 0)] =
      (windows ++ [({ start := alignToWindow point.timestamp slide, data := [], lastTimestamp := none } :
        WindowState F)]).map WindowState.key := by
    simp [WindowState.key]
  simp only [slideKeys]
  rw [hlast, List.map_map]
  split
  · rw [hopen, List.map_map]
    exact List.map_congr_left fun w _ => hadd w
  · rw [List.map_map]
    exact List.map_congr_left fun w _ => hadd w

theorem finishKeys_sliding {size slide : Int} (htype : m.windowType = .sliding size slide)
    (hcurrent : m.currentWindow = none) :
    m.finishKeys points = m.completedWindows.map WindowResult.key ++
      slidingKeys size slide (m.activeWindows.map WindowState.key)
        (points.map WindowDataPoint.timestamp) := by
  induction points generalizing m with
  | nil => simp [finishKeys_nil, hcurrent, slidingKeys]
  | cons point points ih =>
    have hprocess : m.process point = m.processSliding point size slide := by rw [process, htype]
    rw [finishKeys_cons, hprocess, processSliding, List.map_cons, slidingKeys]
    refine (ih ?_ ?_).trans ?_
    · exact htype
    · exact hcurrent
    have hparts : ∀ windows : List (WindowState F), ∀ ts : List Int,
        (m.completedWindows ++ (windows.filter fun w => decide (w.start + size ≤ point.timestamp)).map
            m.computeWindowResult).map WindowResult.key ++
          slidingKeys size slide
            ((windows.filter fun w => !decide (w.start + size ≤ point.timestamp)).map WindowState.key) ts =
        m.completedWindows.map WindowResult.key ++
          ((windows.map WindowState.key).filter (fun w => w.1 + size ≤ point.timestamp) ++
            slidingKeys size slide
              ((windows.map WindowState.key).filter fun w => !decide (w.1 + size ≤ point.timestamp))
                ts) := by
      intro windows ts
      rw [List.map_append, List.append_assoc, List.filter_map, List.filter_map, List.map_map]
      rfl
    simp only [← map_key_slide]
    exact hparts _ _

end WindowManager

end

end ShapeLang.Runtime
