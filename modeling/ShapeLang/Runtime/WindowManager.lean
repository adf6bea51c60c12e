import Mathlib

/-!
# The window manager

A stream of timestamped points is cut into windows: fixed intervals (tumbling), overlapping
intervals (sliding), runs without a long gap (session), or a fixed number of points (count). Windows
are opened, filled and closed by the current point only; `flush` closes what is open at the end of a
stream, and the manager can be used again.

A time is a number of milliseconds since 1970; dates that the source's calendar library cannot
represent are left out. The aggregates of a window are floats, and a parameter here.
-/

namespace ShapeLang.Runtime

inductive WindowType where
  | tumbling (size : Int)
  | sliding (size slide : Int)
  | session (gap : Int)
  | count (size : Nat)
  | cumulative

section

variable {F A : Type}

structure WindowDataPoint (F : Type) where
  timestamp : Int
  fields : F

structure WindowResult (A : Type) where
  start : Int
  stop : Int
  count : Nat
  aggregates : A

structure WindowState (F : Type) where
  start : Int
  data : List (WindowDataPoint F)
  lastTimestamp : Option Int

structure WindowManager (F A : Type) where
  windowType : WindowType
  /-- The aggregates of the points of a window. -/
  aggregate : List F → A
  activeWindows : List (WindowState F)
  currentWindow : Option (WindowState F)
  currentCount : Nat
  cumulativeData : List (WindowDataPoint F)
  completedWindows : List (WindowResult A)

/-- The division of the source truncates, so a time before 1970 goes up to its boundary. -/
def alignToWindow (ts size : Int) : Int := if size = 0 then ts else ts.tdiv size * size

namespace WindowState

def add (window : WindowState F) (point : WindowDataPoint F) : WindowState F :=
  { window with data := window.data ++ [point], lastTimestamp := some point.timestamp }

/-- A window that holds its first point. -/
def opened (start : Int) (point : WindowDataPoint F) : WindowState F :=
  { start, data := [point], lastTimestamp := some point.timestamp }

end WindowState

namespace WindowManager

def new (windowType : WindowType) (aggregate : List F → A) : WindowManager F A where
  windowType := windowType
  aggregate := aggregate
  activeWindows := []
  currentWindow := none
  currentCount := 0
  cumulativeData := []
  completedWindows := []

def computeWindowResult (m : WindowManager F A) (window : WindowState F) : WindowResult A where
  start := window.start
  stop := window.lastTimestamp.getD window.start
  count := window.data.length
  aggregates := m.aggregate (window.data.map WindowDataPoint.fields)

/-- Close the current window, if there is one. -/
def closeCurrent (m : WindowManager F A) : WindowManager F A :=
  match m.currentWindow with
  | some window =>
    { m with
      currentWindow := none, completedWindows :=
        m.completedWindows ++ [m.computeWindowResult window] }
  | none => m

/-- Add a point to the current window, or open one at `start` with it. -/
def addToCurrent (m : WindowManager F A) (point : WindowDataPoint F) (start : Int) : WindowManager F A :=
  match m.currentWindow with
  | some window => { m with currentWindow := some (window.add point) }
  | none => { m with currentWindow := some (.opened start point) }

def processTumbling (m : WindowManager F A) (point : WindowDataPoint F) (size : Int) : WindowManager F A :=
  let windowStart := alignToWindow point.timestamp size
  let shouldClose := (m.currentWindow.map fun w => decide (w.start + size ≤ point.timestamp)).getD false
  let m := if shouldClose then m.closeCurrent else m
  m.addToCurrent point windowStart

def processSliding (m : WindowManager F A) (point : WindowDataPoint F) (size slide : Int) :
    WindowManager F A :=
  let ts := point.timestamp
  let windowStart := alignToWindow ts slide
  let needsNewWindow := (m.activeWindows.getLast?.map fun w => decide (w.start + slide ≤ ts)).getD true
  let windows : List (WindowState F) :=
    if needsNewWindow then m.activeWindows ++ [{ start := windowStart, data := [], lastTimestamp := none }]
    else m.activeWindows
  let windows := windows.map fun w => if w.start ≤ ts ∧ ts < w.start + size then w.add point else w
  let closed := windows.filter fun w => w.start + size ≤ ts
  { m with
    activeWindows := windows.filter fun w => !decide (w.start + size ≤ ts)
    completedWindows := m.completedWindows ++ closed.map m.computeWindowResult }

def processSession (m : WindowManager F A) (point : WindowDataPoint F) (gap : Int) : WindowManager F A :=
  let shouldClose :=
    ((m.currentWindow.bind WindowState.lastTimestamp).map fun last => decide
      (gap < point.timestamp - last)).getD false
  let m := if shouldClose then m.closeCurrent else m
  m.addToCurrent point point.timestamp

def processCount (m : WindowManager F A) (point : WindowDataPoint F) (size : Nat) : WindowManager F A :=
  let m := m.addToCurrent point point.timestamp
  let m := { m with currentCount := m.currentCount + 1 }
  if size ≤ m.currentCount then { m.closeCurrent with currentCount := 0 } else m

def processCumulative (m : WindowManager F A) (point : WindowDataPoint F) : WindowManager F A :=
  let m := { m with cumulativeData := m.cumulativeData ++ [point] }
  let start := (m.cumulativeData.head?.map WindowDataPoint.timestamp).getD point.timestamp
  let window := { start, data := m.cumulativeData, lastTimestamp := some point.timestamp }
  { m with completedWindows := m.completedWindows ++ [m.computeWindowResult window] }

def process (m : WindowManager F A) (point : WindowDataPoint F) : WindowManager F A :=
  match m.windowType with
  | .tumbling size => m.processTumbling point size
  | .sliding size slide => m.processSliding point size slide
  | .session gap => m.processSession point gap
  | .count size => m.processCount point size
  | .cumulative => m.processCumulative point

def takeCompleted (m : WindowManager F A) : List (WindowResult A) × WindowManager F A :=
  (m.completedWindows, { m with completedWindows := [] })

/-- The count of a count window is not set back. -/
def flush (m : WindowManager F A) : List (WindowResult A) × WindowManager F A :=
  let m := m.closeCurrent
  let m := { m with completedWindows := m.completedWindows ++ m.activeWindows.map m.computeWindowResult }
  let m := { m with currentWindow := none, activeWindows := [] }
  m.takeCompleted

/-- Process a sequence, then flush. -/
def finish (m : WindowManager F A) (points : List (WindowDataPoint F)) :
    List (WindowResult A) × WindowManager F A :=
  (points.foldl process m).flush

/-- The manager after some sequences, with a flush after each. -/
def after (m : WindowManager F A) (earlier : List (List (WindowDataPoint F))) : WindowManager F A :=
  earlier.foldl (fun m points => (m.finish points).2) m

end WindowManager

end

end ShapeLang.Runtime
