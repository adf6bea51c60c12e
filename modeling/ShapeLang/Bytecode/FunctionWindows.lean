import ShapeLang.Lib.Fallible

/-!
# The instructions that a function owns

Function bodies share one stream of instructions
(`crates/shape-vm/src/bytecode/function_instructions.rs`). A nested function is emitted inside the
span of the function around it, so a function owns its entry window without the windows of the
functions in it. `directFunctionWindows` computes what is left: it collects the windows inside the
target, sorts them, keeps the outermost ones and subtracts these from the target.

A call answers only when the target window crosses no other. When every function has an answer, all
windows are nested or apart, and the answers divide the code among the functions.
-/

namespace ShapeLang.Bytecode.FunctionWindows

/-- A range of instruction offsets. -/
structure Window where
  start : Nat
  stop : Nat
  deriving DecidableEq, Repr

namespace Window

instance : Membership Nat Window := ⟨fun w offset => w.start ≤ offset ∧ offset < w.stop⟩

theorem mem_def {w : Window} {offset : Nat} : offset ∈ w ↔ w.start ≤ offset ∧ offset < w.stop := Iff.rfl

def isEmpty (w : Window) : Bool := !(w.start < w.stop)

/-- All of `inner` is in `outer`. -/
def Contains (outer inner : Window) : Prop := outer.start ≤ inner.start ∧ inner.stop ≤ outer.stop

end Window

structure Function where
  entryPoint : Nat
  bodyLength : Nat

structure BytecodeProgram where
  functions : List Function
  instructionCount : Nat

inductive FunctionWindowError where
  | missingFunction (functionIndex functionCount : Nat)
  | endOverflow (functionIndex entryPoint bodyLength : Nat)
  | outOfBounds (functionIndex : Nat) (window : Window) (instructionCount : Nat)
  | ambiguousOverlap (targetFunction : Nat) (targetWindow : Window) (otherFunction : Nat)
      (otherWindow : Window)
  | crossingDescendants (targetFunction firstFunction : Nat) (firstWindow : Window) (secondFunction : Nat)
      (secondWindow : Window)
  deriving DecidableEq, Repr

structure IndexedWindow where
  functionIndex : Nat
  range : Window

/-- The window of a function, without the checks. -/
def Function.entryWindow (f : Function) : Window := ⟨f.entryPoint, f.entryPoint + f.bodyLength⟩

/-- The sum as a machine word, when it fits. -/
def checkedAdd (a b : Nat) : Option Nat := if a + b < 2 ^ 64 then some (a + b) else none

def checkedWindow (functionIndex : Nat) (function : Function) (instructionCount : Nat) :
    Except FunctionWindowError Window :=
  match checkedAdd function.entryPoint function.bodyLength with
  | none => .error (.endOverflow functionIndex function.entryPoint function.bodyLength)
  | some stop =>
    let window : Window := ⟨function.entryPoint, stop⟩
    if window.start > instructionCount ∨ window.stop > instructionCount then
      .error (.outOfBounds functionIndex window instructionCount)
    else .ok window

def windowsAreDisjoint (left right : Window) : Bool := left.stop ≤ right.start || right.stop ≤ left.start

/-- The order of the sort: by start, the wider window first, then by index. -/
instance : LE IndexedWindow where
  le a b := a.range.start < b.range.start ∨ a.range.start = b.range.start ∧
    (b.range.stop < a.range.stop ∨ a.range.stop = b.range.stop ∧ a.functionIndex ≤ b.functionIndex)

instance (a b : IndexedWindow) : Decidable (a ≤ b) := inferInstanceAs (Decidable (_ ∨ _))

/-- The scan over the sorted windows. `enclosing` is the stack of windows that are not closed yet,
the top first. -/
def scanDescendants (targetFunction : Nat) :
    List IndexedWindow → List IndexedWindow → List Window → Except FunctionWindowError (List Window)
  | [], _, maximal => .ok maximal
  | descendant :: rest, enclosing, maximal =>
    match enclosing.dropWhile (fun parent => parent.range.stop ≤ descendant.range.start) with
    | [] => scanDescendants targetFunction rest [descendant] (maximal ++ [descendant.range])
    | parent :: outer =>
      if descendant.range.start = parent.range.start ∨ descendant.range.stop > parent.range.stop then
        .error (.crossingDescendants targetFunction parent.functionIndex parent.range
          descendant.functionIndex
          descendant.range)
      else scanDescendants targetFunction rest (descendant :: parent :: outer) maximal

def maximalLaminarDescendants (targetFunction : Nat) (descendants : List IndexedWindow) :
    Except FunctionWindowError (List Window) :=
  scanDescendants targetFunction descendants [] []

/-- What is left of `[cursor, stop)`. -/
def subtractFrom (stop : Nat) : Nat → List Window → List Window
  | cursor, [] => if cursor < stop then [⟨cursor, stop⟩] else []
  | cursor, range :: rest =>
    (if cursor < range.start then [⟨cursor, range.start⟩] else []) ++ subtractFrom stop range.stop rest

def subtractRanges (target : Window) (excluded : List Window) : List Window :=
  subtractFrom target.stop target.start excluded

namespace BytecodeProgram

def programWindow (program : BytecodeProgram) (functionIndex : Nat) : Except FunctionWindowError Window :=
  match program.functions[functionIndex]? with
  | none => .error (.missingFunction functionIndex program.functions.length)
  | some function => checkedWindow functionIndex function program.instructionCount

/-- The loop over the rows of the table: the windows inside the target. -/
def collectDescendants (instructionCount functionIndex : Nat) (target : Window) :
    List (Function × Nat) → Except FunctionWindowError (List IndexedWindow)
  | [] => .ok []
  | (function, otherIndex) :: rest =>
    if otherIndex = functionIndex then collectDescendants instructionCount functionIndex target rest
    else do
      let other ← checkedWindow otherIndex function instructionCount
      if other.isEmpty then collectDescendants instructionCount functionIndex target rest
      else if windowsAreDisjoint target other then
        collectDescendants instructionCount functionIndex target rest
      else if target.start < other.start ∧ other.stop ≤ target.stop then do
        let descendants ← collectDescendants instructionCount functionIndex target rest
        .ok (⟨otherIndex, other⟩ :: descendants)
      else if other.start < target.start ∧ target.stop ≤ other.stop then
        collectDescendants instructionCount functionIndex target rest
      else .error (.ambiguousOverlap functionIndex target otherIndex other)

def directFunctionWindows (program : BytecodeProgram) (functionIndex : Nat) :
    Except FunctionWindowError (List Window) := do
  let target ← program.programWindow functionIndex
  let descendants ←
    collectDescendants program.instructionCount functionIndex target program.functions.zipIdx
  let excluded ← maximalLaminarDescendants functionIndex (descendants.insertionSort (· ≤ ·))
  .ok (subtractRanges target excluded)

end BytecodeProgram

/-! ## Subtraction -/

/-- In order, and apart from one another. -/
def Ascending (windows : List Window) : Prop :=
  windows.Pairwise fun first second => first.stop ≤ second.start

variable {cursor : Nat} {excluded : List Window}

theorem mem_subtractFrom {stop offset : Nat} (hasc : Ascending excluded)
    (hfrom : ∀ r ∈ excluded, cursor ≤ r.start)
    (hwf : ∀ r ∈ excluded, r.start < r.stop ∧ r.stop ≤ stop) :
    (∃ w ∈ subtractFrom stop cursor excluded, offset ∈ w) ↔
      cursor ≤ offset ∧ offset < stop ∧ ∀ r ∈ excluded, offset ∉ r := by
  induction excluded generalizing cursor with
  | nil =>
    rw [subtractFrom]
    split
    · simp [Window.mem_def]
    · simp only [List.not_mem_nil, false_and, exists_false, false_iff]
      omega
  | cons range rest ih =>
    obtain ⟨hfirst, hrest⟩ := List.pairwise_cons.mp hasc
    have hrange := hwf range List.mem_cons_self
    have hcursor := hfrom range List.mem_cons_self
    -- the ranges that follow are taken from what lies behind this one
    have hlater := ih hrest (fun r hr => hfirst r hr) (fun r hr => hwf r (List.mem_cons_of_mem _ hr))
    -- the piece in front of the range, which is dropped when it is empty
    have hgap : (∃ w ∈ (if cursor < range.start then [(⟨cursor, range.start⟩ : Window)] else []),
      offset ∈ w) ↔
        cursor ≤ offset ∧ offset < range.start := by
      split
      · simp [Window.mem_def]
      · simp only [List.not_mem_nil, false_and, exists_false, false_iff]
        omega
    simp only [subtractFrom, List.mem_append, or_and_right, exists_or, hgap, hlater, List.forall_mem_cons]
    constructor
    · rintro (⟨hge, hlt⟩ | ⟨hge, hlt, hnot⟩)
      · refine ⟨hge, by omega, fun h => by have := h.1; omega, fun r hr h => ?_⟩
        have := hfirst r hr
        have := h.1
        omega
      · exact ⟨by omega, hlt, fun h => by have := h.2; omega, hnot⟩
    · rintro ⟨hge, hlt, hnot, hnots⟩
      -- an offset that is kept lies in front of the range or behind it
      by_cases hbefore : offset < range.start
      · exact .inl ⟨hge, hbefore⟩
      · refine .inr ⟨?_, hlt, hnots⟩
        by_contra hinside
        exact hnot ⟨by omega, by omega⟩

theorem start_of_mem_subtractFrom {stop : Nat} (hasc : Ascending excluded)
    (hfrom : ∀ r ∈ excluded, cursor ≤ r.start)
    (hwf : ∀ r ∈ excluded, r.start < r.stop ∧ r.stop ≤ stop) :
    (∀ w ∈ subtractFrom stop cursor excluded, cursor ≤ w.start ∧ w.start < w.stop) ∧
      Ascending (subtractFrom stop cursor excluded) := by
  induction excluded generalizing cursor with
  | nil =>
    rw [subtractFrom]
    split
    · rename_i hlt
      simp [Ascending, hlt]
    · simp [Ascending]
  | cons range rest ih =>
    obtain ⟨hfirst, hrest⟩ := List.pairwise_cons.mp hasc
    have hrange := hwf range List.mem_cons_self
    have hcursor := hfrom range List.mem_cons_self
    obtain ⟨hstarts, hasc'⟩ :=
      ih hrest (fun r hr => hfirst r hr) (fun r hr => hwf r (List.mem_cons_of_mem _ hr))
    rw [subtractFrom]
    -- an empty piece in front of the range is not emitted
    split
    · rename_i hlt
      refine ⟨?_, List.pairwise_cons.mpr ⟨fun w hw => ?_, hasc'⟩⟩
      · intro w hw
        rcases List.mem_cons.mp hw with rfl | hw
        · exact ⟨Nat.le_refl _, hlt⟩
        · have := hstarts w hw
          omega
      · have := hstarts w hw
        show range.start ≤ w.start
        omega
    · refine ⟨fun w hw => ?_, hasc'⟩
      have := hstarts w hw
      omega

/-! ## The outermost windows -/

/-- The scan so far. The bottom of the stack is the window that was kept last, and it contains the
whole stack. -/
structure Scanned (done enclosing : List IndexedWindow) (maximal : List Window) : Prop where
  ascending : Ascending maximal
  source : ∀ m ∈ maximal, ∃ d ∈ done, d.range = m
  covered : ∀ d ∈ done, ∃ m ∈ maximal, m.Contains d.range
  bottom : maximal.getLast? = enclosing.getLast?.map (·.range)
  stacked : ∀ d ∈ enclosing, d ∈ done ∧ ∀ m ∈ maximal.getLast?, m.Contains d.range

theorem scanned_nil : Scanned [] [] [] := ⟨.nil, by simp, by simp, rfl, by simp⟩

variable {done enclosing : List IndexedWindow} {maximal : List Window}

/-- The whole stack is closed: the new window is apart from everything that was kept. -/
theorem Scanned.outermost {d : IndexedWindow} (h : Scanned done enclosing maximal)
    (hwf : ∀ e ∈ done, e.range.start < e.range.stop)
    (hclosed : ∀ e ∈ enclosing, e.range.stop ≤ d.range.start) :
    Scanned (done ++ [d]) [d] (maximal ++ [d.range]) := by
  -- the window kept last encloses the whole stack, so it is closed too
  have hlast : ∀ m ∈ maximal.getLast?, m.stop ≤ d.range.start := by
    intro m hm
    rw [h.bottom] at hm
    obtain ⟨e, he, rfl⟩ := Option.map_eq_some_iff.mp hm
    exact hclosed e (List.mem_of_getLast? he)
  -- the others end before the last one starts
  have hall : ∀ m ∈ maximal, m.stop ≤ d.range.start := by
    intro m hm
    obtain ⟨init, last, rfl⟩ := (List.eq_nil_or_concat' maximal).resolve_left (List.ne_nil_of_mem hm)
    have hlast' := hlast last (by simp)
    rcases List.mem_append.mp hm with hm | hm
    · have hbefore : m.stop ≤ last.start := (List.pairwise_append.mp h.ascending).2.2 m hm last (by simp)
      obtain ⟨e, he, heq⟩ := h.source last (by simp)
      have := hwf e he
      rw [heq] at this
      omega
    · rwa [List.mem_singleton.mp hm]
  refine ⟨?_, ?_, ?_, by simp, ?_⟩
  · exact List.pairwise_append.mpr ⟨h.ascending, List.pairwise_singleton _ _, by simpa using hall⟩
  · intro m hm
    rcases List.mem_append.mp hm with hm | hm
    · obtain ⟨e, he, heq⟩ := h.source m hm
      exact ⟨e, List.mem_append_left _ he, heq⟩
    · exact ⟨d, by simp, (List.mem_singleton.mp hm).symm⟩
  · intro e he
    rcases List.mem_append.mp he with he | he
    · obtain ⟨m, hm, hcontains⟩ := h.covered e he
      exact ⟨m, List.mem_append_left _ hm, hcontains⟩
    · rw [List.mem_singleton.mp he]
      exact ⟨d.range, by simp, Nat.le_refl _, Nat.le_refl _⟩
  · intro e he
    rw [List.mem_singleton.mp he]
    refine ⟨by simp, fun m hm => ?_⟩
    obtain rfl : d.range = m := by simpa using hm
    exact ⟨Nat.le_refl _, Nat.le_refl _⟩

/-- The new window is inside the one on top of what is left of the stack. -/
theorem Scanned.nested {outer : List IndexedWindow} {d parent : IndexedWindow}
    (h : Scanned done enclosing maximal) (hsuffix : parent :: outer <:+ enclosing)
    (hinside : parent.range.Contains d.range) :
    Scanned (done ++ [d]) (d :: parent :: outer) maximal := by
  have hparent := h.stacked parent (hsuffix.subset List.mem_cons_self)
  -- closing windows from the top leaves the bottom of the stack
  have hbottom : (parent :: outer).getLast? = enclosing.getLast? := by
    obtain ⟨closed, rfl⟩ := hsuffix
    rw [List.getLast?_append_of_ne_nil _ (List.cons_ne_nil _ _)]
  have hd : ∀ m ∈ maximal.getLast?, m.Contains d.range := by
    intro m hm
    have := hparent.2 m hm
    exact ⟨Nat.le_trans this.1 hinside.1, Nat.le_trans hinside.2 this.2⟩
  refine ⟨h.ascending, ?_, ?_, ?_, ?_⟩
  · intro m hm
    obtain ⟨e, he, heq⟩ := h.source m hm
    exact ⟨e, List.mem_append_left _ he, heq⟩
  · intro e he
    rcases List.mem_append.mp he with he | he
    · exact h.covered e he
    · rw [List.mem_singleton.mp he]
      obtain ⟨m, hm⟩ : ∃ m, maximal.getLast? = some m := by
        rw [h.bottom, ← hbottom]
        simp [List.getLast?_cons]
      exact ⟨m, List.mem_of_getLast? hm, hd m hm⟩
  · rw [h.bottom, ← hbottom, List.getLast?_cons_cons]
  · intro e he
    rcases List.mem_cons.mp he with rfl | he
    · exact ⟨by simp, hd⟩
    · obtain ⟨hdone, hcontains⟩ := h.stacked e (hsuffix.subset he)
      exact ⟨List.mem_append_left _ hdone, hcontains⟩

variable {target : Nat}

theorem scanned_scanDescendants {rest : List IndexedWindow} {result : List Window}
    (h : scanDescendants target rest enclosing maximal = .ok result)
    (hscanned : Scanned done enclosing maximal)
    (hwf : ∀ d ∈ done ++ rest, d.range.start < d.range.stop)
    (hsorted : (done ++ rest).Pairwise fun a b => a.range.start ≤ b.range.start) :
    ∃ stack, Scanned (done ++ rest) stack result := by
  induction rest generalizing done enclosing maximal with
  | nil =>
    obtain rfl : maximal = result := by simpa [scanDescendants] using h
    exact ⟨enclosing, by simpa using hscanned⟩
  | cons d rest ih =>
    -- the window moves from what is still to be scanned to what was scanned
    have hmove : done ++ d :: rest = (done ++ [d]) ++ rest := by simp
    rw [hmove] at hwf hsorted ⊢
    have hwf' : ∀ e ∈ done, e.range.start < e.range.stop := fun e he => hwf e (by simp [he])
    rw [scanDescendants] at h
    split at h
    -- nothing is left on the stack: the window is kept
    · rename_i hempty
      have hclosed : ∀ e ∈ enclosing, e.range.stop ≤ d.range.start := by
        simpa [List.dropWhile_eq_nil_iff] using hempty
      exact ih h (hscanned.outermost hwf' hclosed) hwf hsorted
    · rename_i parent outer hstack
      split at h
      · cases h
      -- partly outside of its parent would be an error, so it lies inside
      · rename_i hok
        have hsuffix : parent :: outer <:+ enclosing := hstack ▸ List.dropWhile_suffix _
        have hparent := (hscanned.stacked parent (hsuffix.subset List.mem_cons_self)).1
        have hstart : parent.range.start ≤ d.range.start :=
          (List.pairwise_append.mp (List.pairwise_append.mp hsorted).1).2.2 parent hparent d (by simp)
        exact ih h (hscanned.nested hsuffix ⟨hstart, by omega⟩) hwf hsorted

theorem IndexedWindow.le_def (a b : IndexedWindow) : a ≤ b ↔ a.range.start < b.range.start ∨
    a.range.start = b.range.start ∧
      (b.range.stop < a.range.stop ∨ a.range.stop = b.range.stop ∧ a.functionIndex ≤
        b.functionIndex) := Iff.rfl

instance : IsTrans IndexedWindow (· ≤ ·) where
  trans a b c hab hbc := by
    rw [IndexedWindow.le_def] at *
    omega

instance : Std.Total fun a b : IndexedWindow => a ≤ b where
  total a b := by
    rw [IndexedWindow.le_def, IndexedWindow.le_def]
    omega

variable {descendants : List IndexedWindow}

/-- What the sort and the scan make of the windows inside the target. -/
theorem maximalLaminarDescendants_spec
    (h : maximalLaminarDescendants target (descendants.insertionSort (· ≤ ·)) = .ok maximal)
    (hwf : ∀ d ∈ descendants, d.range.start < d.range.stop) :
    Ascending maximal ∧ (∀ m ∈ maximal, ∃ d ∈ descendants, d.range = m) ∧
      ∀ d ∈ descendants, ∃ m ∈ maximal, m.Contains d.range := by
  have hsorted : (descendants.insertionSort (· ≤ ·)).Pairwise fun a b => a.range.start ≤ b.range.start := by
    refine (List.pairwise_insertionSort (· ≤ ·) descendants).imp fun {a b} hle => ?_
    rw [IndexedWindow.le_def] at hle
    omega
  obtain ⟨stack, hscanned⟩ :=
    scanned_scanDescendants h scanned_nil (by simpa using hwf) (by simpa using hsorted)
  refine ⟨hscanned.ascending, fun m hm => ?_, fun d hd => hscanned.covered d (by simpa using hd)⟩
  obtain ⟨d, hd, heq⟩ := hscanned.source m hm
  exact ⟨d, by simpa using hd, heq⟩

/-! ## One function -/

theorem checkedWindow_eq_ok {i count : Nat} {f : Function} {w : Window}
    (h : checkedWindow i f count = .ok w) :
    w = f.entryWindow := by
  rw [checkedWindow, checkedAdd] at h
  split at h
  · cases h
  · rename_i stop hstop
    split at hstop
    · obtain rfl := Option.some.inj hstop
      dsimp only at h
      split at h
      · cases h
      · exact (Except.ok.inj h).symm
    · cases hstop

/-- The window of another function as the loop sees it: apart from the target, inside it, or around it. -/
def Laminar (target other : Window) : Prop :=
  other.stop ≤ other.start ∨ (target.stop ≤ other.start ∨ other.stop ≤ target.start) ∨
    (target.start < other.start ∧ other.stop ≤ target.stop) ∨ other.start < target.start ∧
      target.stop ≤ other.stop

/-- A window with instructions that starts and ends inside the target, after its first instruction. -/
def Inside (target other : Window) : Prop :=
  other.start < other.stop ∧ target.start < other.start ∧ other.stop ≤ target.stop

/-- What the loop knows after some rows. -/
structure Collected (i : Nat) (target : Window) (rows : List (Function × Nat))
    (descendants : List IndexedWindow) :
    Prop where
  laminar : ∀ row ∈ rows, row.2 ≠ i → Laminar target row.1.entryWindow
  found : ∀ row ∈ rows, row.2 ≠ i → Inside target row.1.entryWindow → ∃ d ∈ descendants,
    d.range = row.1.entryWindow
  source : ∀ d ∈ descendants, Inside target d.range ∧ ∃ row ∈ rows, row.2 ≠ i ∧ row.1.entryWindow = d.range

variable {rows : List (Function × Nat)}

theorem Collected.skip {i : Nat} {target : Window} (h : Collected i target rows descendants)
    (row : Function × Nat)
    (hrow : row.2 ≠ i → Laminar target row.1.entryWindow ∧ ¬Inside target row.1.entryWindow) :
    Collected i target (row :: rows) descendants where
  laminar := List.forall_mem_cons.mpr ⟨fun hne => (hrow hne).1, h.laminar⟩
  found := List.forall_mem_cons.mpr ⟨fun hne hinside => absurd hinside (hrow hne).2, h.found⟩
  source d hd := by
    obtain ⟨hinside, other, hother, hsource⟩ := h.source d hd
    exact ⟨hinside, other, List.mem_cons_of_mem _ hother, hsource⟩

theorem Collected.add {i : Nat} {target : Window} (h : Collected i target rows descendants)
    (row : Function × Nat) (hne : row.2 ≠ i) (hinside : Inside target row.1.entryWindow) :
    Collected i target (row :: rows) (⟨row.2, row.1.entryWindow⟩ :: descendants) where
  laminar := List.forall_mem_cons.mpr ⟨fun _ => .inr (.inr (.inl hinside.2)), h.laminar⟩
  found := by
    refine List.forall_mem_cons.mpr ⟨fun _ _ => ⟨_, List.mem_cons_self, rfl⟩, fun other hother hi hin => ?_⟩
    obtain ⟨d, hd, heq⟩ := h.found other hother hi hin
    exact ⟨d, List.mem_cons_of_mem _ hd, heq⟩
  source := by
    refine List.forall_mem_cons.mpr ⟨⟨hinside, row, List.mem_cons_self, hne, rfl⟩, fun d hd => ?_⟩
    obtain ⟨hin, other, hother, hsource⟩ := h.source d hd
    exact ⟨hin, other, List.mem_cons_of_mem _ hother, hsource⟩

namespace BytecodeProgram

variable {i : Nat}

theorem collected_collectDescendants {count : Nat} {target : Window} {rows : List (Function × Nat)}
    {descendants : List IndexedWindow} (h : collectDescendants count i target rows = .ok descendants) :
    Collected i target rows descendants := by
  induction rows generalizing descendants with
  | nil =>
    obtain rfl : [] = descendants := by simpa [collectDescendants] using h
    exact ⟨by simp, by simp, by simp⟩
  | cons row rows ih =>
    obtain ⟨f, j⟩ := row
    rw [collectDescendants] at h
    split at h
    · rename_i heq
      exact (ih h).skip (f, j) fun hne => absurd heq hne
    rename_i hne
    obtain ⟨other, hother, h⟩ := Fallible.bind_eq_ok.mp h
    obtain rfl := checkedWindow_eq_ok hother
    split at h
    · -- an empty row
      rename_i hempty
      refine (ih h).skip (f, j) fun _ => ?_
      show Laminar target f.entryWindow ∧ ¬Inside target f.entryWindow
      simp only [Window.isEmpty, Bool.not_eq_true', decide_eq_false_iff_not] at hempty
      exact ⟨.inl (by omega), fun hin => hempty hin.1⟩
    rename_i hempty
    split at h
    · rename_i hdisjoint
      refine (ih h).skip (f, j) fun _ => ?_
      show Laminar target f.entryWindow ∧ ¬Inside target f.entryWindow
      simp only [windowsAreDisjoint, Bool.or_eq_true, decide_eq_true_eq] at hdisjoint
      exact ⟨.inr (.inl hdisjoint), fun hin => by have := hin.1; have := hin.2; omega⟩
    split at h
    · rename_i hinside
      obtain ⟨rest, hrest, h⟩ := Fallible.bind_eq_ok.mp h
      obtain rfl := Except.ok.inj h
      exact (ih hrest).add (f, j) hne ⟨by simpa [Window.isEmpty] using hempty, hinside⟩
    split at h
    · rename_i haround
      refine (ih h).skip (f, j) fun _ => ?_
      show Laminar target f.entryWindow ∧ ¬Inside target f.entryWindow
      exact ⟨.inr (.inr (.inr haround)), fun hin => by have := hin.1; have := hin.2; omega⟩
    · cases h

variable {program : BytecodeProgram} {ranges : List Window}

/-- The answer for one function: its window without the windows inside it. -/
theorem directFunctionWindows_spec (h : program.directFunctionWindows i = .ok ranges) :
    ∃ f, program.functions[i]? = some f ∧ Ascending ranges ∧ (∀ r ∈ ranges, r.start < r.stop) ∧
      (∀ j g, program.functions[j]? = some g → j ≠ i → Laminar f.entryWindow g.entryWindow) ∧
      ∀ offset, (∃ r ∈ ranges, offset ∈ r) ↔ offset ∈ f.entryWindow ∧
        ∀ j g, program.functions[j]? = some g → j ≠ i → Inside f.entryWindow g.entryWindow →
          offset ∉ g.entryWindow := by
  obtain ⟨target, htarget, h⟩ := Fallible.bind_eq_ok.mp h
  obtain ⟨descendants, hdescendants, h⟩ := Fallible.bind_eq_ok.mp h
  obtain ⟨excluded, hexcluded, h⟩ := Fallible.bind_eq_ok.mp h
  obtain rfl := Except.ok.inj h
  rw [programWindow] at htarget
  split at htarget
  · cases htarget
  rename_i f hf
  obtain rfl := checkedWindow_eq_ok htarget
  have hcollected := collected_collectDescendants hdescendants
  have hrow : ∀ {j g}, program.functions[j]? = some g → (g, j) ∈ program.functions.zipIdx := fun hg =>
    List.mem_zipIdx_iff_getElem?.mpr hg
  obtain ⟨hasc, hsource, hcovered⟩ :=
    maximalLaminarDescendants_spec hexcluded fun d hd => (hcollected.source d hd).1.1
  have hinside : ∀ m ∈ excluded, Inside f.entryWindow m := by
    intro m hm
    obtain ⟨d, hd, rfl⟩ := hsource m hm
    exact (hcollected.source d hd).1
  have hfrom : ∀ m ∈ excluded, f.entryWindow.start ≤ m.start := fun m hm => Nat.le_of_lt (hinside m hm).2.1
  have hwf : ∀ m ∈ excluded, m.start < m.stop ∧ m.stop ≤ f.entryWindow.stop := fun m hm =>
    ⟨(hinside m hm).1, (hinside m hm).2.2⟩
  obtain ⟨hstarts, hascending⟩ := start_of_mem_subtractFrom hasc hfrom hwf
  refine ⟨f, hf, hascending, fun r hr => (hstarts r hr).2, fun j g hg hne => hcollected.laminar
    (g, j) (hrow hg) hne, ?_⟩
  intro offset
  rw [subtractRanges, mem_subtractFrom hasc hfrom hwf, Window.mem_def, and_assoc]
  refine and_congr_right fun _ => and_congr_right fun _ => ⟨fun hnot j g hg hne hin hmem => ?_,
    fun hnot m hm hmem => ?_⟩
  · -- a window inside the target is inside one that is subtracted
    obtain ⟨d, hd, heq⟩ := hcollected.found (g, j) (hrow hg) hne hin
    obtain ⟨m, hm, hcontains⟩ := hcovered d hd
    rw [heq] at hcontains
    exact hnot m hm ⟨Nat.le_trans hcontains.1 hmem.1, Nat.lt_of_lt_of_le hmem.2 hcontains.2⟩
  · obtain ⟨d, hd, rfl⟩ := hsource m hm
    obtain ⟨hin, ⟨g, j⟩, hmemrow, hne, heq⟩ := hcollected.source d hd
    have hg : program.functions[j]? = some g := List.mem_zipIdx_iff_getElem?.mp hmemrow
    rw [← heq] at hin hmem
    exact hnot j g hg hne hin hmem

/-! ## The whole table -/

/-- The answer for the function has a range with the offset. -/
def Owns (program : BytecodeProgram) (i offset : Nat) : Prop :=
  ∃ ranges, program.directFunctionWindows i = .ok ranges ∧ ∃ r ∈ ranges, offset ∈ r

theorem owns_iff {f : Function} (h : program.directFunctionWindows i = .ok ranges)
    (hf : program.functions[i]? = some f) (offset : Nat) :
    program.Owns i offset ↔ offset ∈ f.entryWindow ∧
      ∀ j g, program.functions[j]? = some g → j ≠ i → Inside f.entryWindow g.entryWindow →
        offset ∉ g.entryWindow := by
  obtain ⟨f', hf', _, _, _, howned⟩ := directFunctionWindows_spec h
  obtain rfl : f = f' := Option.some.inj (hf.symm.trans hf')
  rw [← howned offset]
  constructor
  · rintro ⟨ranges', hranges, hmem⟩
    obtain rfl := Except.ok.inj (h.symm.trans hranges)
    exact hmem
  · exact fun hmem => ⟨ranges, h, hmem⟩

/-- Two windows with an offset in common: one is inside the other. -/
theorem inside_or_inside {j offset : Nat} {f g : Function}
    (h : program.directFunctionWindows i = .ok ranges) (hf : program.functions[i]? = some f)
    (hg : program.functions[j]? = some g) (hne : j ≠ i) (hmemf : offset ∈ f.entryWindow)
    (hmemg : offset ∈ g.entryWindow) :
    Inside f.entryWindow g.entryWindow ∨ Inside g.entryWindow f.entryWindow := by
  obtain ⟨f', hf', _, _, hlaminar, _⟩ := directFunctionWindows_spec h
  obtain rfl : f = f' := Option.some.inj (hf.symm.trans hf')
  have hcases := hlaminar j g hg hne
  rw [Window.mem_def] at hmemf hmemg
  unfold Laminar at hcases
  unfold Inside
  omega

/-- Among the functions whose windows have the offset, one starts last. -/
theorem exists_innermost (rows : List Function) (offset : Nat)
    (h : ∃ f : Function, f ∈ rows ∧ offset ∈ f.entryWindow) :
    ∃ i : Nat, ∃ f : Function, rows[i]? = some f ∧ offset ∈ f.entryWindow ∧
      ∀ g ∈ rows, offset ∈ g.entryWindow → g.entryWindow.start ≤ f.entryWindow.start := by
  induction rows with
  | nil => simp at h
  | cons first rest ih =>
    by_cases hrest : ∃ f : Function, f ∈ rest ∧ offset ∈ f.entryWindow
    · obtain ⟨i, f, hf, hmem, hlast⟩ := ih hrest
      by_cases hfirst : offset ∈ first.entryWindow ∧ f.entryWindow.start < first.entryWindow.start
      · refine ⟨0, first, rfl, hfirst.1, List.forall_mem_cons.mpr
          ⟨fun _ => Nat.le_refl _, fun g hg hmemg => ?_⟩⟩
        exact Nat.le_trans (hlast g hg hmemg) (Nat.le_of_lt hfirst.2)
      · refine ⟨i + 1, f, by simpa using hf, hmem, List.forall_mem_cons.mpr ⟨fun hmemfirst => ?_, hlast⟩⟩
        by_contra hlt
        exact hfirst ⟨hmemfirst, by omega⟩
    · obtain ⟨f, hf, hmem⟩ := h
      rcases List.mem_cons.mp hf with rfl | hf
      · refine ⟨0, f, rfl, hmem, List.forall_mem_cons.mpr ⟨fun _ => Nat.le_refl _, fun g hg hmemg => ?_⟩⟩
        exact absurd ⟨g, hg, hmemg⟩ hrest
      · exact absurd ⟨f, hf, hmem⟩ hrest

/-- When every function has an answer, each offset of an entry window has one owner, the function
with the innermost window, and the ranges of a function are ascending, not empty and apart. -/
theorem direct_windows_partition (program : BytecodeProgram)
    (hok : ∀ i < program.functions.length, ∃ ranges, program.directFunctionWindows i = .ok ranges) :
    (∀ offset, (∃ f ∈ program.functions, offset ∈ f.entryWindow) →
      ∃ i f, program.functions[i]? = some f ∧ program.Owns i offset ∧ (∀ j, program.Owns j offset → j = i) ∧
        offset ∈ f.entryWindow ∧ ∀ g ∈ program.functions, offset ∈ g.entryWindow →
          g.entryWindow.Contains f.entryWindow) ∧
      ∀ i ranges, program.directFunctionWindows i = .ok ranges →
        (∀ r ∈ ranges, r.start < r.stop) ∧ ranges.Pairwise fun first second => first.stop ≤
          second.start := by
  refine ⟨fun offset hinside => ?_, fun i ranges h => ?_⟩
  · obtain ⟨i, f, hf, hmem, hlast⟩ := exists_innermost program.functions offset hinside
    obtain ⟨ranges, hranges⟩ := hok i (List.getElem?_eq_some_iff.mp hf).1
    have hinner : ∀ j g, program.functions[j]? = some g → j ≠ i → offset ∈ g.entryWindow →
        Inside g.entryWindow f.entryWindow := by
      intro j g hg hne hmemg
      refine (inside_or_inside hranges hf hg hne hmem hmemg).resolve_left fun hin => ?_
      have := hlast g (List.mem_of_getElem? hg) hmemg
      have := hin.2.1
      omega
    refine ⟨i, f, hf, ?_, ?_, hmem, ?_⟩
    · refine (owns_iff hranges hf offset).mpr ⟨hmem, fun j g hg hne hin hmemg => ?_⟩
      have := (hinner j g hg hne hmemg).2.1
      have := hin.2.1
      omega
    · intro j hj
      by_contra hne
      have ⟨other, hother, _⟩ := hj
      obtain ⟨g, hg, _⟩ := directFunctionWindows_spec hother
      obtain ⟨hmemg, hfree⟩ := (owns_iff hother hg offset).mp hj
      -- the window of `i` is inside the one of `j`, so `j` does not own the offset
      exact hfree i f hf (Ne.symm hne) (hinner j g hg hne hmemg) hmem
    · intro g hg hmemg
      obtain ⟨j, hj⟩ := List.getElem?_of_mem hg
      by_cases hne : j = i
      · subst hne
        obtain rfl : f = g := Option.some.inj (hf.symm.trans hj)
        exact ⟨Nat.le_refl _, Nat.le_refl _⟩
      · have hin := hinner j g hj hne hmemg
        exact ⟨Nat.le_of_lt hin.2.1, hin.2.2⟩
  · obtain ⟨f, _, hascending, hstarts, _⟩ := directFunctionWindows_spec h
    exact ⟨hstarts, hascending⟩

/-- A function with two nested functions that touch, one of them with a third inside, and an empty row. -/
theorem nested_windows_partition :
    let program : BytecodeProgram := ⟨[⟨0, 10⟩, ⟨2, 4⟩, ⟨3, 2⟩, ⟨6, 3⟩, ⟨7, 0⟩], 12⟩
    (∀ offset, (∃ f ∈ program.functions, offset ∈ f.entryWindow) →
      ∃ i f, program.functions[i]? = some f ∧ program.Owns i offset ∧ (∀ j, program.Owns j offset → j = i) ∧
        offset ∈ f.entryWindow ∧ ∀ g ∈ program.functions, offset ∈ g.entryWindow →
          g.entryWindow.Contains f.entryWindow) ∧
      ∀ i ranges, program.directFunctionWindows i = .ok ranges →
        (∀ r ∈ ranges, r.start < r.stop) ∧ ranges.Pairwise fun first second => first.stop ≤
          second.start := by
  refine direct_windows_partition _ fun i hi => ?_
  have hlt : i < 5 := hi
  have hcases : i = 0 ∨ i = 1 ∨ i = 2 ∨ i = 3 ∨ i = 4 := by omega
  rcases hcases with rfl | rfl | rfl | rfl | rfl
  · exact ⟨[⟨0, 2⟩, ⟨9, 10⟩], by decide⟩
  · exact ⟨[⟨2, 3⟩, ⟨5, 6⟩], by decide⟩
  · exact ⟨[⟨3, 5⟩], by decide⟩
  · exact ⟨[⟨6, 9⟩], by decide⟩
  · exact ⟨[], by decide⟩

end BytecodeProgram

end ShapeLang.Bytecode.FunctionWindows
