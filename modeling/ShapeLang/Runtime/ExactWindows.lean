import ShapeLang.Runtime.IntervalWindows

/-!
# The results of every sequence

A manager that is used for one sequence after the other, with a flush after each, reports the
windows of a sequence with exactly their points on one condition, and for most kinds of windows on
that condition only (`results_exact`): sessions always; tumbling and sliding windows when every
window with a point is opened by a point of its own, on a boundary if that is before 1970; windows
of a number of points when the count that the flush before left behind is not reached.
-/

namespace ShapeLang.Runtime

/-- The key of a run of points. -/
def runKey (run : List Int) : WindowKey := (run.headD 0, run.length)

theorem runKey_concat {run : List Int} (hne : run ≠ []) (t : Int) :
    runKey (run ++ [t]) = (run.headD 0, run.length + 1) := by
  obtain ⟨h, run, rfl⟩ := List.exists_cons_of_ne_nil hne
  simp [runKey]

/-! ## Sessions -/

section

variable {gap : Int}

theorem sessionKeys_some {run : List Int} (hne : run ≠ [])
    (hchain : run.IsChain fun a b => decide (b - a ≤ gap) = true) (ts : List Int) :
    sessionKeys gap (some (runKey run, run.getLast hne)) ts =
      ((run ++ ts).splitBy fun a b => decide (b - a ≤ gap)).map runKey := by
  induction ts generalizing run with
  | nil =>
    rw [List.append_nil, List.splitBy_of_isChain hne hchain]
    rfl
  | cons t ts ih =>
    rw [sessionKeys]
    by_cases hclose : gap < t - run.getLast hne
    · have hsplit : (run ++ t :: ts).splitBy (fun a b => decide (b - a ≤ gap)) =
          [run] ++ (t :: ts).splitBy fun a b => decide (b - a ≤ gap) := by
        rw [List.splitBy_append_cons ts, List.splitBy_of_isChain hne hchain]
        intro last hlast
        rw [List.getLast?_eq_some_getLast hne] at hlast
        obtain rfl := Option.some.inj hlast
        exact decide_eq_false (by omega)
      rw [if_pos hclose, hsplit, List.map_append]
      exact congrArg _ (ih (List.cons_ne_nil t []) (List.isChain_singleton t))
    · have hnext : (run ++ [t]).IsChain fun a b => decide (b - a ≤ gap) = true := by
        refine List.isChain_append.mpr ⟨hchain, List.isChain_singleton t, ?_⟩
        intro last hlast t' ht'
        rw [List.getLast?_eq_some_getLast hne] at hlast
        obtain rfl := Option.some.inj hlast
        obtain rfl : t = t' := Option.some.inj ht'
        exact decide_eq_true (by omega)
      have hih := ih (by simp) hnext
      rw [runKey_concat hne, List.getLast_concat, List.append_assoc] at hih
      rw [if_neg hclose]
      exact hih

theorem sessionKeys_none (ts : List Int) :
    sessionKeys gap none ts = (ts.splitBy fun a b => decide (b - a ≤ gap)).map runKey := by
  cases ts with
  | nil => rfl
  | cons t ts => exact sessionKeys_some (List.cons_ne_nil t []) (List.isChain_singleton t) ts

end

/-! ## Numbers of points -/

/-- Chunks of `n` points, the last one possibly shorter. -/
structure Chunks (n : Nat) (ts : List Int) (chunks : List (List Int)) : Prop where
  flatten : chunks.flatten = ts
  full : ∀ c ∈ chunks.dropLast, c.length = n
  last : ∀ c ∈ chunks.getLast?, 0 < c.length ∧ c.length ≤ n

section

variable {n : Nat}

theorem Chunks.single {c : List Int} (hne : c ≠ []) (hle : c.length ≤ n) : Chunks n c [c] where
  flatten := by simp
  full := by simp
  last := by
    rintro c ⟨⟩
    exact ⟨List.length_pos_of_ne_nil hne, hle⟩

theorem Chunks.cons {c ts : List Int} {chunks : List (List Int)} (hn : 0 < n) (hc : c.length = n)
    (h : Chunks n ts chunks) : Chunks n (c ++ ts) (c :: chunks) where
  flatten := by rw [List.flatten_cons, h.flatten]
  full := by
    cases chunks with
    | nil => simp
    | cons d chunks =>
      intro c' hc'
      rcases List.mem_cons.mp hc' with rfl | hc'
      · exact hc
      · exact h.full c' hc'
  last := by
    cases chunks with
    | nil =>
      intro c' hc'
      obtain rfl : c = c' := Option.some.inj hc'
      omega
    | cons d chunks => exact h.last

/-- From a count that agrees with the current window. -/
theorem countKeys_chunks (hn : 0 < n) (ts : List Int) {current : List Int} (hlt : current.length < n) :
    ∃ chunks, Chunks n (current ++ ts) chunks ∧
      countKeys n (if current = [] then none else some (runKey current)) current.length ts =
        chunks.map runKey := by
  induction ts generalizing current with
  | nil =>
    rw [List.append_nil]
    by_cases hnil : current = []
    · subst hnil
      exact ⟨[], ⟨rfl, by simp, by simp⟩, rfl⟩
    · rw [if_neg hnil]
      exact ⟨[current], .single hnil (by omega), rfl⟩
  | cons t ts ih =>
    -- the key after `t`, also when `t` opens the window
    have hkey : ((if current = [] then none else some (runKey current)).elim (t, 1)
        fun w : WindowKey => (w.1, w.2 + 1)) = runKey (current ++ [t]) := by
      by_cases hnil : current = []
      · subst hnil
        rfl
      · rw [if_neg hnil, runKey_concat hnil]
        rfl
    simp only [countKeys, hkey]
    by_cases hfull : n ≤ current.length + 1
    -- the window is full: it closes, and the rest starts from none
    · obtain ⟨chunks, hchunks, hkeys⟩ := @ih [] hn
      refine ⟨(current ++ [t]) :: chunks, ?_, ?_⟩
      · have hlength : (current ++ [t]).length = n := by
          rw [List.length_append, List.length_singleton]
          omega
        have hcons := Chunks.cons hn hlength hchunks
        rw [List.nil_append, List.append_assoc] at hcons
        exact hcons
      · rw [if_pos hfull, List.map_cons, ← hkeys]
        rfl
    -- it has room: the rest continues it
    · have hroom : (current ++ [t]).length < n := by
        rw [List.length_append, List.length_singleton]
        omega
      obtain ⟨chunks, hchunks, hkeys⟩ := ih hroom
      refine ⟨chunks, ?_, ?_⟩
      · rw [List.append_assoc] at hchunks
        exact hchunks
      · rw [if_neg (by simp), List.length_append] at hkeys
        rw [if_neg hfull]
        exact hkeys

/-- From any count: the first window is closed when the count reaches `n`, with the points it has then. -/
theorem countKeys_some {c : Nat} (hc : c < n) (ts : List Int) (w : WindowKey) :
    (countKeys n (some w) c ts).head? = some (w.1, w.2 + min ts.length (n - c)) ∧
      (ts.length ≤ n - c → (countKeys n (some w) c ts).length = 1) := by
  induction ts generalizing c w with
  | nil => exact ⟨by simp [countKeys], fun _ => rfl⟩
  | cons t ts ih =>
    simp only [countKeys, Option.elim_some, List.length_cons]
    by_cases hfull : n ≤ c + 1
    · rw [if_pos hfull]
      refine ⟨?_, fun hle => ?_⟩
      · rw [List.head?_cons, show min (ts.length + 1) (n - c) = 1 by omega]
      · obtain rfl : ts = [] := List.length_eq_zero_iff.mp (by omega)
        rfl
    · rw [if_neg hfull]
      obtain ⟨hhead, hlength⟩ := @ih (c + 1) (by omega) (w.1, w.2 + 1)
      refine ⟨?_, fun hle => hlength (by omega)⟩
      rw [hhead]
      simp only [Option.some.injEq, Prod.mk.injEq, true_and]
      omega

/-- After a count of `c` is left over from before. -/
theorem countKeys_none {c : Nat} (hc : c < n) (t : Int) (ts : List Int) :
    (countKeys n none c (t :: ts)).head? = some (t, min (ts.length + 1) (n - c)) ∧
      (ts.length + 1 ≤ n - c → (countKeys n none c (t :: ts)).length = 1) := by
  have h := countKeys_some hc (t :: ts) (t, 0)
  rw [Nat.zero_add, List.length_cons] at h
  exact h

/-- The chunks are right when there is no count left over, or too few points to reach `n` with it. -/
theorem countKeys_chunks_iff {c : Nat} (hc : c < n) (ts : List Int) :
    (∃ chunks, Chunks n ts chunks ∧ countKeys n none c ts = chunks.map runKey) ↔ c = 0 ∨
      ts.length ≤ n - c := by
  constructor
  · rintro ⟨chunks, hchunks, hkeys⟩
    by_contra hleft
    rw [not_or, Nat.not_le] at hleft
    cases ts with
    | nil => exact Nat.not_lt_zero _ hleft.2
    | cons t ts =>
      rw [List.length_cons] at hleft
      have hhead := (countKeys_none hc t ts).1
      rw [hkeys] at hhead
      cases chunks with
      | nil => cases hhead
      | cons d chunks =>
        have hd : d.length = n - c := by
          have hcount : d.length = min (ts.length + 1) (n - c) := congrArg Prod.snd (Option.some.inj hhead)
          omega
        -- the first chunk is too short, and not the last
        cases chunks with
        | nil =>
          have hall : d = t :: ts := by simpa using hchunks.flatten
          rw [hall, List.length_cons] at hd
          omega
        | cons e chunks =>
          have hfull := hchunks.full d (.head _)
          omega
  · rintro (rfl | hle)
    · exact @countKeys_chunks n (by omega) ts [] hc
    · cases ts with
      | nil => exact ⟨[], ⟨rfl, by simp, by simp⟩, rfl⟩
      | cons t ts =>
        rw [List.length_cons] at hle
        obtain ⟨hhead, hlength⟩ := countKeys_none hc t ts
        refine ⟨[t :: ts], .single (List.cons_ne_nil t ts) (by rw [List.length_cons]; omega), ?_⟩
        obtain ⟨w, hw⟩ := List.length_eq_one_iff.mp (hlength hle)
        rw [hw] at hhead ⊢
        obtain rfl := Option.some.inj hhead
        rw [Nat.min_eq_left hle]
        rfl

theorem countKeys_pos (ts : List Int) {current : Option WindowKey} (hpos : ∀ w ∈ current, 0 < w.2)
    (c : Nat) :
    ∀ w ∈ countKeys n current c ts, 0 < w.2 := by
  induction ts generalizing current c with
  | nil =>
    intro w hw
    exact hpos w (by simpa [countKeys] using hw)
  | cons t ts ih =>
    have hnext : 0 < (current.elim (t, 1) fun w : WindowKey => (w.1, w.2 + 1)).2 := by
      cases current with
      | none => exact Nat.one_pos
      | some w => exact Nat.succ_pos _
    simp only [countKeys]
    split
    · intro w hw
      rcases List.mem_cons.mp hw with rfl | hw
      · exact hnext
      · exact ih (by simp) 0 w hw
    · refine ih ?_ (c + 1)
      rintro w ⟨⟩
      exact hnext

end

/-! ## The state that a flush leaves -/

namespace WindowManager

section

variable {F A : Type}

/-- Between two sequences nothing is open. -/
structure Idle (type : WindowType) (m : WindowManager F A) : Prop where
  type_eq : m.windowType = type
  current : m.currentWindow = none
  active : m.activeWindows = []
  completed : m.completedWindows = []

variable (m : WindowManager F A)

theorem closeCurrent_windowType : m.closeCurrent.windowType = m.windowType := by
  rw [closeCurrent]
  split <;> rfl

variable (point : WindowDataPoint F)

theorem addToCurrent_windowType (start : Int) :
    (m.addToCurrent point start).windowType = m.windowType := by
  rw [addToCurrent]
  split <;> rfl

theorem process_windowType :
    (m.process point).windowType = m.windowType := by
  have hclose : ∀ shouldClose : Bool, (if shouldClose then m.closeCurrent else m).windowType =
      m.windowType := by
    intro shouldClose
    cases shouldClose with
    | true => exact m.closeCurrent_windowType
    | false => rfl
  rw [process]
  split
  · exact (addToCurrent_windowType _ _ _).trans (hclose _)
  · rfl
  · exact (addToCurrent_windowType _ _ _).trans (hclose _)
  · rw [processCount]
    split
    · exact (closeCurrent_windowType _).trans (m.addToCurrent_windowType point _)
    · exact m.addToCurrent_windowType point _
  · rfl

variable (points : List (WindowDataPoint F))

theorem foldl_process_windowType (m : WindowManager F A) :
    (points.foldl process m).windowType = m.windowType := by
  induction points generalizing m with
  | nil => rfl
  | cons point points ih => exact (ih _).trans (m.process_windowType point)

theorem closeCurrent_currentCount : m.closeCurrent.currentCount = m.currentCount := by
  rw [closeCurrent]
  split <;> rfl

/-- The count goes round, whether or not the points are of one sequence. -/
theorem foldl_process_currentCount {n : Nat} {m : WindowManager F A} (htype : m.windowType = .count n)
    (hlt : m.currentCount < n) :
    (points.foldl process m).currentCount = (m.currentCount + points.length) % n := by
  induction points generalizing m with
  | nil => exact (Nat.mod_eq_of_lt hlt).symm
  | cons point points ih =>
    have hadd : (m.addToCurrent point point.timestamp).currentCount = m.currentCount := by
      rw [addToCurrent]
      split <;> rfl
    have hstep : (m.process point).currentCount = if n ≤ m.currentCount + 1 then 0
        else m.currentCount + 1 := by
      rw [process, htype]
      simp only [processCount, hadd]
      split <;> rfl
    have hnext : (m.process point).currentCount < n := by
      rw [hstep]
      split <;> omega
    rw [List.foldl_cons, ih ((m.process_windowType point).trans htype) hnext, hstep, List.length_cons]
    split
    · rw [show m.currentCount + (points.length + 1) = points.length +
        n by omega, Nat.add_mod_right, Nat.zero_add]
    · rw [Nat.add_assoc, Nat.add_comm 1]

theorem idle_finish {type : WindowType} {m : WindowManager F A} (h : m.Idle type)
    (points : List (WindowDataPoint F)) :
    (m.finish points).2.Idle type where
  type_eq := (closeCurrent_windowType _).trans ((foldl_process_windowType points m).trans h.type_eq)
  current := rfl
  active := rfl
  completed := rfl

variable (earlier : List (List (WindowDataPoint F)))

theorem idle_after {type : WindowType} {m : WindowManager F A} (h : m.Idle type) :
    (m.after earlier).Idle type := by
  induction earlier generalizing m with
  | nil => exact h
  | cons points earlier ih => exact ih (idle_finish h points)

theorem after_currentCount {n : Nat} {m : WindowManager F A} (h : m.Idle (.count n))
    (hlt : m.currentCount < n) :
    (m.after earlier).currentCount = (m.currentCount + earlier.flatten.length) % n := by
  induction earlier generalizing m with
  | nil => exact (Nat.mod_eq_of_lt hlt).symm
  | cons points earlier ih =>
    have hcount : (m.finish points).2.currentCount = (m.currentCount + points.length) % n :=
      (closeCurrent_currentCount _).trans (foldl_process_currentCount points h.type_eq hlt)
    refine (ih (idle_finish h points) ?_).trans ?_
    · rw [hcount]
      exact Nat.mod_lt _ (by omega)
    · rw [hcount, Nat.mod_add_mod, List.flatten_cons, List.length_append, Nat.add_assoc]

end

end WindowManager

/-! ## The results -/

/-- The windows the property is about: intervals of at least a millisecond, at least one point. -/
def WindowType.Valid : WindowType → Prop
  | .tumbling size => 1 ≤ size
  | .sliding size slide => 1 ≤ size ∧ 1 ≤ slide
  | .session _ => True
  | .count n => 1 ≤ n
  | .cumulative => False

/-- The keys are those of the windows of a sequence. -/
def WindowType.Exact (type : WindowType) (ts : List Int) (keys : List WindowKey) : Prop :=
  match type with
  | .tumbling size => IntervalWindows size size ts keys
  | .sliding size slide => IntervalWindows slide size ts keys
  | .session gap => keys = (ts.splitBy fun a b => decide (b - a ≤ gap)).map runKey
  | .count n => ∃ chunks, Chunks n ts chunks ∧ keys = chunks.map runKey
  | .cumulative => True

/-- What a sequence needs after `earlier` points. -/
def WindowType.Met (type : WindowType) (earlier : Nat) (ts : List Int) : Prop :=
  match type with
  | .tumbling size => ∀ p ∈ ts, p < 0 → boundary size p ∈ ts
  | .sliding size slide => Opened slide size ts
  | .session _ => True
  | .count n => earlier % n = 0 ∨ ts.length ≤ n - earlier % n
  | .cumulative => True

/-- No point before 1970 is between two windows. -/
def WindowType.NoHoles (type : WindowType) (ts : List Int) : Prop :=
  match type with
  | .sliding size slide => ∀ p ∈ ts, p < 0 → p < boundary slide p + size
  | _ => True

section

variable {F A : Type}

theorem filled_of_pos {keys : List WindowKey} (h : ∀ w ∈ keys, 0 < w.2) : filled keys = keys :=
  List.filter_eq_self.mpr fun w hw => decide_eq_true (h w hw)

/-- A sequence that meets the condition gives its windows; one that gives them meets it, unless a
point before 1970 is between two sliding windows, which may open the next window before its first
point. -/
theorem results_exact {type : WindowType} (hvalid : type.Valid) (aggregate : List F → A)
    (earlier : List (List (WindowDataPoint F))) (points : List (WindowDataPoint F))
    (hsorted : (points.map WindowDataPoint.timestamp).Pairwise (· ≤ ·)) :
    (type.Met earlier.flatten.length (points.map WindowDataPoint.timestamp) →
      type.Exact (points.map WindowDataPoint.timestamp)
        (filled (((WindowManager.new type aggregate).after earlier).finishKeys points))) ∧
    (type.NoHoles (points.map WindowDataPoint.timestamp) →
      type.Exact (points.map WindowDataPoint.timestamp)
        (filled (((WindowManager.new type aggregate).after earlier).finishKeys points)) →
      type.Met earlier.flatten.length (points.map WindowDataPoint.timestamp)) := by
  -- after any earlier sequence the manager holds no open window
  have hnew : (WindowManager.new (F := F) type aggregate).Idle type := ⟨rfl, rfl, rfl, rfl⟩
  have hidle := WindowManager.idle_after earlier hnew
  cases type with
  | tumbling size =>
    rw [WindowManager.finishKeys_tumbling points hidle.type_eq hidle.active, hidle.completed, hidle.current]
    have h := tumblingKeys_intervalWindows_iff (show 0 < size from hvalid) hsorted
    exact ⟨h.mpr, fun _ => h.mp⟩
  -- here the converse needs the exception for points before 1970
  | sliding size slide =>
    rw [WindowManager.finishKeys_sliding points hidle.type_eq hidle.current, hidle.completed, hidle.active]
    have h := @slidingKeys_intervalWindows_iff size slide _ hvalid.2 hsorted
    refine ⟨fun hmet => h.mpr ?_, fun hholes hexact => ?_⟩
    · exact openings_intervalWindows hvalid.1 hvalid.2 countsInterval_pointsIn hsorted hmet
    · exact opened_of_intervalWindows hvalid.1 hvalid.2 countsInterval_pointsIn hsorted hholes (h.mp hexact)
  | session gap =>
    rw [WindowManager.finishKeys_session points hidle.type_eq hidle.active
      (by simp [hidle.current]), hidle.completed, WindowManager.sessionState, hidle.current]
    refine ⟨fun _ => ?_, fun _ _ => trivial⟩
    show filled (sessionKeys gap none _) = _
    rw [sessionKeys_none]
    refine filled_of_pos fun w hw => ?_
    obtain ⟨run, hrun, rfl⟩ := List.mem_map.mp hw
    exact List.length_pos_of_ne_nil (List.ne_nil_of_mem_splitBy hrun)
  | count n =>
    have hpos : 0 < n := hvalid
    rw [WindowManager.finishKeys_count points hidle.type_eq hidle.active, hidle.completed, hidle.current,
      -- the count of the earlier points is left over
      WindowManager.after_currentCount earlier hnew hpos]
    have hcount : (WindowManager.new (F := F) (.count n) aggregate).currentCount + earlier.flatten.length =
        earlier.flatten.length := Nat.zero_add _
    rw [hcount]
    have h := countKeys_chunks_iff (Nat.mod_lt earlier.flatten.length hpos)
        (points.map WindowDataPoint.timestamp)
    have hfilled := filled_of_pos (@countKeys_pos n (points.map WindowDataPoint.timestamp) none (by simp)
      (earlier.flatten.length % n))
    show (_ → ∃ chunks, Chunks n _ chunks ∧ filled (countKeys n none _ _) = _) ∧
      (_ → (∃ chunks, Chunks n _ chunks ∧
      filled (countKeys n none _ _) = _) → _)
    rw [hfilled]
    exact ⟨h.mpr, fun _ => h.mp⟩
  | cumulative => exact hvalid.elim

theorem tumbling_across_1970 :
    (WindowType.tumbling 10).Exact [-10, -3, 4]
      (filled (((WindowManager.new (.tumbling 10) fun _ : List Unit => ()).after [[⟨-30, ()⟩]]).finishKeys
        [⟨-10, ()⟩, ⟨-3, ()⟩, ⟨4, ()⟩])) :=
  (results_exact (show (WindowType.tumbling 10).Valid from (by decide : (1 : Int) ≤ 10))
    (fun _ => ()) [[⟨-30, ()⟩]] [⟨-10, ()⟩, ⟨-3, ()⟩, ⟨4, ()⟩]
    (by decide)).1
    (by show ∀ p ∈ ([-10, -3, 4] : List Int), p < 0 → boundary 10 p ∈ ([-10, -3, 4] : List Int); decide)

/-- A point before 1970 goes into a window after it; the first window around a point is not
reported; and a sequence after a flushed chunk starts with the rest of that chunk. -/
theorem windows_lose_points :
    ¬(WindowType.tumbling 10).Exact [-5]
        (filled ((WindowManager.new (.tumbling 10) fun _ : List Unit => ()).finishKeys [⟨-5, ()⟩])) ∧
      ¬(WindowType.sliding 10 5).Exact [7]
        (filled ((WindowManager.new (.sliding 10 5) fun _ : List Unit => ()).finishKeys [⟨7, ()⟩])) ∧
      ¬(WindowType.count 2).Exact [1, 2]
        (filled (((WindowManager.new (.count 2) fun _ : List Unit => ()).after [[⟨0, ()⟩]]).finishKeys
          [⟨1, ()⟩, ⟨2, ()⟩])) := by
  refine ⟨fun h => ?_, fun h => ?_, ?_⟩
  · have hmem := (h.mem_iff (-10) 1).mpr (by decide)
    revert hmem
    decide
  · have hmem := (h.mem_iff 0 1).mpr (by decide)
    revert hmem
    decide
  · rintro ⟨chunks, hchunks, hkeys⟩
    have hlengths : [1, 1] = (chunks.map runKey).map Prod.snd := congrArg (List.map Prod.snd) hkeys
    rw [List.map_map] at hlengths
    obtain ⟨c, rest, rfl, hc, hrest⟩ := List.map_eq_cons_iff.mp hlengths.symm
    obtain ⟨d, rest, rfl, -, -⟩ := List.map_eq_cons_iff.mp hrest
    have hone : c.length = 1 := hc
    have htwo := hchunks.full c (.head _)
    omega

end

end ShapeLang.Runtime
