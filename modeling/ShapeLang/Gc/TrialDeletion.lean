import ShapeLang.Gc.Heap
import ShapeLang.Lib.Dfs

/-!
# ShapeLang — trial deletion

What the three passes of the collector compute, for every heap graph.

`markGray` takes away the counts that come from inside the graph `R` reached from the candidates. What
is left on a node (`base`) counts the references from outside `R`. `scan` keeps the nodes that such a
reference reaches and gives their edges' counts back; `collectWhite` lists the others.

  * `markAll_spec` — after the first pass `R` is gray and the counts are the base counts;
  * `ScanInv` — the invariant of the second pass: a count is the base count and the edges from black
    nodes, black nodes are live and have black children, white nodes have count zero;
  * `scanAll_spec` — after the second pass the white nodes of `R` are exactly those that are not live;
  * `collectAll_spec` — the third pass lists them, each once.
-/

namespace ShapeLang.Gc

open Dfs

variable {ν : Type} [DecidableEq ν] (H : Heap ν)

/-! ## The passes as traversals -/

/-- Paints the nodes it enters. -/
def paintVisitor (c : GcColor) (edge : GcState ν → ν → GcState ν) : Visitor (GcState ν) ν where
  children := H.children
  opens s n := s.color n ≠ c
  enter s n := s.setColor n c
  edge := edge
  leave s _ := s

abbrev markVisitor : Visitor (GcState ν) ν := paintVisitor H .gray (nodeTrialDecrement H)

abbrev blackVisitor : Visitor (GcState ν) ν := paintVisitor H .black (nodeIncrement H)

def whiteVisitor : Visitor (GcState ν × List ν) ν where
  children := H.children
  opens p n := p.1.color n = .white ∧ p.1.buffered n = false
  enter p n := (p.1.setColor n .black, p.2)
  edge p _ := p
  leave p n := (p.1, p.2 ++ [n])

variable (s : GcState ν) (n : ν)

theorem setColor_color (x : ν) (c : GcColor) :
    (s.setColor n c).color x = if x = n then c else s.color x :=
  Function.update_apply s.color n c x

@[simp] theorem nodeTrialDecrement_color :
    (nodeTrialDecrement H s n).color = s.color := by
  unfold nodeTrialDecrement
  split <;> rfl

@[simp] theorem nodeTrialDecrement_buffered :
    (nodeTrialDecrement H s n).buffered = s.buffered := by
  unfold nodeTrialDecrement
  split <;> rfl

@[simp] theorem nodeIncrement_color :
    (nodeIncrement H s n).color = s.color := by
  unfold nodeIncrement
  split <;> rfl

@[simp] theorem nodeIncrement_buffered :
    (nodeIncrement H s n).buffered = s.buffered := by
  unfold nodeIncrement
  split <;> rfl

variable {edge : GcState ν → ν → GcState ν}

theorem paintVisitor_lawful (c : GcColor) (hedge : ∀ s n, (edge s n).color = s.color) :
    (paintVisitor H c edge).Lawful where
  enter s n x := by
    by_cases hx : x = n <;> simp [paintVisitor, setColor_color, hx]
  edge s n x := by simp [paintVisitor, hedge]
  leave s n x := rfl

theorem markVisitor_lawful : (markVisitor H).Lawful :=
  paintVisitor_lawful H .gray (nodeTrialDecrement_color H)

theorem blackVisitor_lawful : (blackVisitor H).Lawful :=
  paintVisitor_lawful H .black (nodeIncrement_color H)

theorem whiteVisitor_lawful : (whiteVisitor H).Lawful where
  enter p n x := by
    by_cases hx : x = n
    · simp [whiteVisitor, setColor_color, hx]
    · simp [whiteVisitor, hx, GcState.setColor]
  edge p c x := rfl
  leave p n x := rfl

theorem markGray_eq_visit (fuel : Nat) : markGray H fuel = (markVisitor H).visit fuel := by
  induction fuel with
  | zero => rfl
  | succ fuel ih =>
    funext s n
    simp only [markGray, Visitor.visit, ih]
    by_cases hn : s.color n = .gray
    · simp [paintVisitor, hn]
    · simp [paintVisitor, hn]

theorem collectWhite_eq_visit (fuel : Nat) : collectWhite H fuel = (whiteVisitor H).visit fuel := by
  induction fuel with
  | zero => rfl
  | succ fuel ih =>
    funext p n
    obtain ⟨s, white⟩ := p
    simp only [collectWhite, Visitor.visit, ih]
    by_cases hn : s.color n = .white ∧ s.buffered n = false
    · simp [whiteVisitor, hn]
    · rw [if_neg hn, if_neg (by simpa [whiteVisitor] using hn)]

/-- A fold whose steps succeed with the same results. -/
theorem foldlM_mono {σ α : Type} {f g : σ → α → Option σ}
    (hfg : ∀ s a s', f s a = some s' → g s a = some s') {l : List α} {s s' : σ}
    (h : l.foldlM f s = some s') : l.foldlM g s = some s' := by
  induction l generalizing s with
  | nil => exact h
  | cons a l ih =>
    rw [List.foldlM_cons] at h ⊢
    obtain ⟨s₁, h₁, h⟩ := Option.bind_eq_some_iff.mp h
    rw [hfg s a s₁ h₁]
    exact ih h

variable {fuel : Nat} {s' : GcState ν}

/-- The restore is a traversal of the nodes that are not black: it skips a black child without a call
where the traversal calls and returns. -/
theorem visit_of_scanBlack {s : GcState ν} {n : ν} (hn : s.color n ≠ .black)
    (h : scanBlack H fuel s n = some s') :
    (blackVisitor H).visit (fuel + 1) s n = some s' := by
  induction fuel generalizing s s' n with
  | zero => exact absurd h nofun
  | succ fuel ih =>
    rw [scanBlack] at h
    have hopen : (blackVisitor H).opens s n = true := by simpa [paintVisitor] using hn
    rw [Visitor.visit, if_pos hopen]
    have hfold : (H.children n).foldlM
        (fun s c => (blackVisitor H).visit (fuel + 1) (nodeIncrement H s c) c)
        (s.setColor n .black) = some s' := by
      refine foldlM_mono (fun t c t' ht => ?_) h
      simp only at ht
      split at ht
      · next hc => exact ih hc ht
      · next hc =>
        obtain rfl := Option.some.inj ht
        rw [Visitor.visit, if_neg (by simpa [paintVisitor] using hc)]
    exact Option.bind_eq_some_iff.mpr ⟨s', hfold, rfl⟩

theorem scanBlack_of_visit {s : GcState ν} {n : ν} (hn : s.color n ≠ .black)
    (h : (blackVisitor H).visit fuel s n = some s') :
    scanBlack H fuel s n = some s' := by
  induction fuel generalizing s s' n with
  | zero => cases h
  | succ fuel ih =>
    have hopen : (blackVisitor H).opens s n = true := by simpa [paintVisitor] using hn
    rw [Visitor.visit, if_pos hopen] at h
    obtain ⟨s₁, h₁, h⟩ := Option.bind_eq_some_iff.mp h
    obtain rfl := Option.some.inj h
    rw [scanBlack]
    refine foldlM_mono (fun t c t' ht => ?_) h₁
    simp only
    split
    · next hc => exact ih hc ht
    · next hc =>
      cases fuel with
      | zero => cases ht
      | succ fuel =>
        rw [Visitor.visit, if_neg (by simpa [paintVisitor] using hc)] at ht
        exact ht

/-! ## What the traces do -/

theorem paint_run_color (c : GcColor) (hedge : ∀ s n, (edge s n).color = s.color)
    (tr : List (Event ν)) (s : GcState ν) (x : ν) :
    ((paintVisitor H c edge).run s tr).color x = if x ∈ entered tr then c else s.color x := by
  induction tr generalizing s with
  | nil => rfl
  | cons e tr ih =>
    cases e with
    | enter n =>
      show ((paintVisitor H c edge).run (s.setColor n c) tr).color x = _
      rw [ih, setColor_color, show entered (.enter n :: tr) = n :: entered tr from rfl]
      by_cases hx : x = n <;> by_cases htr : x ∈ entered tr <;> simp [hx, htr]
    | edge n =>
      show ((paintVisitor H c edge).run (edge s n) tr).color x = _
      rw [ih, hedge, show entered (.edge n :: tr) = entered tr from rfl]
    | leave n => exact ih s

theorem paint_run_buffered (c : GcColor) (hedge : ∀ s n, (edge s n).buffered = s.buffered)
    (tr : List (Event ν)) (s : GcState ν) :
    ((paintVisitor H c edge).run s tr).buffered = s.buffered := by
  induction tr generalizing s with
  | nil => rfl
  | cons e tr ih =>
    cases e with
    | enter n => exact ih (s.setColor n c)
    | edge n =>
      show ((paintVisitor H c edge).run (edge s n) tr).buffered = _
      rw [ih, hedge]
    | leave n => exact ih s

variable {m : ν}

/-- Strong counts of `Arc`-backed nodes are never touched. -/
theorem paint_run_refcount (c : GcColor) (hedge : ∀ s n, (edge s n).refcount m = s.refcount m)
    (tr : List (Event ν)) (s : GcState ν) :
    ((paintVisitor H c edge).run s tr).refcount m = s.refcount m := by
  induction tr generalizing s with
  | nil => rfl
  | cons e tr ih =>
    cases e with
    | enter n => exact ih (s.setColor n c)
    | edge n =>
      show ((paintVisitor H c edge).run (edge s n) tr).refcount m = _
      rw [ih, hedge]
    | leave n => exact ih s

theorem nodeTrialDecrement_refcount (hm : (H.kind m).isHeader = false) (s : GcState ν) (n : ν) :
    (nodeTrialDecrement H s n).refcount m = s.refcount m := by
  unfold nodeTrialDecrement
  split
  · next hn =>
    refine Function.update_of_ne (fun hmn => ?_) _ _
    rw [hmn, hn] at hm
    exact absurd hm nofun
  · rfl

theorem nodeIncrement_refcount (hm : (H.kind m).isHeader = false) (s : GcState ν) (n : ν) :
    (nodeIncrement H s n).refcount m = s.refcount m := by
  unfold nodeIncrement
  split
  · next hn =>
    refine Function.update_of_ne (fun hmn => ?_) _ _
    rw [hmn, hn] at hm
    exact absurd hm nofun
  · rfl

theorem count_cons_int (c m : ν) (l : List ν) :
    ((c :: l).count m : Int) = l.count m + if m = c then 1 else 0 := by
  rw [List.count_cons]
  by_cases hm : m = c
  · simp [hm]
  · have hmc : (c == m) = false := by simpa using fun h => hm h.symm
    simp [hm, hmc]

/-- The count of a node as the first pass sees it: the shadow count counts as seeded. -/
def trial (s : GcState ν) (n : ν) : Int :=
  if (H.kind n).isHeader then s.refcount n
  else if s.seeded n then s.shadow n else arcStrongCountSeed H s n

theorem trial_nodeTrialDecrement {s : GcState ν} {c : ν} (h : 1 ≤ trial H s c) (m : ν) :
    trial H (nodeTrialDecrement H s c) m = trial H s m - if m = c then 1 else 0 := by
  unfold nodeTrialDecrement
  split
  · next hc =>
    by_cases hm : m = c
    · subst hm
      simp [trial, hc]
    · simp [trial, arcStrongCountSeed, hm]
  · next hc =>
    by_cases hm : m = c
    · subst hm
      simp only [trial, hc] at h ⊢
      simp only [Function.update_self, if_true]
      simp only [Bool.false_eq_true, if_false] at h ⊢
      -- the trial count is positive, so the subtraction does not saturate
      exact max_eq_right (by omega)
    · simp [trial, arcStrongCountSeed, hm]

variable (tr : List (Event ν))

theorem mark_run_trial (s : GcState ν) (h : ∀ m, ((edges tr).count m : Int) ≤ trial H s m) (m : ν) :
    trial H ((markVisitor H).run s tr) m = trial H s m - (edges tr).count m := by
  induction tr generalizing s with
  | nil => simp [Visitor.run, edges]
  | cons e tr ih =>
    cases e with
    | enter n => exact ih (s.setColor n .gray) h
    | edge c =>
      have hedges : edges (.edge c :: tr) = c :: edges tr := rfl
      rw [hedges] at h ⊢
      have hc : 1 ≤ trial H s c := by
        have := h c
        rw [List.count_cons_self] at this
        omega
      have hstep := trial_nodeTrialDecrement H hc
      show trial H ((markVisitor H).run (nodeTrialDecrement H s c) tr) m = _
      rw [ih _ (fun x => ?_), hstep, count_cons_int]
      · omega
      · have hx := h x
        rw [count_cons_int] at hx
        rw [hstep]
        omega
    | leave n => exact ih s h

/-- A node that an edge led to has a header or a seeded shadow count. -/
theorem mark_run_seeded (s : GcState ν) (m : ν)
    (h : m ∈ edges tr ∨ (H.kind m).isHeader = true ∨ s.seeded m = true) :
    (H.kind m).isHeader = true ∨ ((markVisitor H).run s tr).seeded m = true := by
  induction tr generalizing s with
  | nil => simpa [edges, Visitor.run] using h
  | cons e tr ih =>
    cases e with
    | enter n => exact ih (s.setColor n .gray) h
    | edge c =>
      refine ih (nodeTrialDecrement H s c) ?_
      rw [show edges (.edge c :: tr) = c :: edges tr from rfl, List.mem_cons] at h
      by_cases hm : (H.kind m).isHeader = true
      · exact Or.inr (Or.inl hm)
      -- the edge seeds the count of its target, and no edge takes it back
      · rcases h with (rfl | h) | h | h
        · refine Or.inr (Or.inr ?_)
          simp [nodeTrialDecrement, hm]
        · exact Or.inl h
        · exact absurd h hm
        · refine Or.inr (Or.inr ?_)
          unfold nodeTrialDecrement
          split
          · exact h
          · show Function.update s.seeded c true m = true
            rw [Function.update_apply]
            split
            · rfl
            · exact h
    | leave n => exact ih s h

omit [DecidableEq ν] in
theorem nodeCount_eq_trial {s : GcState ν} (h : (H.kind m).isHeader = true ∨ s.seeded m = true) :
    nodeCount H s m = trial H s m := by
  unfold nodeCount trial
  split
  · rfl
  · next hm => rw [if_pos (h.resolve_left hm)]

theorem nodeCount_nodeIncrement (c m : ν) :
    nodeCount H (nodeIncrement H s c) m = nodeCount H s m + if m = c then 1 else 0 := by
  unfold nodeIncrement
  by_cases hm : m = c
  · subst hm
    split
    · next hc => simp [nodeCount, hc]
    · next hc => simp [nodeCount, hc]
  · split
    · simp [nodeCount, hm]
    · simp [nodeCount, hm]

theorem black_run_count (s : GcState ν) (m : ν) :
    nodeCount H ((blackVisitor H).run s tr) m = nodeCount H s m + (edges tr).count m := by
  induction tr generalizing s with
  | nil => simp [Visitor.run, edges]
  | cons e tr ih =>
    cases e with
    | enter n => exact ih (s.setColor n .black)
    | edge c =>
      show nodeCount H ((blackVisitor H).run (nodeIncrement H s c) tr) m = _
      rw [ih, nodeCount_nodeIncrement, show edges (.edge c :: tr) = c :: edges tr from rfl,
        count_cons_int]
      omega
    | leave n => exact ih s

/-! ## The first pass -/

/-- The candidates reach the node. -/
def CandReach (ptrs : List ν) (n : ν) : Prop := ∃ r ∈ ptrs, H.Reaches r n

/-- The edges into a node from the nodes of a set. -/
def inEdges (A : Finset ν) (m : ν) : Int := ∑ x ∈ A, ((H.children x).count m : Int)

theorem inEdges_nonneg (A : Finset ν) (m : ν) : 0 ≤ inEdges H A m :=
  Finset.sum_nonneg fun _ _ => Int.natCast_nonneg _

theorem inEdges_pos_iff {A : Finset ν} :
    0 < inEdges H A m ↔ ∃ x ∈ A, m ∈ H.children x := by
  constructor
  · intro h
    obtain ⟨x, hx, hpos⟩ := Finset.exists_lt_of_sum_lt
      (show ∑ x ∈ A, (0 : Int) < ∑ x ∈ A, ((H.children x).count m : Int) by
        rw [Finset.sum_const_zero]
        exact h)
    exact ⟨x, hx, List.count_pos_iff.mp (by omega)⟩
  · rintro ⟨x, hx, hm⟩
    refine Finset.sum_pos' (fun _ _ => Int.natCast_nonneg _) ⟨x, hx, ?_⟩
    have := List.count_pos_iff.mpr hm
    omega

theorem inEdges_eq_zero {A : Finset ν} (h : ∀ x ∈ A, m ∉ H.children x) : inEdges H A m = 0 := by
  refine le_antisymm (not_lt.mp fun hlt => ?_) (inEdges_nonneg H A m)
  obtain ⟨x, hx, hm⟩ := (inEdges_pos_iff H).mp hlt
  exact h x hx hm

theorem count_edges {σ : Type} {V : Visitor σ ν} (hV : V.children = H.children) {s : σ}
    {tr : List (Event ν)} {roots : List ν} (h : V.Explores s tr [] roots) (m : ν) :
    ((edges tr).count m : Int) = inEdges H (entered tr).toFinset m := by
  rw [h.edges_perm.count_eq m, List.append_nil, List.count_flatMap, inEdges, hV,
    List.sum_toFinset _ h.nodup]
  induction entered tr with
  | nil => rfl
  | cons x l ih =>
    simp only [List.map_cons, List.sum_cons, Function.comp_apply, Nat.cast_add] at ih ⊢
    rw [ih]

/-- After the first pass the nodes the candidates reach are gray, and the edges between them are taken
off the counts. -/
theorem markAll_spec {s : GcState ν} {ptrs : List ν} {R : Finset ν}
    (h : ptrs.foldlM (markGray H fuel) s = some s') (hgray : ∀ n, s.color n ≠ .gray)
    (hroots : ∀ r ∈ ptrs, (H.kind r).isHeader = true) (hR : ∀ x, x ∈ R ↔ CandReach H ptrs x)
    (htrial : ∀ m, inEdges H R m ≤ trial H s m) :
    (∀ x, s'.color x = if x ∈ R then .gray else s.color x) ∧ s'.buffered = s.buffered ∧
      (∀ m, trial H s' m = trial H s m - inEdges H R m) ∧
      (∀ m ∈ R, nodeCount H s' m = trial H s' m) ∧
      ∀ m, (H.kind m).isHeader = false → s'.refcount m = s.refcount m := by
  rw [markGray_eq_visit] at h
  obtain ⟨tr, rfl, htr⟩ := Visitor.visitAll_explores (markVisitor_lawful H) h
  have hopen : ∀ x, (markVisitor H).opens s x = true := fun x => by simp [paintVisitor, hgray x]
  have hentered : ∀ x, ¬ (markVisitor H).opens ((markVisitor H).run s tr) x = true →
      x ∈ entered tr := by
    intro x hx
    by_contra hnot
    exact hx ((htr.opens_iff x).mpr ⟨hopen x, hnot⟩)
  -- The nodes entered are those the candidates reach.
  have hset : (entered tr).toFinset = R := by
    ext x
    rw [List.mem_toFinset, hR]
    constructor
    · exact htr.reach x
    · rintro ⟨r, hr, hrx⟩
      induction hrx with
      | refl => exact hentered r (htr.seen r hr)
      | tail _ hstep ih => exact hentered _ (htr.closed _ ih _ hstep)
  have hcount := count_edges H (V := markVisitor H) rfl htr
  rw [hset] at hcount
  refine ⟨fun x => ?_, ?_, fun m => ?_, fun m hm => ?_, fun m hm => ?_⟩
  · rw [paint_run_color H .gray (nodeTrialDecrement_color H)]
    simp only [← hset, List.mem_toFinset]
  · exact paint_run_buffered H .gray (nodeTrialDecrement_buffered H) tr s
  · rw [mark_run_trial H tr s (fun m => by rw [hcount]; exact htrial m), hcount]
  · refine nodeCount_eq_trial H (mark_run_seeded H tr s m ?_)
    -- A node of `R` is a candidate or the end of an edge from `R`.
    obtain ⟨r, hr, hrm⟩ := (hR m).mp hm
    rcases Relation.ReflTransGen.cases_tail hrm with rfl | ⟨x, hrx, hxm⟩
    · exact Or.inr (Or.inl (hroots m hr))
    · left
      rw [← List.count_pos_iff]
      have hpos := (inEdges_pos_iff H).mpr ⟨x, (hR x).mpr ⟨r, hr, hrx⟩, hxm⟩
      have := hcount m
      omega
  · exact paint_run_refcount H .gray (nodeTrialDecrement_refcount H hm) tr s

/-! ## The second pass -/

/-- Restoring a subgraph paints what was not black and counts its edges again. -/
theorem scanBlack_spec {s : GcState ν} {n : ν} (hn : s.color n ≠ .black)
    (h : scanBlack H fuel s n = some s') :
    ∃ E : Finset ν,
      (∀ x ∈ E, s.color x ≠ .black ∧ H.Reaches n x ∧ ∀ c ∈ H.children x, s'.color c = .black) ∧
      (∀ x, s'.color x = if x ∈ E then .black else s.color x) ∧ s'.color n = .black ∧
      (∀ m, nodeCount H s' m = nodeCount H s m + inEdges H E m) ∧ s'.buffered = s.buffered ∧
      ∀ m, (H.kind m).isHeader = false → s'.refcount m = s.refcount m := by
  obtain ⟨tr, rfl, htr⟩ :=
    Visitor.visit_explores (blackVisitor_lawful H) (visit_of_scanBlack H hn h)
  have hblack : ∀ x, ¬ (blackVisitor H).opens ((blackVisitor H).run s tr) x = true →
      ((blackVisitor H).run s tr).color x = .black := fun x hx => by simpa [paintVisitor] using hx
  refine ⟨(entered tr).toFinset, fun x hx => ?_, fun x => ?_, ?_, fun m => ?_, ?_, fun m hm => ?_⟩
  · rw [List.mem_toFinset] at hx
    obtain ⟨r, hr, hrx⟩ := htr.reach x hx
    rw [List.mem_singleton.mp hr] at hrx
    exact ⟨by simpa [paintVisitor] using htr.opened x hx, hrx,
      fun c hc => hblack c (htr.closed x hx c hc)⟩
  · rw [paint_run_color H .black (nodeIncrement_color H)]
    simp only [List.mem_toFinset]
  · exact hblack n (htr.seen n (List.mem_singleton_self n))
  · rw [black_run_count, count_edges H (V := blackVisitor H) rfl htr]
  · exact paint_run_buffered H .black (nodeIncrement_buffered H) tr s
  · exact paint_run_refcount H .black (nodeIncrement_refcount H hm) tr s

section Scan

variable (R : Finset ν) (base : ν → Int)

/-- Kept alive: reached from outside `R`, or from a node that a reference from outside holds. -/
def Live (x : ν) : Prop := ∃ a, (a ∉ R ∨ 0 < base a) ∧ H.Reaches a x

structure ScanInv (s : GcState ν) : Prop where
  colors : ∀ x ∈ R, s.color x = .gray ∨ s.color x = .white ∨ s.color x = .black
  count : ∀ x ∈ R,
    nodeCount H s x = base x + inEdges H (R.filter fun y => s.color y = .black) x
  black : ∀ x ∈ R, s.color x = .black →
    Live H R base x ∧ ∀ c ∈ H.children x, s.color c = .black
  white : ∀ x ∈ R, s.color x = .white → nodeCount H s x = 0

/-- What the second pass does to a state: gray nodes become white or black, and a white node's
children have been looked at. -/
structure Scanned (s s' : GcState ν) : Prop where
  outside : ∀ x, x ∉ R → s'.color x = s.color x ∧ nodeCount H s' x = nodeCount H s x
  gray : ∀ x, s'.color x = .gray → s.color x = .gray
  white : ∀ x, s'.color x = .white →
    s.color x = .white ∨ s.color x = .gray ∧ ∀ c ∈ H.children x, s'.color c ≠ .gray
  buffered : s'.buffered = s.buffered
  refcount : ∀ m, (H.kind m).isHeader = false → s'.refcount m = s.refcount m

variable {H R base}

omit [DecidableEq ν] in
theorem Scanned.refl (s : GcState ν) : Scanned H R s s :=
  ⟨fun _ _ => ⟨rfl, rfl⟩, fun _ h => h, fun _ h => Or.inl h, rfl, fun _ _ => rfl⟩

omit [DecidableEq ν] in
theorem Scanned.trans {s₁ s₂ s₃ : GcState ν} (h₁ : Scanned H R s₁ s₂) (h₂ : Scanned H R s₂ s₃) :
    Scanned H R s₁ s₃ := by
  refine ⟨fun x hx => ?_, fun x hx => h₁.gray x (h₂.gray x hx), fun x hx => ?_,
    h₂.buffered.trans h₁.buffered, fun m hm => (h₂.refcount m hm).trans (h₁.refcount m hm)⟩
  · obtain ⟨hc₁, hn₁⟩ := h₁.outside x hx
    obtain ⟨hc₂, hn₂⟩ := h₂.outside x hx
    exact ⟨hc₂.trans hc₁, hn₂.trans hn₁⟩
  · rcases h₂.white x hx with hw | ⟨hg, hch⟩
    · rcases h₁.white x hw with hw | ⟨hg, hch⟩
      · exact Or.inl hw
      · exact Or.inr ⟨hg, fun c hc hgray => hch c hc (h₂.gray c hgray)⟩
    · exact Or.inr ⟨h₁.gray x hg, hch⟩

variable {s : GcState ν}

/-- A gray node with a positive count is live. -/
theorem ScanInv.live_of_count_pos (h : ScanInv H R base s) {n : ν} (hn : n ∈ R) (hgray : s.color n = .gray)
    (hpos : nodeCount H s n > 0) : Live H R base n := by
  refine ⟨n, Or.inr ?_, .refl⟩
  by_contra hbase
  have hcount := h.count n hn
  obtain ⟨y, hy, hny⟩ :=
    (inEdges_pos_iff H (A := R.filter fun y => s.color y = .black) (m := n)).mp (by omega)
  rw [Finset.mem_filter] at hy
  have hblack := (h.black y hy.1 hy.2).2 n hny
  rw [hgray] at hblack
  exact absurd hblack nofun

omit [DecidableEq ν] in
theorem Live.reaches {x y : ν} (h : Live H R base x) (hxy : H.Reaches x y) : Live H R base y := by
  obtain ⟨a, ha, hax⟩ := h
  exact ⟨a, ha, hax.trans hxy⟩

variable (hclosed : ∀ x ∈ R, ∀ c ∈ H.children x, c ∈ R)

omit [DecidableEq ν] in
include hclosed in
theorem mem_of_reaches {x y : ν} (hx : x ∈ R) (h : H.Reaches x y) : y ∈ R := by
  induction h with
  | refl => exact hx
  | tail _ hstep ih => exact hclosed _ ih _ hstep

include hclosed in
/-- Restoring from a live node: the invariant holds again, with more black nodes. -/
theorem ScanInv.scanBlack {s s' : GcState ν} (h : ScanInv H R base s) {fuel : Nat} {n : ν}
    (hn : n ∈ R) (hgray : s.color n = .gray) (hpos : nodeCount H s n > 0)
    (hrun : scanBlack H fuel s n = some s') :
    ScanInv H R base s' ∧ Scanned H R s s' ∧ s'.color n = .black := by
  have hlive := h.live_of_count_pos hn hgray hpos
  obtain ⟨E, hE, hcolor, hnblack, hcount, hbuf, hrc⟩ :=
    scanBlack_spec H (by rw [hgray]; exact nofun) hrun
  have hsub : ∀ x ∈ E, x ∈ R := fun x hx => mem_of_reaches hclosed hn (hE x hx).2.1
  have hkeep : ∀ x, s.color x = .black → s'.color x = .black := by
    intro x hx
    rw [hcolor, if_neg fun hin => (hE x hin).1 hx]
    exact hx
  -- An edge from a node painted now ends in a black node.
  have hchild : ∀ x, s'.color x ≠ .black → inEdges H E x = 0 := by
    intro x hx
    exact inEdges_eq_zero H fun y hy hxy => hx ((hE y hy).2.2 x hxy)
  have hout : ∀ x, x ∉ R → inEdges H E x = 0 := by
    intro x hx
    exact inEdges_eq_zero H fun y hy hxy => hx (hclosed y (hsub y hy) x hxy)
  have hfilter : R.filter (fun y => s'.color y = .black)
      = R.filter (fun y => s.color y = .black) ∪ E := by
    ext y
    simp only [Finset.mem_filter, Finset.mem_union, hcolor]
    by_cases hy : y ∈ E
    · simp [hy, hsub y hy]
    · simp [hy]
  have hdisj : Disjoint (R.filter fun y => s.color y = .black) E := by
    rw [Finset.disjoint_left]
    intro y hy hin
    exact (hE y hin).1 (Finset.mem_filter.mp hy).2
  have hsame : ∀ x, s'.color x ≠ .black → s'.color x = s.color x := by
    intro x hx
    rw [hcolor] at hx ⊢
    split at hx
    · exact absurd rfl hx
    · next hin => exact if_neg hin
  refine ⟨⟨fun x hx => ?_, fun x hx => ?_, fun x hx hblack => ?_, fun x hx hwhite => ?_⟩,
    ⟨fun x hx => ⟨?_, ?_⟩, fun x hx => ?_, fun x hx => Or.inl ?_, hbuf, hrc⟩, hnblack⟩
  · by_cases hb : s'.color x = .black
    · exact Or.inr (Or.inr hb)
    · rw [hsame x hb]
      exact h.colors x hx
  · rw [hcount, h.count x hx, hfilter, inEdges, inEdges, inEdges, Finset.sum_union hdisj]
    omega
  · by_cases hin : x ∈ E
    · exact ⟨hlive.reaches (hE x hin).2.1, (hE x hin).2.2⟩
    · rw [hcolor, if_neg hin] at hblack
      obtain ⟨hl, hch⟩ := h.black x hx hblack
      exact ⟨hl, fun c hc => hkeep c (hch c hc)⟩
  · have hnb : s'.color x ≠ .black := by rw [hwhite]; exact nofun
    rw [hcount, hchild x hnb, h.white x hx ((hsame x hnb).symm.trans hwhite)]
    rfl
  · rw [hcolor, if_neg fun hin => hx (hsub x hin)]
  · rw [hcount, hout x hx, add_zero]
  · exact (hsame x (by rw [hx]; exact nofun)).symm.trans hx
  · exact (hsame x (by rw [hx]; exact nofun)).symm.trans hx

/-- A gray node without count turns white. -/
theorem ScanInv.setWhite (h : ScanInv H R base s) (hbase : ∀ x ∈ R, 0 ≤ base x) {n : ν} (hn : n ∈ R)
    (hgray : s.color n = .gray) (hcount : ¬ nodeCount H s n > 0) :
    ScanInv H R base (s.setColor n .white) := by
  have hcolor := setColor_color s n
  have hsame : ∀ x, (nodeCount H (s.setColor n .white) x) = nodeCount H s x := fun _ => rfl
  -- a gray node was not black before
  have hfilter : R.filter (fun y => (s.setColor n .white).color y = .black)
      = R.filter (fun y => s.color y = .black) := by
    refine Finset.filter_congr fun y _ => ?_
    rw [hcolor]
    by_cases hy : y = n
    · simp [hy, hgray]
    · simp [hy]
  refine ⟨fun x hx => ?_, fun x hx => ?_, fun x hx hblack => ?_, fun x hx hwhite => ?_⟩
  · rw [hcolor]
    split
    · exact Or.inr (Or.inl rfl)
    · exact h.colors x hx
  · rw [hsame, hfilter]
    exact h.count x hx
  · rw [hcolor] at hblack
    split at hblack
    · exact absurd hblack nofun
    · obtain ⟨hl, hch⟩ := h.black x hx hblack
      refine ⟨hl, fun c hc => ?_⟩
      rw [hcolor, if_neg fun hcn => ?_]
      · exact hch c hc
      -- the children of a black node are black, and this one was gray
      · have hcblack := hch c hc
        rw [hcn, hgray] at hcblack
        exact absurd hcblack nofun
  · rw [hsame]
    rw [hcolor] at hwhite
    split at hwhite
    -- its count is what comes in from outside and from black nodes, so both are zero
    · next hxn =>
      have hnonneg := inEdges_nonneg H (R.filter fun y => s.color y = .black) n
      have := h.count n hn
      have := hbase n hn
      rw [hxn]
      omega
    · exact h.white x hx hwhite

/-- Several calls, one after the other. -/
theorem ScanInv.foldlM {f : GcState ν → ν → Option (GcState ν)}
    (hf : ∀ {t t' : GcState ν} {c : ν}, ScanInv H R base t → c ∈ R → f t c = some t' →
      ScanInv H R base t' ∧ Scanned H R t t' ∧ t'.color c ≠ .gray)
    {l : List ν} {t t' : GcState ν} (ht : ScanInv H R base t) (hl : ∀ c ∈ l, c ∈ R)
    (hrun : l.foldlM f t = some t') :
    ScanInv H R base t' ∧ Scanned H R t t' ∧ ∀ c ∈ l, t'.color c ≠ .gray := by
  induction l generalizing t with
  | nil =>
    obtain rfl := Option.some.inj hrun
    exact ⟨ht, .refl t, nofun⟩
  | cons c l ih =>
    rw [List.foldlM_cons] at hrun
    obtain ⟨t₁, h₁, hrun⟩ := Option.bind_eq_some_iff.mp hrun
    obtain ⟨hinv₁, hsc₁, hc₁⟩ := hf ht (hl c List.mem_cons_self) h₁
    obtain ⟨hinv₂, hsc₂, hl₂⟩ := ih hinv₁ (fun x hx => hl x (List.mem_cons_of_mem _ hx)) hrun
    refine ⟨hinv₂, hsc₁.trans hsc₂, fun x hx => ?_⟩
    rcases List.mem_cons.mp hx with rfl | hx
    · exact fun hg => hc₁ (hsc₂.gray x hg)
    · exact hl₂ x hx

include hclosed in
/-- One call of `scan`. -/
theorem ScanInv.scan {s s' : GcState ν} (h : ScanInv H R base s) (hbase : ∀ x ∈ R, 0 ≤ base x)
    {fuel : Nat} {n : ν} (hn : n ∈ R) (hrun : scan H fuel s n = some s') :
    ScanInv H R base s' ∧ Scanned H R s s' ∧ s'.color n ≠ .gray := by
  induction fuel generalizing s s' n with
  | zero => exact absurd hrun nofun
  | succ fuel ih =>
    rw [Gc.scan] at hrun
    split at hrun
    · next hgray =>
      split at hrun
      -- a node with a count is alive, and what it reaches is restored
      · next hpos =>
        obtain ⟨hinv, hsc, hblack⟩ := h.scanBlack hclosed hn hgray hpos hrun
        exact ⟨hinv, hsc, by rw [hblack]; exact nofun⟩
      -- a node without one is white for now, and its children are scanned
      · next hcount =>
        obtain ⟨hinv, hsc, hch⟩ := ScanInv.foldlM (fun ht hc hrun => ih ht hc hrun)
          (h.setWhite hbase hn hgray hcount) (hclosed n hn) hrun
        have hcolor := setColor_color s n
        have hngray : s'.color n ≠ .gray := fun hg => by
          have := hsc.gray n hg
          rw [hcolor, if_pos rfl] at this
          exact absurd this nofun
        refine ⟨hinv, ⟨fun x hx => ?_, fun x hx => ?_, fun x hx => ?_, hsc.buffered,
          hsc.refcount⟩, hngray⟩
        · obtain ⟨hc, hnc⟩ := hsc.outside x hx
          rw [hcolor, if_neg fun hxn : x = n => hx (by rw [hxn]; exact hn)] at hc
          exact ⟨hc, hnc⟩
        · have hg := hsc.gray x hx
          rw [hcolor] at hg
          split at hg
          · exact absurd hg nofun
          · exact hg
        · by_cases hxn : x = n
          · rw [hxn]
            exact Or.inr ⟨hgray, hch⟩
          · have hw := hsc.white x hx
            rw [hcolor, if_neg hxn] at hw
            exact hw
    · next hngray =>
      obtain rfl := Option.some.inj hrun
      exact ⟨h, .refl s, hngray⟩

omit [DecidableEq ν] hclosed in
theorem candReach_closed {ptrs : List ν} (hR : ∀ x, x ∈ R ↔ CandReach H ptrs x) :
    ∀ x ∈ R, ∀ c ∈ H.children x, c ∈ R := by
  intro x hx c hc
  obtain ⟨r, hr, hrx⟩ := (hR x).mp hx
  exact (hR c).mpr ⟨r, hr, hrx.tail hc⟩

theorem scanInv_of_gray (hgray : ∀ x ∈ R, s.color x = .gray) (hcount : ∀ x ∈ R, nodeCount H s x = base x) :
    ScanInv H R base s := by
  refine ⟨fun x hx => Or.inl (hgray x hx), fun x hx => ?_, fun x hx h => ?_, fun x hx h => ?_⟩
  · have hempty : R.filter (fun y => s.color y = .black) = ∅ :=
      Finset.filter_eq_empty_iff.mpr fun y hy h => by
        rw [hgray y hy] at h
        exact absurd h nofun
    rw [hempty, hcount x hx, inEdges, Finset.sum_empty, add_zero]
  · rw [hgray x hx] at h
    exact absurd h nofun
  · rw [hgray x hx] at h
    exact absurd h nofun

variable {fuel : Nat}

/-- After the second pass every node of `R` is white or black, and the white ones are those that are
not live. -/
theorem scanAll_spec {s' : GcState ν} {ptrs : List ν} (hrun : ptrs.foldlM (scan H fuel) s = some s')
    (hR : ∀ x, x ∈ R ↔ CandReach H ptrs x) (hgray : ∀ x ∈ R, s.color x = .gray)
    (hcount : ∀ x ∈ R, nodeCount H s x = base x) (hbase : ∀ x ∈ R, 0 ≤ base x)
    (hout : ∀ x, x ∉ R → ∀ c ∈ H.children x, c ∈ R → 0 < base c) :
    Scanned H R s s' ∧ (∀ x ∈ R, s'.color x = .white ∨ s'.color x = .black) ∧
      (∀ x ∈ R, s'.color x = .white ↔ ¬ Live H R base x) ∧
      ∀ x ∈ R, nodeCount H s' x
        = base x + inEdges H (R.filter fun y => s'.color y = .black) x := by
  have hclosed := candReach_closed hR
  have hinit := scanInv_of_gray hgray hcount
  obtain ⟨hinv, hsc, hroots⟩ := ScanInv.foldlM (fun ht hc hrun => ht.scan hclosed hbase hc hrun)
    hinit (fun r hr => (hR r).mpr ⟨r, hr, .refl⟩) hrun
  -- No node of `R` is left gray: the candidates are not, and grayness does not start at a child.
  have hsettled : ∀ x ∈ R, s'.color x ≠ .gray := by
    intro x hx
    obtain ⟨r, hr, hrx⟩ := (hR x).mp hx
    induction hrx with
    | refl => exact hroots r hr
    | @tail y z hry hyz ih =>
      have hy : y ∈ R := (hR y).mpr ⟨r, hr, hry⟩
      rcases hinv.colors y hy with hg | hw | hb
      · exact absurd hg (ih hy)
      · rcases hsc.white y hw with hw | ⟨-, hch⟩
        · rw [hgray y hy] at hw
          exact absurd hw nofun
        · exact hch z hyz
      · rw [(hinv.black y hy hb).2 z hyz]
        exact nofun
  have htwo : ∀ x ∈ R, s'.color x = .white ∨ s'.color x = .black := fun x hx =>
    (hinv.colors x hx).resolve_left (hsettled x hx)
  have hpos : ∀ x ∈ R, 0 < base x → s'.color x = .black := by
    intro x hx hx0
    refine (htwo x hx).resolve_left fun hw => ?_
    have hnonneg := inEdges_nonneg H (R.filter fun y => s'.color y = .black) x
    have := hinv.white x hx hw
    have := hinv.count x hx
    omega
  -- A live node of `R` is black: along the path from outside every node of `R` is.
  have hlive : ∀ x ∈ R, Live H R base x → s'.color x = .black := by
    rintro x hx ⟨a, ha, hax⟩
    induction hax with
    | refl =>
      rcases ha with ha | ha
      · exact absurd hx ha
      · exact hpos a hx ha
    | @tail y z _ hyz ih =>
      by_cases hy : y ∈ R
      · exact (hinv.black y hy (ih hy)).2 z hyz
      · exact hpos z hx (hout y hy z hyz hx)
  refine ⟨hsc, htwo, fun x hx => ⟨fun hw hl => ?_, fun hnl => ?_⟩, hinv.count⟩
  · rw [hlive x hx hl] at hw
    exact absurd hw nofun
  · exact (htwo x hx).resolve_right fun hb => hnl (hinv.black x hx hb).1

/-- A depth that covers the gray nodes and one restore is enough. -/
theorem ScanInv.scan_isSome [Fintype ν] (h : ScanInv H R base s)
    (hclosed : ∀ x ∈ R, ∀ c ∈ H.children x, c ∈ R) (hbase : ∀ x ∈ R, 0 ≤ base x) {n : ν}
    (hn : n ∈ R)
    (hfuel : (Finset.univ.filter fun x => s.color x = .gray).card + Fintype.card ν + 1 < fuel) :
    ∃ s', Gc.scan H fuel s n = some s' := by
  induction fuel generalizing s n with
  | zero => omega
  | succ fuel ih =>
    rw [Gc.scan]
    split
    · next hgray =>
      split
      · have hle : ((blackVisitor H).openSet s).card ≤ Fintype.card ν := Finset.card_le_univ _
        have hdepth : ((blackVisitor H).openSet s).card < fuel := by omega
        obtain ⟨s', hs'⟩ := Visitor.visit_isSome (blackVisitor_lawful H) n hdepth
        exact ⟨s', scanBlack_of_visit H (by rw [hgray]; exact nofun) hs'⟩
      · next hcount =>
        have hlt : (Finset.univ.filter fun x => (s.setColor n .white).color x = .gray).card
            < (Finset.univ.filter fun x => s.color x = .gray).card := by
          refine Finset.card_lt_card ((Finset.ssubset_iff_of_subset ?_).mpr ⟨n, ?_, ?_⟩)
          · intro x hx
            simp only [Finset.mem_filter, Finset.mem_univ, true_and, setColor_color] at hx ⊢
            split at hx
            · exact absurd hx nofun
            · exact hx
          · simpa using hgray
          · simp [setColor_color]
        -- Gray nodes only become fewer along the children.
        have hfold : ∀ (l : List ν) (t : GcState ν), (∀ c ∈ l, c ∈ R) → ScanInv H R base t →
            (Finset.univ.filter fun x => t.color x = .gray).card + Fintype.card ν + 1 < fuel →
              ∃ t', l.foldlM (fun s c => Gc.scan H fuel s c) t = some t' := by
          intro l
          induction l with
          | nil => exact fun t _ _ _ => ⟨t, rfl⟩
          | cons c l ihl =>
            intro t hl ht hfuel
            obtain ⟨t₁, h₁⟩ := ih ht (hl c List.mem_cons_self) hfuel
            obtain ⟨hinv₁, hsc₁, -⟩ := ht.scan hclosed hbase (hl c List.mem_cons_self) h₁
            have hle : (Finset.univ.filter fun x => t₁.color x = .gray).card
                ≤ (Finset.univ.filter fun x => t.color x = .gray).card := by
              refine Finset.card_le_card fun x hx => ?_
              simp only [Finset.mem_filter, Finset.mem_univ, true_and] at hx ⊢
              exact hsc₁.gray x hx
            obtain ⟨t₂, h₂⟩ :=
              ihl t₁ (fun x hx => hl x (List.mem_cons_of_mem _ hx)) hinv₁ (by omega)
            exact ⟨t₂, by rw [List.foldlM_cons, h₁]; exact h₂⟩
        exact hfold _ _ (hclosed n hn) (h.setWhite hbase hn hgray hcount) (by omega)
    · exact ⟨s, rfl⟩

theorem ScanInv.scanAll_isSome [Fintype ν] (h : ScanInv H R base s)
    (hclosed : ∀ x ∈ R, ∀ c ∈ H.children x, c ∈ R) (hbase : ∀ x ∈ R, 0 ≤ base x)
    (hfuel : 2 * Fintype.card ν + 1 < fuel) (l : List ν) (hl : ∀ c ∈ l, c ∈ R) :
    ∃ s', l.foldlM (Gc.scan H fuel) s = some s' := by
  induction l generalizing s with
  | nil => exact ⟨s, rfl⟩
  | cons c l ih =>
    have hle : (Finset.univ.filter fun x => s.color x = .gray).card ≤ Fintype.card ν :=
      Finset.card_le_univ _
    have hdepth : (Finset.univ.filter fun x => s.color x = .gray).card + Fintype.card ν + 1
        < fuel := by omega
    obtain ⟨s₁, h₁⟩ := h.scan_isSome hclosed hbase (hl c List.mem_cons_self) hdepth
    obtain ⟨hinv₁, -, -⟩ := h.scan hclosed hbase (hl c List.mem_cons_self) h₁
    obtain ⟨s₂, h₂⟩ := ih hinv₁ fun x hx => hl x (List.mem_cons_of_mem _ hx)
    exact ⟨s₂, by rw [List.foldlM_cons, h₁]; exact h₂⟩

end Scan

/-! ## The third pass -/

theorem white_run (tr : List (Event ν)) (s : GcState ν) (white : List ν) :
    (∀ x, ((whiteVisitor H).run (s, white) tr).1.color x
        = if x ∈ entered tr then .black else s.color x) ∧
      ((whiteVisitor H).run (s, white) tr).1
        = { s with color := ((whiteVisitor H).run (s, white) tr).1.color } ∧
      ((whiteVisitor H).run (s, white) tr).2 = white ++ left tr := by
  induction tr generalizing s white with
  | nil => exact ⟨fun x => rfl, rfl, (List.append_nil white).symm⟩
  | cons e tr ih =>
    cases e with
    | enter n =>
      obtain ⟨hcolor, hsame, hlist⟩ := ih (s.setColor n .black) white
      refine ⟨fun x => ?_, hsame, hlist⟩
      refine (hcolor x).trans ?_
      rw [setColor_color, show entered (.enter n :: tr) = n :: entered tr from rfl]
      by_cases hx : x = n <;> by_cases htr : x ∈ entered tr <;> simp [hx, htr]
    | edge c => exact ih s white
    | leave n =>
      obtain ⟨hcolor, hsame, hlist⟩ := ih s (white ++ [n])
      refine ⟨hcolor, hsame, hlist.trans ?_⟩
      rw [show left (.leave n :: tr) = n :: left tr from rfl, List.append_assoc]
      rfl

/-- The third pass lists the white nodes of `R`, each once, and paints them black. -/
theorem collectAll_spec {fuel : Nat} {s s' : GcState ν} {ptrs white : List ν} {R : Finset ν}
    (hrun : ptrs.foldlM (collectWhite H fuel) (s, []) = some (s', white))
    (hR : ∀ x, x ∈ R ↔ CandReach H ptrs x) (hbuf : ∀ x, s.buffered x = false)
    (hpred : ∀ y ∈ R, ∀ x ∈ H.children y, s.color x = .white → s.color y = .white) :
    white.Nodup ∧ (∀ x ∈ R, x ∈ white ↔ s.color x = .white) ∧ (∀ x ∈ white, x ∈ R) ∧
      (∀ x, s'.color x = if x ∈ white then .black else s.color x) ∧
      s' = { s with color := s'.color } := by
  rw [collectWhite_eq_visit] at hrun
  obtain ⟨tr, hend, htr⟩ := Visitor.visitAll_explores (whiteVisitor_lawful H) hrun
  obtain ⟨hcolor, hsame, hlist⟩ := white_run H tr s []
  rw [← hend] at hcolor hsame hlist
  rw [List.nil_append] at hlist
  have hmem : ∀ x, x ∈ white ↔ x ∈ entered tr := fun x => by
    rw [show white = left tr from hlist]
    exact htr.left_perm.mem_iff
  have hopen : ∀ x, (whiteVisitor H).opens (s, []) x = true ↔ s.color x = .white := fun x => by
    simp [whiteVisitor, hbuf x]
  have hentered : ∀ x, s.color x = .white →
      ¬ (whiteVisitor H).opens ((whiteVisitor H).run (s, []) tr) x = true → x ∈ entered tr := by
    intro x hx hclosed
    by_contra hnot
    exact hclosed ((htr.opens_iff x).mpr ⟨(hopen x).mpr hx, hnot⟩)
  refine ⟨?_, fun x hx => ?_, fun x hx => ?_, fun x => ?_, hsame⟩
  · rw [show white = left tr from hlist]
    exact htr.left_perm.nodup_iff.mpr htr.nodup
  · rw [hmem]
    constructor
    · exact fun h => (hopen x).mp (htr.opened x h)
    · intro hw
      -- The whole path from the candidate is white.
      obtain ⟨r, hr, hrx⟩ := (hR x).mp hx
      clear hx
      induction hrx with
      | refl => exact hentered r hw (htr.seen r hr)
      | @tail y z hry hyz ih =>
        have hy := hpred y ((hR y).mpr ⟨r, hr, hry⟩) z hyz hw
        exact hentered z hw (htr.closed y (ih hy) z hyz)
  · rw [hmem] at hx
    exact (hR x).mpr (htr.reach x hx)
  · rw [hcolor]
    simp only [hmem]

end ShapeLang.Gc
