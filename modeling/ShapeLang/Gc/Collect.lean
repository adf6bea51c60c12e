import ShapeLang.Gc.TrialDeletion

/-!
# ShapeLang — what a collection without closure values frees

Trial deletion from candidates, in terms of the heap alone. A node is *anchored* when something the
passes cannot see may hold it: an external reference, a reference that tracing skips, or a node that no
candidate reaches. The white nodes are those that candidates reach and no anchored node does.

Nothing but the candidates is visited, so garbage that no candidate reaches anchors what it points to.

  * `trialDelete_spec` — the passes end; the white nodes and the counts they leave;
  * `collect_cycles_exact` — on a heap of header carriers, what is freed, once each, and the counts and
    colours of what is left.
-/

namespace ShapeLang.Gc

open Dfs

variable {ν : Type} [DecidableEq ν] [Fintype ν] {H : Heap ν} {ext : ν → Nat} {s : GcState ν}
  {ptrs : List ν}

/-! ## Consistent heaps -/

/-- The heap before a collection. `ext` counts the references from outside the heap. -/
structure Consistent (H : Heap ν) (ext : ν → Nat) (s : GcState ν) (ptrs : List ν) : Prop where
  counted : ∀ n, s.refcount n = ext n + ∑ x, (H.owned x).count n
  colors : ∀ n, s.color n = .black ∨ s.color n = .purple
  buffered : ∀ n, s.buffered n = true → n ∈ ptrs
  roots : ∀ r ∈ ptrs, (H.kind r).isHeader = true
  unseeded : ∀ n, s.seeded n = false
  /-- There are fewer edges than the seed that stands for an unread strong count. -/
  bounded : ∀ n, (H.kind n).isSentinel = true → ∑ x, (H.children x).count n < 2147483647

/-- Something the passes cannot see may hold the node. -/
def Anchor (H : Heap ν) (ext : ν → Nat) (ptrs : List ν) (a : ν) : Prop :=
  0 < ext a ∨ (∃ x, a ∈ H.untraced x) ∨ (H.kind a).isSentinel = true ∨ ¬ CandReach H ptrs a

/-- What the passes find to be garbage. -/
def Garbage (H : Heap ν) (ext : ν → Nat) (ptrs : List ν) (n : ν) : Prop :=
  CandReach H ptrs n ∧ ¬ ∃ a, Anchor H ext ptrs a ∧ H.Reaches a n

omit [Fintype ν] in
theorem count_owned (x n : ν) :
    (H.owned x).count n = (H.children x).count n + (H.untraced x).count n := by
  unfold Heap.owned Heap.children Heap.untraced
  split
  · rw [List.count_append]
  · rw [List.count_nil, Nat.zero_add]

/-- The references to a node that tracing skips. -/
def untracedCount (H : Heap ν) (n : ν) : Nat := ∑ x, (H.untraced x).count n

theorem untracedCount_pos_iff {n : ν} : 0 < untracedCount H n ↔ ∃ x, n ∈ H.untraced x := by
  rw [untracedCount, Finset.sum_pos_iff_of_nonneg fun _ _ => Nat.zero_le _]
  simp [List.count_pos_iff]

theorem inEdges_compl (R : Finset ν) (n : ν) :
    inEdges H Finset.univ n = inEdges H R n + inEdges H Rᶜ n := by
  unfold inEdges
  exact (Finset.sum_add_sum_compl R _).symm

theorem Consistent.refcount_eq (h : Consistent H ext s ptrs) (n : ν) :
    s.refcount n = ext n + untracedCount H n + inEdges H Finset.univ n := by
  rw [h.counted, untracedCount, inEdges]
  simp only [count_owned, Finset.sum_add_distrib]
  push_cast
  omega

/-- What the first pass leaves on a node. -/
def baseCount (H : Heap ν) (s : GcState ν) (R : Finset ν) (n : ν) : Int :=
  trial H s n - inEdges H R n

theorem Consistent.baseCount_eq (h : Consistent H ext s ptrs) (R : Finset ν) {n : ν}
    (hn : (H.kind n).isSentinel = false) :
    baseCount H s R n = ext n + untracedCount H n + inEdges H Rᶜ n := by
  have htrial : trial H s n = s.refcount n := by
    simp [trial, h.unseeded, arcStrongCountSeed, hn]
  rw [baseCount, htrial, h.refcount_eq, inEdges_compl R]
  omega

theorem Consistent.baseCount_sentinel (h : Consistent H ext s ptrs) (R : Finset ν) {n : ν}
    (hn : (H.kind n).isSentinel = true) : 0 < baseCount H s R n := by
  have hheader : (H.kind n).isHeader = false := by
    cases hk : H.kind n with
    | arcContainer => rfl
    | _ => simp [hk, NodeKind.isSentinel] at hn
  have htrial : trial H s n = 2147483647 := by
    simp [trial, h.unseeded, arcStrongCountSeed, hn, hheader]
  have hle : inEdges H R n ≤ ∑ x, ((H.children x).count n : Int) :=
    Finset.sum_le_sum_of_subset_of_nonneg (Finset.subset_univ R) fun _ _ _ => Int.natCast_nonneg _
  have hlt : ((∑ x, (H.children x).count n : Nat) : Int) < 2147483647 := by
    exact_mod_cast h.bounded n hn
  push_cast at hlt
  rw [baseCount, htrial]
  omega

theorem Consistent.baseCount_nonneg (h : Consistent H ext s ptrs) (R : Finset ν) (n : ν) :
    0 ≤ baseCount H s R n := by
  cases hn : (H.kind n).isSentinel with
  | false =>
    have := inEdges_nonneg H Rᶜ n
    rw [h.baseCount_eq R hn]
    omega
  | true => exact (h.baseCount_sentinel R hn).le

/-- Live, as the second pass computes it, is reached from an anchor. -/
theorem Consistent.live_iff (h : Consistent H ext s ptrs) {R : Finset ν}
    (hR : ∀ x, x ∈ R ↔ CandReach H ptrs x) (n : ν) :
    Live H R (baseCount H s R) n ↔ ∃ a, Anchor H ext ptrs a ∧ H.Reaches a n := by
  constructor
  · rintro ⟨a, ha | ha, han⟩
    · exact ⟨a, Or.inr (Or.inr (Or.inr fun hc => ha ((hR a).mpr hc))), han⟩
    · cases hs : (H.kind a).isSentinel with
      | true => exact ⟨a, Or.inr (Or.inr (Or.inl hs)), han⟩
      | false =>
        rw [h.baseCount_eq R hs] at ha
        by_cases hext : 0 < ext a
        · exact ⟨a, Or.inl hext, han⟩
        · by_cases hun : 0 < untracedCount H a
          · exact ⟨a, Or.inr (Or.inl (untracedCount_pos_iff.mp hun)), han⟩
          · -- An edge from a node that no candidate reaches.
            obtain ⟨y, hy, hay⟩ := (inEdges_pos_iff H (A := Rᶜ) (m := a)).mp (by omega)
            rw [Finset.mem_compl, hR] at hy
            exact ⟨y, Or.inr (Or.inr (Or.inr hy)), .head hay han⟩
  · rintro ⟨a, ha, han⟩
    refine ⟨a, ?_, han⟩
    by_cases haR : a ∈ R
    · right
      have hnonneg := inEdges_nonneg H Rᶜ a
      cases hs : (H.kind a).isSentinel with
      | true => exact h.baseCount_sentinel R hs
      | false =>
        rw [h.baseCount_eq R hs]
        rcases ha with hext | hun | hsen | hcand
        · omega
        · have := untracedCount_pos_iff.mpr hun
          omega
        · rw [hs] at hsen
          exact absurd hsen nofun
        · exact absurd ((hR a).mp haR) hcand
    · exact Or.inl haR

/-! ## The passes together -/

omit [Fintype ν] in
theorem foldl_clearBuffered (ptrs : List ν) (s : GcState ν) :
    ptrs.foldl GcState.clearBuffered s
      = { s with buffered := fun n => if n ∈ ptrs then false else s.buffered n } := by
  induction ptrs generalizing s with
  | nil => simp
  | cons r ptrs ih =>
    rw [List.foldl_cons, ih, GcState.clearBuffered]
    congr 1
    funext n
    by_cases hn : n ∈ ptrs <;> by_cases hr : n = r <;> simp [hn, hr]

/-- The passes end, list the garbage, each node once, and take its edges off the counts. -/
theorem trialDelete_spec (h : Consistent H ext s ptrs) {fuel : Nat}
    (hfuel : 2 * Fintype.card ν + 1 < fuel) : ∃ s' white,
      trialDelete H fuel s ptrs = some (s', white) ∧ white.Nodup ∧
      (∀ n, n ∈ white ↔ Garbage H ext ptrs n) ∧
      (∀ n, (CandReach H ptrs n → s'.color n = .black) ∧
        (¬ CandReach H ptrs n → s'.color n = s.color n)) ∧
      (∀ n, (H.kind n).isHeader = true →
        s'.refcount n = ext n + untracedCount H n + inEdges H (white.toFinset)ᶜ n) ∧
      ∀ n, (H.kind n).isHeader = false → s'.refcount n = s.refcount n := by
  classical
  obtain ⟨R, hR⟩ : ∃ R : Finset ν, ∀ x, x ∈ R ↔ CandReach H ptrs x :=
    ⟨Finset.univ.filter (CandReach H ptrs), fun x => by simp⟩
  have hclosed := candReach_closed hR
  have hbase : ∀ x ∈ R, 0 ≤ baseCount H s R x := fun x _ => h.baseCount_nonneg R x
  have hcolors : ∀ n, s.color n ≠ .gray ∧ s.color n ≠ .white := by
    intro n
    rcases h.colors n with hn | hn <;> rw [hn] <;> exact ⟨nofun, nofun⟩
  -- First pass.
  obtain ⟨s₁, hrun₁⟩ := Visitor.visitAll_isSome (markVisitor_lawful H)
    (show Fintype.card ν < fuel by omega) ptrs s
  rw [← markGray_eq_visit] at hrun₁
  obtain ⟨hcolor₁, hbuf₁, htrial₁, hcount₁, hrc₁⟩ := markAll_spec H hrun₁ (fun n => (hcolors n).1)
    h.roots hR (fun m => by
      have := h.baseCount_nonneg R m
      rw [baseCount] at this
      omega)
  have hgray₁ : ∀ x ∈ R, s₁.color x = .gray := fun x hx => by rw [hcolor₁, if_pos hx]
  have hbase₁ : ∀ x ∈ R, nodeCount H s₁ x = baseCount H s R x := fun x hx => by
    rw [hcount₁ x hx, htrial₁, baseCount]
  -- Second pass.
  have hout : ∀ x, x ∉ R → ∀ c ∈ H.children x, c ∈ R → 0 < baseCount H s R c := by
    intro x hx c hc _
    have hpos := (inEdges_pos_iff H).mpr ⟨x, Finset.mem_compl.mpr hx, hc⟩
    cases hs : (H.kind c).isSentinel with
    | true => exact h.baseCount_sentinel R hs
    | false =>
      rw [h.baseCount_eq R hs]
      omega
  obtain ⟨s₂, hrun₂⟩ := (scanInv_of_gray hgray₁ hbase₁).scanAll_isSome hclosed hbase hfuel ptrs
    fun r hr => (hR r).mpr ⟨r, hr, .refl⟩
  obtain ⟨hsc, htwo, hwhite, hcount₂⟩ := scanAll_spec hrun₂ hR hgray₁ hbase₁ hbase hout
  -- Third pass.
  have hbuf₃ : ∀ x, (ptrs.foldl GcState.clearBuffered s₂).buffered x = false := by
    intro x
    rw [foldl_clearBuffered]
    show (if x ∈ ptrs then false else s₂.buffered x) = false
    split
    · rfl
    · next hx =>
      rw [hsc.buffered, hbuf₁]
      exact Bool.eq_false_iff.mpr fun hb => hx (h.buffered x hb)
  have hcolor₃ : (ptrs.foldl GcState.clearBuffered s₂).color = s₂.color := by
    rw [foldl_clearBuffered]
  have hrc₃ : (ptrs.foldl GcState.clearBuffered s₂).refcount = s₂.refcount := by
    rw [foldl_clearBuffered]
  obtain ⟨⟨s₄, white⟩, hrun₃⟩ := Visitor.visitAll_isSome (whiteVisitor_lawful H)
    (show Fintype.card ν < fuel by omega) ptrs (ptrs.foldl GcState.clearBuffered s₂, [])
  rw [← collectWhite_eq_visit] at hrun₃
  have hpred : ∀ y ∈ R, ∀ x ∈ H.children y,
      (ptrs.foldl GcState.clearBuffered s₂).color x = .white →
        (ptrs.foldl GcState.clearBuffered s₂).color y = .white := by
    rw [hcolor₃]
    intro y hy x hx hxw
    rw [hwhite y hy]
    exact fun hl => (hwhite x (hclosed y hy x hx)).mp hxw (hl.reaches (.single hx))
  obtain ⟨hnd, hmem, hsub, hcolor₄, hsame⟩ := collectAll_spec H hrun₃ hR hbuf₃ hpred
  rw [hcolor₃] at hmem hcolor₄
  have hrc₄ : s₄.refcount = s₂.refcount := by
    rw [hsame]
    exact hrc₃
  refine ⟨s₄, white, ?_, hnd, fun n => ?_, fun n => ⟨fun hn => ?_, fun hn => ?_⟩, fun n hn => ?_,
    fun n hn => ?_⟩
  · rw [trialDelete, hrun₁, Option.bind_eq_bind, Option.bind_some, hrun₂]
    exact hrun₃
  · constructor
    · intro hn
      have hnR := hsub n hn
      exact ⟨(hR n).mp hnR, fun hanchor =>
        (hwhite n hnR).mp ((hmem n hnR).mp hn) ((h.live_iff hR n).mpr hanchor)⟩
    · rintro ⟨hcand, hnot⟩
      have hnR := (hR n).mpr hcand
      exact (hmem n hnR).mpr ((hwhite n hnR).mpr fun hl => hnot ((h.live_iff hR n).mp hl))
  · have hnR := (hR n).mpr hn
    rw [hcolor₄]
    split
    · rfl
    · next hnw => exact (htwo n hnR).resolve_left fun hw => hnw ((hmem n hnR).mpr hw)
  · have hnR : n ∉ R := fun hnR => hn ((hR n).mp hnR)
    rw [hcolor₄, if_neg fun hnw => hnR (hsub n hnw), (hsc.outside n hnR).1, hcolor₁, if_neg hnR]
  · -- The count is what came from outside `R` and the edges from black nodes of `R`.
    have hsen : (H.kind n).isSentinel = false := by
      cases hk : H.kind n with
      | arcContainer => simp [hk, NodeKind.isHeader] at hn
      | _ => rfl
    have hheader : ∀ t : GcState ν, nodeCount H t n = t.refcount n := fun t => by
      rw [nodeCount, if_pos hn]
    have hcompl : inEdges H (white.toFinset)ᶜ n
        = inEdges H Rᶜ n + inEdges H (R.filter fun y => s₂.color y = .black) n := by
      have hunion : (white.toFinset)ᶜ = Rᶜ ∪ R.filter fun y => s₂.color y = .black := by
        ext y
        simp only [Finset.mem_compl, List.mem_toFinset, Finset.mem_union, Finset.mem_filter]
        constructor
        · intro hy
          by_cases hyR : y ∈ R
          · exact Or.inr ⟨hyR, (htwo y hyR).resolve_left fun hw => hy ((hmem y hyR).mpr hw)⟩
          · exact Or.inl hyR
        · rintro (hy | ⟨hyR, hb⟩) hin
          · exact hy (hsub y hin)
          · rw [(hmem y hyR).mp hin] at hb
            cases hb
      rw [hunion]
      refine Finset.sum_union (Finset.disjoint_left.mpr fun y hy hy' => ?_)
      exact Finset.mem_compl.mp hy (Finset.mem_filter.mp hy').1
    rw [hrc₄, ← hheader s₂, hcompl]
    by_cases hnR : n ∈ R
    · rw [hcount₂ n hnR, h.baseCount_eq R hsen]
      omega
    · have hzero : inEdges H (R.filter fun y => s₂.color y = .black) n = 0 :=
        inEdges_eq_zero H fun y hy hny => hnR (hclosed y (Finset.mem_filter.mp hy).1 n hny)
      have htr : trial H s₁ n = nodeCount H s₁ n := by rw [hheader, trial, if_pos hn]
      rw [(hsc.outside n hnR).2, ← htr, htrial₁, ← baseCount, h.baseCount_eq R hsen, hzero]
      omega
  · rw [hrc₄, hsc.refcount n hn, hrc₁ n hn]

/-! ## Without closure values -/

omit [DecidableEq ν] [Fintype ν] in
theorem not_closureValue_of_header {n : ν} (hn : (H.kind n).isHeader = true) :
    (H.kind n).isClosureValue = false := by
  cases hk : H.kind n with
  | closureValue => simp [hk, NodeKind.isHeader] at hn
  | _ => rfl

omit [DecidableEq ν] [Fintype ν] in
/-- A node given back as raw memory owned nothing that tracing skips. -/
theorem untraced_eq_nil {n : ν} (hn : (H.kind n).isFreed = true) (hb : H.kind n ≠ .closureBlock) :
    H.untraced n = [] := by
  have hboxed := H.boxed_of_ne n hb
  have hleaf := H.slots_leaf n
  unfold Heap.untraced
  cases hk : H.kind n <;> simp_all [NodeKind.isFreed, NodeKind.isTraced, NodeKind.isLeaf]

omit [DecidableEq ν] [Fintype ν] in
/-- A header carrier that is not given back has no traced children. -/
theorem children_eq_nil {n : ν} (hn : (H.kind n).isHeader = true) (hf : (H.kind n).isFreed = false) :
    H.children n = [] := by
  unfold Heap.children
  cases hk : H.kind n <;> simp_all [NodeKind.isFreed, NodeKind.isTraced, NodeKind.isHeader]

/-- On a heap of header carriers without closures a collection frees exactly the garbage of the kinds it
frees, each node once. What is left has the references of what is left, and is black where candidates
reach it. -/
theorem collect_cycles_exact (H : Heap ν) (ext : ν → Nat) (s : GcState ν) (ptrs : List ν)
    (h : Consistent H ext s ptrs)
    (hcarriers : ∀ n, (H.kind n).isHeader = true ∧ H.kind n ≠ .closureBlock) (fuel : Nat)
    (hfuel : 2 * Fintype.card ν + 1 < fuel) :
    ∃ out, collectCycles H fuel s ptrs = some out ∧ out.freed.Nodup ∧ out.stale = [] ∧
      out.reclaimed = out.freed.length ∧
      (∀ n, n ∈ out.freed ↔ (H.kind n).isFreed = true ∧ Garbage H ext ptrs n) ∧
      ∀ n, n ∉ out.freed →
        (CandReach H ptrs n → out.state.color n = .black) ∧
        (¬ CandReach H ptrs n → out.state.color n = s.color n) ∧
        out.state.refcount n = ext n + ∑ x with x ∉ out.freed, (H.owned x).count n := by
  by_cases hptrs : ptrs = []
  · subst hptrs
    have hnone : ∀ n, ¬ CandReach H [] n := fun n ⟨r, hr, _⟩ => absurd hr List.not_mem_nil
    refine ⟨⟨s, [], [], []⟩, rfl, List.nodup_nil, rfl, rfl, fun n => ?_, fun n _ => ?_⟩
    · exact ⟨fun hn => absurd hn List.not_mem_nil, fun hn => absurd hn.2.1 (hnone n)⟩
    · refine ⟨fun hn => absurd hn (hnone n), fun _ => rfl, ?_⟩
      simpa using h.counted n
  · obtain ⟨s', white, hrun, hnd, hwhite, hcolor, hrc, -⟩ := trialDelete_spec h hfuel
    have hvalue : white.any (fun n => (H.kind n).isClosureValue) = false := by
      rw [List.any_eq_false]
      exact fun n _ => by simp [not_closureValue_of_header (hcarriers n).1]
    refine ⟨⟨s'.clearSide H, white.filter fun n => (H.kind n).isFreed, [],
      white.filter fun n => (H.kind n).isFreed⟩, ?_, hnd.filter _, rfl, rfl, fun n => ?_, fun n hn => ?_⟩
    · rw [collectCycles, if_neg hptrs, hrun, Option.bind_eq_bind, Option.bind_some]
      simp only [hvalue]
      rfl
    · rw [List.mem_filter, hwhite, and_comm]
    · have hside : (s'.clearSide H).color n = s'.color n := if_pos (hcarriers n).1
      refine ⟨fun hc => hside.trans ((hcolor n).1 hc), fun hc => hside.trans ((hcolor n).2 hc), ?_⟩
      show s'.refcount n = _
      rw [hrc n (hcarriers n).1]
      simp only [count_owned, Finset.sum_add_distrib]
      -- A white node that stays has no children; one that goes owned nothing untraced.
      have hchildren : (∑ x with x ∉ white.filter (fun n => (H.kind n).isFreed),
          (H.children x).count n : Int) = inEdges H (white.toFinset)ᶜ n := by
        refine (Finset.sum_subset (fun x hx => ?_) fun x hx hnot => ?_).symm
        · simp only [Finset.mem_compl, List.mem_toFinset] at hx
          simp [hx]
        · simp only [Finset.mem_compl, List.mem_toFinset, not_not] at hnot
          simp only [Finset.mem_filter, Finset.mem_univ, true_and, List.mem_filter, hnot] at hx
          rw [children_eq_nil (hcarriers x).1 (by simpa using hx)]
          rfl
      have huntraced : (∑ x with x ∉ white.filter (fun n => (H.kind n).isFreed),
          (H.untraced x).count n) = untracedCount H n := by
        refine Finset.sum_subset (Finset.subset_univ _) fun x _ hnot => ?_
        simp only [Finset.mem_filter, Finset.mem_univ, true_and, List.mem_filter, not_not] at hnot
        rw [untraced_eq_nil hnot.2 (hcarriers x).2]
        rfl
      push_cast
      rw [hchildren, ← huntraced]
      push_cast
      omega

/-! ### Two small heaps -/

/-- A heap of typed objects with the given fields. -/
def objectHeap {ν : Type} (fields : ν → List ν) : Heap ν where
  kind _ := .typedObject
  slots := fields
  boxed _ := []
  slots_leaf _ h := absurd h nofun
  boxed_of_ne _ _ := rfl

def countedState (refcount : Fin 2 → Int) (ptrs : List (Fin 2)) : GcState (Fin 2) where
  color _ := .black
  buffered n := n ∈ ptrs
  refcount := refcount
  shadow _ := 0
  seeded _ := false

/-- Two objects that hold each other. -/
def pairFields : Fin 2 → List (Fin 2)
  | 0 => [1]
  | 1 => [0]

theorem collect_cycles_exact_pair :
    ∃ out, collectCycles (objectHeap pairFields) 6 (countedState (fun _ => 1) [0]) [0] = some out ∧
      out.freed.Nodup ∧ ∀ n, n ∈ out.freed ↔
        ((objectHeap pairFields).kind n).isFreed = true ∧
          Garbage (objectHeap pairFields) (fun _ => 0) [0] n := by
  have hcons : Consistent (objectHeap pairFields) (fun _ => 0) (countedState (fun _ => 1) [0]) [0] :=
    ⟨by decide, fun _ => Or.inl rfl, by decide, by decide, fun _ => rfl, by decide⟩
  obtain ⟨out, hrun, hnd, -, -, hfreed, -⟩ :=
    collect_cycles_exact _ _ _ _ hcons (fun _ => ⟨rfl, nofun⟩) 6 (by decide)
  exact ⟨out, hrun, hnd, hfreed⟩

/-- An object that holds itself and another one; only the other one is a candidate. -/
def loopFields : Fin 2 → List (Fin 2)
  | 0 => [0, 1]
  | 1 => []

/-- Garbage that no candidate reaches keeps the candidate it points to: nothing is freed, although
the candidate is not reachable from any externally held node. -/
theorem collect_cycles_spares_candidate :
    Consistent (objectHeap loopFields) (fun _ => 0) (countedState (fun _ => 1) [1]) [1] ∧
      ∃ out, collectCycles (objectHeap loopFields) 6 (countedState (fun _ => 1) [1]) [1] = some out ∧
        ¬ ∀ n, n ∈ out.freed ↔ CandReach (objectHeap loopFields) [1] n ∧
          ¬ ∃ a, 0 < (fun _ => 0 : Fin 2 → Nat) a ∧ (objectHeap loopFields).Reaches a n := by
  refine ⟨⟨by decide, fun _ => Or.inl rfl, by decide, by decide, fun _ => rfl, by decide⟩, ?_⟩
  have hsome : ∃ out, collectCycles (objectHeap loopFields) 6 (countedState (fun _ => 1) [1]) [1]
      = some out ∧ out.freed = [] := ⟨_, rfl, by decide⟩
  obtain ⟨out, hrun, hfreed⟩ := hsome
  refine ⟨out, hrun, fun hall => ?_⟩
  have hmem : (1 : Fin 2) ∈ out.freed := (hall 1).mpr
    ⟨⟨1, List.mem_singleton_self 1, .refl⟩, fun ⟨a, ha, _⟩ => absurd ha (Nat.lt_irrefl 0)⟩
  rw [hfreed] at hmem
  exact absurd hmem List.not_mem_nil

end ShapeLang.Gc
