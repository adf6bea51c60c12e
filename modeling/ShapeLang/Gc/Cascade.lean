import ShapeLang.Gc.Collect

/-!
# ShapeLang — collections that tear down closure values

When a closure value is among the garbage, the collector restores the counts of all white nodes, zeroes
the closure elements of the callable arrays that a white closure value reaches, gives the white nodes
that none reaches back as raw memory, and drops each white closure value once; the release cascade is
to do the rest.

A reference that goes without a release is *orphaned*: it stood in a node given back as raw memory, or
in a zeroed element. The cascade frees every node exactly once, and leaves the right counts, if and
only if orphaned references and extra drops balance on every node and no cycle of other references is
left among the nodes to be torn down.

  * `cascadeReachable_spec` — the nodes the white closure values reach;
  * `release_spec` — what a release cascade does to the counts, from any state: `balance` is kept, and
    a node is freed only after its owners;
  * `cascade_exact_iff` — the collection is exact if and only if the heap is `Balanced` and `Untangled`.
-/

namespace ShapeLang.Gc

variable {ν : Type} [DecidableEq ν] [Fintype ν] {H : Heap ν} {ext : ν → Nat} {s : GcState ν}
  {ptrs : List ν}

/-! ## The nodes reached -/

section Reach

omit [Fintype ν]

/-- The inner loop pushes the children that are new. -/
theorem foldl_push (l stack reachable : List ν) (hnd : reachable.Nodup) :
    ∃ fresh : List ν,
      l.foldl (fun (p : List ν × List ν) child =>
          if child ∈ p.2 then (p.1, p.2) else (child :: p.1, p.2 ++ [child])) (stack, reachable)
        = (fresh.reverse ++ stack, reachable ++ fresh) ∧
      (reachable ++ fresh).Nodup ∧ (∀ c ∈ fresh, c ∈ l) ∧ ∀ c ∈ l, c ∈ reachable ++ fresh := by
  induction l generalizing stack reachable with
  | nil => exact ⟨[], by simp, by simpa using hnd, nofun, nofun⟩
  | cons c l ih =>
    -- a child that is known is passed over
    by_cases hc : c ∈ reachable
    · obtain ⟨fresh, hrun, hnd', hsub, hall⟩ := ih stack reachable hnd
      refine ⟨fresh, ?_, hnd', fun x hx => List.mem_cons_of_mem _ (hsub x hx), fun x hx => ?_⟩
      · rw [List.foldl_cons, if_pos hc]
        exact hrun
      · rcases List.mem_cons.mp hx with rfl | hx
        · exact List.mem_append_left _ hc
        · exact hall x hx
    · have hnd₁ : (reachable ++ [c]).Nodup := by
        rw [List.nodup_append]
        exact ⟨hnd, List.nodup_singleton c, fun a ha b hb hab =>
          hc (by rw [← List.mem_singleton.mp hb, ← hab]; exact ha)⟩
      obtain ⟨fresh, hrun, hnd', hsub, hall⟩ := ih (c :: stack) (reachable ++ [c]) hnd₁
      refine ⟨c :: fresh, ?_, by simpa using hnd', fun x hx => ?_, fun x hx => ?_⟩
      · rw [List.foldl_cons, if_neg hc, hrun]
        simp
      · rcases List.mem_cons.mp hx with rfl | hx
        · exact List.mem_cons_self
        · exact List.mem_cons_of_mem _ (hsub x hx)
      · rcases List.mem_cons.mp hx with rfl | hx
        · simp
        · simpa using hall x hx

theorem cascadeReachable_cons (fuel : Nat) (n : ν) (stack : List ν) {reachable : List ν}
    (hnd : reachable.Nodup) :
    ∃ fresh : List ν,
      cascadeReachable H (fuel + 1) (n :: stack) reachable
        = cascadeReachable H fuel (fresh.reverse ++ stack) (reachable ++ fresh) ∧
      (reachable ++ fresh).Nodup ∧ (∀ c ∈ fresh, c ∈ H.children n) ∧
      ∀ c ∈ H.children n, c ∈ reachable ++ fresh := by
  obtain ⟨fresh, hrun, hfacts⟩ := foldl_push (H.children n) stack reachable hnd
  refine ⟨fresh, ?_, hfacts⟩
  rw [cascadeReachable]
  simp only [hrun]

theorem cascadeReachable_nil (fuel : Nat) (reachable : List ν) :
    cascadeReachable H fuel [] reachable = some reachable := by
  cases fuel <;> rfl

/-- Everything found is a seed or on a path from one, and what is off the stack has been expanded. -/
theorem cascadeReachable_inv {seeds : List ν} {fuel : Nat} {stack reachable result : List ν}
    (hrun : cascadeReachable H fuel stack reachable = some result) (hnd : reachable.Nodup)
    (hseeds : ∀ c ∈ seeds, c ∈ reachable) (hfrom : ∀ x ∈ reachable, CandReach H seeds x)
    (hsub : ∀ x ∈ stack, x ∈ reachable)
    (hstack : ∀ x ∈ reachable, x ∈ stack ∨ ∀ c ∈ H.children x, c ∈ reachable) :
    ∀ x, x ∈ result ↔ CandReach H seeds x := by
  induction fuel generalizing stack reachable with
  | zero =>
    cases stack with
    | nil =>
      obtain rfl := Option.some.inj hrun
      -- the stack is empty, so all that was found has been expanded: it is closed under children
      refine fun x => ⟨hfrom x, ?_⟩
      rintro ⟨c, hc, hcx⟩
      induction hcx with
      | refl => exact hseeds c hc
      | tail _ hstep ih => exact ((hstack _ ih).resolve_left List.not_mem_nil) _ hstep
    | cons n stack => exact absurd hrun nofun
  | succ fuel ih =>
    cases stack with
    | nil =>
      rw [cascadeReachable_nil, ← cascadeReachable_nil fuel] at hrun
      exact ih hrun hnd hseeds hfrom hsub hstack
    | cons n stack =>
      obtain ⟨fresh, hstep, hnd', hfresh, hall⟩ := cascadeReachable_cons (H := H) fuel n stack hnd
      rw [hstep] at hrun
      -- the node taken off the stack is expanded, and what is new goes on top
      refine ih hrun hnd' (fun c hc => List.mem_append_left _ (hseeds c hc)) (fun x hx => ?_)
        (fun x hx => ?_) (fun x hx => ?_)
      · rcases List.mem_append.mp hx with hx | hx
        · exact hfrom x hx
        · obtain ⟨r, hr, hrn⟩ := hfrom n (hsub n List.mem_cons_self)
          exact ⟨r, hr, hrn.tail (hfresh x hx)⟩
      · rcases List.mem_append.mp hx with hx | hx
        · exact List.mem_append_right _ (List.mem_reverse.mp hx)
        · exact List.mem_append_left _ (hsub x (List.mem_cons_of_mem _ hx))
      · rcases List.mem_append.mp hx with hx | hx
        · rcases hstack x hx with hx' | hx'
          · rcases List.mem_cons.mp hx' with rfl | hx'
            · exact Or.inr hall
            · exact Or.inl (List.mem_append_right _ hx')
          · exact Or.inr fun c hc => List.mem_append_left _ (hx' c hc)
        · exact Or.inl (List.mem_append_left _ (List.mem_reverse.mpr hx))

theorem cascadeReachable_isSome [Fintype ν] {fuel : Nat} {stack reachable : List ν}
    (hnd : reachable.Nodup) (hfuel : stack.length + Fintype.card ν ≤ fuel + reachable.length) :
    ∃ result, cascadeReachable H fuel stack reachable = some result := by
  induction fuel generalizing stack reachable with
  | zero =>
    have hle := hnd.length_le_card
    cases stack with
    | nil => exact ⟨reachable, rfl⟩
    | cons n stack =>
      rw [List.length_cons] at hfuel
      omega
  | succ fuel ih =>
    cases stack with
    | nil => exact ⟨reachable, rfl⟩
    | cons n stack =>
      obtain ⟨fresh, hstep, hnd', -⟩ := cascadeReachable_cons (H := H) fuel n stack hnd
      rw [hstep]
      refine ih hnd' ?_
      simp only [List.length_append, List.length_reverse, List.length_cons] at hfuel ⊢
      omega

theorem cascadeReachable_spec [Fintype ν] {fuel : Nat} {seeds : List ν} (hnd : seeds.Nodup)
    (hfuel : Fintype.card ν ≤ fuel) : ∃ result,
      cascadeReachable H fuel seeds.reverse seeds = some result ∧
        ∀ x, x ∈ result ↔ CandReach H seeds x := by
  obtain ⟨result, hrun⟩ := cascadeReachable_isSome (H := H) hnd
    (show seeds.reverse.length + Fintype.card ν ≤ fuel + seeds.length by
      rw [List.length_reverse]
      omega)
  refine ⟨result, hrun, cascadeReachable_inv hrun hnd (fun c hc => hc)
    (fun x hx => ⟨x, hx, .refl⟩) (fun x hx => List.mem_reverse.mp hx)
    (fun x hx => Or.inl (List.mem_reverse.mpr hx))⟩

end Reach

/-! ## Releasing -/

/-- The references that nodes not yet freed own. -/
def owing (H : Heap ν) (freed : List ν) (x : ν) : Int :=
  ∑ y with y ∉ freed, ((H.owned y).count x : Int)

/-- The count of a node, less the drops still to come and those that came too late. -/
def balance (H : Heap ν) (r : RcState ν) (pending : List ν) (x : ν) : Int :=
  r.refcount x - pending.count x - owing H r.freed x - r.stale.count x

theorem owing_nonneg (freed : List ν) (x : ν) : 0 ≤ owing H freed x :=
  Finset.sum_nonneg fun _ _ => Int.natCast_nonneg _

theorem owing_snoc {freed : List ν} {n : ν} (hn : n ∉ freed) (x : ν) :
    owing H freed x = (H.owned n).count x + owing H (freed ++ [n]) x := by
  have hinsert : Finset.univ.filter (fun y => y ∉ freed)
      = insert n (Finset.univ.filter fun y => y ∉ freed ++ [n]) := by
    ext y
    by_cases hy : y = n
    · simp [hy, hn]
    · simp [hy]
  rw [owing, hinsert, Finset.sum_insert (by simp)]
  rfl

omit [Fintype ν] in
theorem count_snoc_int (c m : ν) (l : List ν) :
    ((l ++ [c]).count m : Int) = l.count m + if m = c then 1 else 0 := by
  have h := count_cons_int c m []
  rw [List.count_nil] at h
  rw [List.count_append]
  push_cast
  rw [h]
  omega

/-! ### The balance, step by step -/

theorem balance_stale (r : RcState ν) (n : ν) (pending : List ν) (x : ν) :
    balance H { r with stale := r.stale ++ [n] } pending x = balance H r (n :: pending) x := by
  have h₁ := count_cons_int n x pending
  have h₂ := count_snoc_int n x r.stale
  simp only [balance]
  omega

theorem balance_drop (r : RcState ν) (n : ν) (pending : List ν) (x : ν) :
    balance H { r with refcount := Function.update r.refcount n (r.refcount n - 1) } pending x
      = balance H r (n :: pending) x := by
  have h₁ := count_cons_int n x pending
  have h₂ : Function.update r.refcount n (r.refcount n - 1) x
      = r.refcount x - if x = n then 1 else 0 := by
    rw [Function.update_apply]
    split
    · next hx => rw [hx]
    · omega
  unfold balance
  simp only [h₂]
  omega

theorem balance_free {r : RcState ν} {n : ν} (hn : n ∉ r.freed) (pending : List ν) (x : ν) :
    balance H { r with freed := r.freed ++ [n] } (H.owned n ++ pending) x = balance H r pending x := by
  have h := owing_snoc (H := H) hn x
  simp only [balance, List.count_append]
  push_cast
  omega

/-- What a cascade does. `freed` grows by the nodes whose count fell to zero; each comes after all its
owners that can still drop it. -/
structure Released (H : Heap ν) (r : RcState ν) (pending : List ν) (r' : RcState ν) (new : List ν) :
    Prop where
  freed : r'.freed = r.freed ++ new
  nodup : r'.freed.Nodup
  balanced : ∀ x, balance H r' [] x = balance H r pending x
  dead : ∀ x ∈ r.freed, r'.refcount x = r.refcount x
  zero : ∀ x ∈ new, r'.refcount x = 0
  alive : ∀ x, x ∉ r'.freed → 1 ≤ r.refcount x → 1 ≤ r'.refcount x
  stale : ∀ x ∈ r'.stale, x ∈ r.stale ∨ x ∈ r'.freed
  order : ∀ l₁ x l₂, new = l₁ ++ x :: l₂ → owing H (r.freed ++ l₁) x ≤ - balance H r pending x

theorem release_spec {fuel : Nat} {r r' : RcState ν} {pending : List ν}
    (hrun : release H fuel r pending = some r') (hnd : r.freed.Nodup) :
    ∃ new, Released H r pending r' new := by
  induction fuel generalizing r pending with
  | zero =>
    cases pending with
    | nil =>
      obtain rfl := Option.some.inj hrun
      exact ⟨[], by simp, hnd, fun _ => rfl, fun _ _ => rfl, nofun, fun _ _ h => h,
        fun _ h => Or.inl h, by simp⟩
    | cons n pending => exact absurd hrun nofun
  | succ fuel ih =>
    cases pending with
    | nil =>
      obtain rfl := Option.some.inj hrun
      exact ⟨[], by simp, hnd, fun _ => rfl, fun _ _ => rfl, nofun, fun _ _ h => h,
        fun _ h => Or.inl h, by simp⟩
    | cons n pending =>
      rw [release] at hrun
      split at hrun
      · -- a drop that comes too late
        next hn =>
        obtain ⟨new, h⟩ := ih hrun hnd
        have hbal := balance_stale (H := H) r n pending
        refine ⟨new, h.freed, h.nodup, fun x => (h.balanced x).trans (hbal x), h.dead, h.zero,
          h.alive, fun x hx => ?_, fun l₁ x l₂ hl => ?_⟩
        · rcases h.stale x hx with hx | hx
          · rcases List.mem_append.mp hx with hx | hx
            · exact Or.inl hx
            · right
              rw [List.mem_singleton.mp hx, h.freed]
              exact List.mem_append_left _ hn
          · exact Or.inr hx
        · rw [← hbal x]
          exact h.order l₁ x l₂ hl
      · next hn =>
        simp only at hrun
        split at hrun
        · -- the last share: the node goes, and drops what it owned
          next hzero =>
          have hnd₁ : (r.freed ++ [n]).Nodup := by
            rw [List.nodup_append]
            exact ⟨hnd, List.nodup_singleton n, fun a ha b hb hab =>
              hn (by rw [← List.mem_singleton.mp hb, ← hab]; exact ha)⟩
          obtain ⟨new, h⟩ := ih hrun hnd₁
          have hbal : ∀ x, balance H
              { refcount := Function.update r.refcount n (r.refcount n - 1),
                freed := r.freed ++ [n], stale := r.stale } (H.owned n ++ pending) x
              = balance H r (n :: pending) x := by
            intro x
            rw [← balance_drop r n pending x]
            have hfree := balance_free (H := H)
              (r := { r with refcount := Function.update r.refcount n (r.refcount n - 1) }) hn
            exact hfree pending x
          refine ⟨n :: new, ?_, h.nodup, fun x => (h.balanced x).trans (hbal x), fun x hx => ?_,
            fun x hx => ?_, fun x hx hpos => ?_, h.stale, fun l₁ x l₂ hl => ?_⟩
          · rw [h.freed, List.append_assoc]
            rfl
          · rw [h.dead x (List.mem_append_left _ hx)]
            exact Function.update_of_ne (fun hxn => hn (by rw [← hxn]; exact hx)) _ _
          · rcases List.mem_cons.mp hx with rfl | hx
            · rw [h.dead x (List.mem_append_right _ (List.mem_singleton_self x))]
              show Function.update r.refcount x _ x = 0
              rw [Function.update_self, hzero]
            · exact h.zero x hx
          · have hxn : x ≠ n := fun hxn => hx (by
              rw [h.freed, hxn]
              exact List.mem_append_left _ (List.mem_append_right _ (List.mem_singleton_self n)))
            refine h.alive x hx ?_
            show 1 ≤ Function.update r.refcount n _ x
            rw [Function.update_of_ne hxn]
            exact hpos
          · cases l₁ with
            | nil =>
              obtain ⟨rfl, rfl⟩ := List.cons.inj hl
              have hcount := count_cons_int n n pending
              rw [if_pos rfl] at hcount
              rw [List.append_nil]
              unfold balance
              omega
            | cons y l₁ =>
              obtain ⟨rfl, hl'⟩ := List.cons.inj hl
              have horder := h.order l₁ x l₂ hl'
              rw [hbal x] at horder
              rw [show r.freed ++ n :: l₁ = r.freed ++ [n] ++ l₁ by simp]
              exact horder
        · -- shares remain
          next hzero =>
          obtain ⟨new, h⟩ := ih hrun hnd
          have hbal := balance_drop (H := H) r n pending
          refine ⟨new, h.freed, h.nodup, fun x => (h.balanced x).trans (hbal x), fun x hx => ?_,
            h.zero, fun x hx hpos => ?_, h.stale, fun l₁ x l₂ hl => ?_⟩
          · rw [h.dead x hx]
            exact Function.update_of_ne (fun hxn => hn (by rw [← hxn]; exact hx)) _ _
          · refine h.alive x hx ?_
            show 1 ≤ Function.update r.refcount n _ x
            rw [Function.update_apply]
            split
            · next hxn =>
              rw [hxn] at hpos
              omega
            · exact hpos
          · rw [← hbal x]
            exact h.order l₁ x l₂ hl

omit [Fintype ν] in
/-- What is dropped and freed belongs to a set that contains the first drops and is closed under
ownership. -/
theorem release_within {P : ν → Prop} (hP : ∀ y, P y → ∀ x ∈ H.owned y, P x) {fuel : Nat}
    {r r' : RcState ν} {pending : List ν} (hrun : release H fuel r pending = some r')
    (hpending : ∀ x ∈ pending, P x) :
    (∀ x ∈ r'.freed, x ∈ r.freed ∨ P x) ∧ ∀ x ∈ r'.stale, x ∈ r.stale ∨ P x := by
  induction fuel generalizing r pending with
  | zero =>
    cases pending with
    | nil =>
      obtain rfl := Option.some.inj hrun
      exact ⟨fun _ h => Or.inl h, fun _ h => Or.inl h⟩
    | cons n pending => exact absurd hrun nofun
  | succ fuel ih =>
    cases pending with
    | nil =>
      obtain rfl := Option.some.inj hrun
      exact ⟨fun _ h => Or.inl h, fun _ h => Or.inl h⟩
    | cons n pending =>
      have hn := hpending n List.mem_cons_self
      have hrest : ∀ x ∈ pending, P x := fun x hx => hpending x (List.mem_cons_of_mem _ hx)
      rw [release] at hrun
      -- a drop of what is freed already is noted as stale
      split at hrun
      · obtain ⟨hfreed, hstale⟩ := ih hrun hrest
        refine ⟨hfreed, fun x hx => ?_⟩
        rcases hstale x hx with hx | hx
        · rcases List.mem_append.mp hx with hx | hx
          · exact Or.inl hx
          · exact Or.inr (by rw [List.mem_singleton.mp hx]; exact hn)
        · exact Or.inr hx
      · simp only at hrun
        -- the last share: the node is freed and what it owns is dropped before the rest
        split at hrun
        · obtain ⟨hfreed, hstale⟩ := ih hrun fun x hx =>
            (List.mem_append.mp hx).elim (hP n hn x) (hrest x)
          refine ⟨fun x hx => ?_, hstale⟩
          rcases hfreed x hx with hx | hx
          · rcases List.mem_append.mp hx with hx | hx
            · exact Or.inl hx
            · exact Or.inr (by rw [List.mem_singleton.mp hx]; exact hn)
          · exact Or.inr hx
        · obtain ⟨hfreed, hstale⟩ := ih hrun hrest
          exact ⟨hfreed, hstale⟩

theorem release_isSome {fuel : Nat} {r : RcState ν} {pending : List ν}
    (hfuel : pending.length + ∑ y with y ∉ r.freed, (H.owned y).length ≤ fuel) :
    ∃ r', release H fuel r pending = some r' := by
  induction fuel generalizing r pending with
  | zero =>
    cases pending with
    | nil => exact ⟨r, rfl⟩
    | cons n pending =>
      rw [List.length_cons] at hfuel
      omega
  | succ fuel ih =>
    cases pending with
    | nil => exact ⟨r, rfl⟩
    | cons n pending =>
      rw [List.length_cons] at hfuel
      rw [release]
      split
      · exact ih (by simpa using by omega)
      · next hn =>
        simp only
        split
        · refine ih ?_
          -- freeing a node takes its edges out of the sum and puts them on the stack
          have hinsert : Finset.univ.filter (fun y => y ∉ r.freed)
              = insert n (Finset.univ.filter fun y => y ∉ r.freed ++ [n]) := by
            ext y
            by_cases hy : y = n
            · simp [hy, hn]
            · simp [hy]
          rw [hinsert, Finset.sum_insert (by simp)] at hfuel
          show (H.owned n ++ pending).length + ∑ y with y ∉ r.freed ++ [n], (H.owned y).length ≤ fuel
          rw [List.length_append]
          omega
        · exact ih (by simpa using by omega)

/-! ## What is torn down, and how -/

/-- Garbage that a white closure value reaches: the cascade is to free it. -/
def Cascaded (H : Heap ν) (ext : ν → Nat) (ptrs : List ν) (n : ν) : Prop :=
  Garbage H ext ptrs n ∧
    ∃ c, Garbage H ext ptrs c ∧ (H.kind c).isClosureValue = true ∧ H.Reaches c n

/-- Garbage given back as raw memory. -/
def RawFreed (H : Heap ν) (ext : ν → Nat) (ptrs : List ν) (n : ν) : Prop :=
  Garbage H ext ptrs n ∧ ¬ Cascaded H ext ptrs n ∧ (H.kind n).isFreed = true

/-- Arrays whose closure elements are zeroed. -/
def Neutered (H : Heap ν) (ext : ν → Nat) (ptrs : List ν) (n : ν) : Prop :=
  Cascaded H ext ptrs n ∧ (H.kind n).isCallableArray = true

open Classical in
/-- The references to a node that go without a release. -/
noncomputable def orphaned (H : Heap ν) (ext : ν → Nat) (ptrs : List ν) (x : ν) : Nat :=
  (∑ y with RawFreed H ext ptrs y, (H.owned y).count x) +
    ∑ y with Neutered H ext ptrs y ∧ (H.kind x).isClosureValue = true, (H.slots y).count x

open Classical in
/-- The extra drop of a white closure value. -/
noncomputable def extraDrop (H : Heap ν) (ext : ν → Nat) (ptrs : List ν) (x : ν) : Nat :=
  if Garbage H ext ptrs x ∧ (H.kind x).isClosureValue = true then 1 else 0

/-- Every white closure value has exactly one orphaned reference, which its extra drop makes up for.
Other nodes, those given back as raw memory apart, have none. -/
def Balanced (H : Heap ν) (ext : ν → Nat) (ptrs : List ν) : Prop :=
  ∀ x, ¬ RawFreed H ext ptrs x → orphaned H ext ptrs x = extraDrop H ext ptrs x

/-- A reference between nodes to be torn down that is still there when the cascade starts. -/
def CascadeEdge (H : Heap ν) (ext : ν → Nat) (ptrs : List ν) (y x : ν) : Prop :=
  Cascaded H ext ptrs y ∧ Cascaded H ext ptrs x ∧ x ∈ H.owned y ∧
    ¬ (Neutered H ext ptrs y ∧ (H.kind x).isClosureValue = true)

/-- Without the zeroed elements there is no cycle left. -/
def Untangled (H : Heap ν) (ext : ν → Nat) (ptrs : List ν) : Prop :=
  ∀ x, ¬ Relation.TransGen (CascadeEdge H ext ptrs) x x

/-- Each node counted as reclaimed was given back once and not released again, and the counts of what
is left are right. -/
def Outcome.Exact (out : Outcome ν) (H : Heap ν) (ext : ν → Nat) : Prop :=
  (∀ n ∈ out.counted, out.freed.count n = 1 ∧ n ∉ out.stale) ∧
    ∀ n, n ∉ out.freed → out.state.refcount n = ext n + ∑ x with x ∉ out.freed, (H.owned x).count n

/-! ### Owners of garbage -/

omit [DecidableEq ν] [Fintype ν] in
theorem owned_mem {x y : ν} (h : x ∈ H.owned y) : x ∈ H.children y ∨ x ∈ H.untraced y := by
  unfold Heap.owned at h
  unfold Heap.children Heap.untraced
  split
  · exact List.mem_append.mp h
  · exact Or.inr h

omit [DecidableEq ν] [Fintype ν] in
/-- Garbage is owned by garbage only, through traced references. -/
theorem Garbage.owner {x y : ν} (hx : Garbage H ext ptrs x) (hy : x ∈ H.owned y) :
    Garbage H ext ptrs y ∧ x ∈ H.children y := by
  obtain ⟨hcand, hnot⟩ := hx
  have hchild : x ∈ H.children y := by
    refine (owned_mem hy).resolve_right fun hun => hnot ?_
    exact ⟨x, Or.inr (Or.inl ⟨y, hun⟩), .refl⟩
  refine ⟨⟨?_, fun ⟨a, ha, hay⟩ => hnot ⟨a, ha, hay.tail hchild⟩⟩, hchild⟩
  by_contra hy'
  exact hnot ⟨y, Or.inr (Or.inr (Or.inr hy')), .single hchild⟩

omit [DecidableEq ν] [Fintype ν] in
theorem Garbage.ext_eq_zero {x : ν} (hx : Garbage H ext ptrs x) : ext x = 0 := by
  by_contra hne
  exact hx.2 ⟨x, Or.inl (Nat.pos_of_ne_zero hne), .refl⟩

omit [DecidableEq ν] [Fintype ν] in
theorem Cascaded.child {x y : ν} (hy : Cascaded H ext ptrs y) (hx : Garbage H ext ptrs x)
    (hxy : x ∈ H.owned y) : Cascaded H ext ptrs x := by
  obtain ⟨-, c, hc, hv, hcy⟩ := hy
  exact ⟨hx, c, hc, hv, hcy.tail (hx.owner hxy).2⟩

omit [DecidableEq ν] [Fintype ν] in
theorem cascaded_of_closureValue {x : ν} (hx : Garbage H ext ptrs x)
    (hv : (H.kind x).isClosureValue = true) : Cascaded H ext ptrs x :=
  ⟨hx, x, hx, hv, .refl⟩

/-! ### The neutered heap -/

omit [DecidableEq ν] [Fintype ν] in
theorem boxed_eq_nil_of_callable {n : ν} (hn : (H.kind n).isCallableArray = true) : H.boxed n = [] := by
  refine H.boxed_of_ne n fun hk => ?_
  rw [hk] at hn
  exact absurd hn nofun

omit [Fintype ν] in
/-- Zeroing takes away the references to closure values. -/
theorem count_owned_neuter {chosen : ν → Bool}
    (hchosen : ∀ y, chosen y = true → (H.kind y).isCallableArray = true) (x y : ν) :
    (H.owned y).count x = ((H.neuter chosen).owned y).count x +
      if chosen y = true ∧ (H.kind x).isClosureValue = true then (H.slots y).count x else 0 := by
  by_cases hy : chosen y = true
  · have hboxed := boxed_eq_nil_of_callable (hchosen y hy)
    simp only [Heap.owned, Heap.neuter, hy, hboxed, List.append_nil, if_true, true_and]
    cases hx : (H.kind x).isClosureValue with
    | true =>
      have hnone : ((H.slots y).filter fun c => !(H.kind c).isClosureValue).count x = 0 := by
        refine List.count_eq_zero.mpr fun hmem => ?_
        have := (List.mem_filter.mp hmem).2
        rw [hx] at this
        exact absurd this nofun
      rw [hnone, if_pos rfl, Nat.zero_add]
    | false =>
      rw [List.count_filter (by rw [hx]; rfl)]
      simp
  · simp [Heap.owned, Heap.neuter, hy]

omit [Fintype ν] in
theorem mem_owned_neuter {chosen : ν → Bool}
    (hchosen : ∀ y, chosen y = true → (H.kind y).isCallableArray = true) {x y : ν} :
    x ∈ (H.neuter chosen).owned y ↔
      x ∈ H.owned y ∧ ¬ (chosen y = true ∧ (H.kind x).isClosureValue = true) := by
  have hcount := count_owned_neuter hchosen x y
  have hslots : (H.owned y).count x = (H.slots y).count x + (H.boxed y).count x := List.count_append
  by_cases hc : chosen y = true ∧ (H.kind x).isClosureValue = true
  · rw [if_pos hc] at hcount
    have hnot : ¬ x ∈ (H.neuter chosen).owned y := by
      rw [← List.count_pos_iff]
      rw [boxed_eq_nil_of_callable (hchosen y hc.1), List.count_nil] at hslots
      omega
    exact ⟨fun h => absurd h hnot, fun h => absurd hc h.2⟩
  · rw [if_neg hc, Nat.add_zero] at hcount
    rw [← List.count_pos_iff, ← List.count_pos_iff, hcount]
    exact ⟨fun h => ⟨h, hc⟩, fun h => h.1⟩

/-! ## Exactly when it works -/

/-- A finished cascade on the neutered heap `N`, after the nodes of `raw` were given back. -/
structure TornDown (H : Heap ν) (ext : ν → Nat) (s : GcState ν) (ptrs : List ν) (N : Heap ν)
    (r : RcState ν) (raw new : List ν) : Prop where
  consistent : Consistent H ext s ptrs
  raw_iff : ∀ x, x ∈ raw ↔ RawFreed H ext ptrs x
  owned_iff : ∀ x y, x ∈ N.owned y ↔
    x ∈ H.owned y ∧ ¬ (Neutered H ext ptrs y ∧ (H.kind x).isClosureValue = true)
  owned_eq : ∀ x y, ¬ Neutered H ext ptrs y → (N.owned y).count x = (H.owned y).count x
  freed : r.freed = raw ++ new
  nodup : (raw ++ new).Nodup
  account : ∀ x, r.refcount x - r.stale.count x
    = ext x + owing N r.freed x + orphaned H ext ptrs x - extraDrop H ext ptrs x
  zero : ∀ x ∈ new, r.refcount x = 0
  alive : ∀ x, x ∉ r.freed → 1 ≤ s.refcount x → 1 ≤ r.refcount x
  stale : ∀ x ∈ r.stale, x ∈ r.freed
  /-- The cascade does not reach garbage outside its part. -/
  apart : ∀ x, x ∈ new ∨ x ∈ r.stale → Garbage H ext ptrs x → Cascaded H ext ptrs x
  order : ∀ l₁ x l₂, new = l₁ ++ x :: l₂ →
    owing N (raw ++ l₁) x ≤ owing N r.freed x + r.stale.count x - r.refcount x

namespace TornDown

variable {N : Heap ν} {r : RcState ν} {raw new : List ν}

omit [DecidableEq ν] [Fintype ν] in
theorem mem_owned_of_mem_children {x y : ν} (h : x ∈ H.children y) : x ∈ H.owned y := by
  unfold Heap.children at h
  split at h
  · exact List.mem_append_left _ h
  · exact absurd h List.not_mem_nil

/-- Garbage outside the cascade's part is given back as raw memory or owns nothing, as long as no
orphaned reference leads to what is left of it. -/
theorem rawFreed_or_childless (h : Consistent H ext s ptrs)
    (horph : ∀ z, Garbage H ext ptrs z → ¬ Cascaded H ext ptrs z → ¬ RawFreed H ext ptrs z →
      orphaned H ext ptrs z = 0)
    {z : ν} (hz : Garbage H ext ptrs z) (hnc : ¬ Cascaded H ext ptrs z) :
    RawFreed H ext ptrs z ∨ H.children z = [] := by
  obtain ⟨root, hroot, hreach⟩ := hz.1
  -- Along the path from the candidate: a node left over would be orphaned by its predecessor.
  induction hreach with
  | refl =>
    have hheader := h.roots root hroot
    cases hf : (H.kind root).isFreed with
    | true => exact Or.inl ⟨hz, hnc, hf⟩
    | false => exact Or.inr (children_eq_nil hheader hf)
  | @tail y z hry hyz ih =>
    have howned := mem_owned_of_mem_children hyz
    have hy := (hz.owner howned).1
    have hync : ¬ Cascaded H ext ptrs y := fun hc => hnc (hc.child hz howned)
    rcases ih hy hync with hraw | hnil
    · left
      by_contra hzraw
      have hzero := horph z hz hnc hzraw
      have hpos : 0 < (H.owned y).count z := List.count_pos_iff.mpr howned
      classical
      have hle : (H.owned y).count z ≤ ∑ y with RawFreed H ext ptrs y, (H.owned y).count z :=
        Finset.single_le_sum (f := fun y => (H.owned y).count z) (fun _ _ => Nat.zero_le _)
          (by simpa using hraw)
      rw [orphaned] at hzero
      have hsum : ∑ y with RawFreed H ext ptrs y, (H.owned y).count z = 0 := by
        convert (Nat.add_eq_zero_iff.mp hzero).1
      omega
    · rw [hnil] at hyz
      exact absurd hyz List.not_mem_nil

theorem owing_eq_zero_iff (N : Heap ν) (freed : List ν) (x : ν) :
    owing N freed x = 0 ↔ ∀ y, x ∈ N.owned y → y ∈ freed := by
  unfold owing
  rw [Finset.sum_eq_zero_iff_of_nonneg fun _ _ => Int.natCast_nonneg _]
  constructor
  · intro h y hy
    by_contra hny
    have hzero := h y (by simpa using hny)
    have hpos := List.count_pos_iff.mpr hy
    omega
  · intro h y hy
    have hny : y ∉ freed := by simpa using hy
    exact_mod_cast List.count_eq_zero.mpr fun hmem => hny (h y hmem)

/-- Once every node of the part but `x` that could own `x` is gone, nothing is left that owns it. -/
theorem owing_eq_zero (t : TornDown H ext s ptrs N r raw new)
    (horph : ∀ z, Garbage H ext ptrs z → ¬ Cascaded H ext ptrs z → ¬ RawFreed H ext ptrs z →
      orphaned H ext ptrs z = 0)
    {x : ν} (hx : Cascaded H ext ptrs x)
    (howners : ∀ y, CascadeEdge H ext ptrs y x → y ∈ r.freed) : owing N r.freed x = 0 := by
  rw [owing_eq_zero_iff]
  intro y hy
  obtain ⟨howned, hne⟩ := (t.owned_iff x y).mp hy
  obtain ⟨hyg, hchild⟩ := hx.1.owner howned
  by_cases hyc : Cascaded H ext ptrs y
  · exact howners y ⟨hyc, hx, howned, hne⟩
  · rcases rawFreed_or_childless t.consistent horph hyg hyc with hraw | hnil
    · rw [t.freed]
      exact List.mem_append_left _ ((t.raw_iff y).mpr hraw)
    · rw [hnil] at hchild
      exact absurd hchild List.not_mem_nil

/-- A node of the cascade's part has an owner. -/
theorem refcount_pos (t : TornDown H ext s ptrs N r raw new) {x : ν} (hx : Cascaded H ext ptrs x) :
    1 ≤ s.refcount x := by
  have howner : ∃ y, x ∈ H.owned y := by
    obtain ⟨-, c, hc, hv, hcx⟩ := hx
    rcases Relation.ReflTransGen.cases_tail hcx with rfl | ⟨y, -, hy⟩
    · obtain ⟨root, hroot, hrx⟩ := hc.1
      rcases Relation.ReflTransGen.cases_tail hrx with rfl | ⟨y, -, hy⟩
      · rw [not_closureValue_of_header (t.consistent.roots x hroot)] at hv
        exact absurd hv nofun
      · exact ⟨y, mem_owned_of_mem_children hy⟩
    · exact ⟨y, mem_owned_of_mem_children hy⟩
  obtain ⟨y, hy⟩ := howner
  have hpos := List.count_pos_iff.mpr hy
  have hle : (H.owned y).count x ≤ ∑ y, (H.owned y).count x :=
    Finset.single_le_sum (f := fun y => (H.owned y).count x) (fun _ _ => Nat.zero_le _)
      (Finset.mem_univ y)
  rw [t.consistent.counted]
  omega

omit [DecidableEq ν] [Fintype ν] in
theorem extraDrop_eq_zero {z : ν} (hz : Garbage H ext ptrs z) (hnc : ¬ Cascaded H ext ptrs z) :
    extraDrop H ext ptrs z = 0 := by
  unfold extraDrop
  exact if_neg fun h => hnc (cascaded_of_closureValue hz h.2)

theorem stale_eq_zero (t : TornDown H ext s ptrs N r raw new) {x : ν} (hx : x ∉ r.freed) :
    (r.stale.count x : Int) = 0 := by
  exact_mod_cast List.count_eq_zero.mpr fun hst => hx (t.stale x hst)

/-! ### Enough -/

/-- All of the cascade's part is freed. -/
theorem freed_of_cascaded (t : TornDown H ext s ptrs N r raw new) (hbal : Balanced H ext ptrs)
    (hunt : Untangled H ext ptrs) {x : ν} (hx : Cascaded H ext ptrs x) : x ∈ r.freed := by
  have horph : ∀ z, Garbage H ext ptrs z → ¬ Cascaded H ext ptrs z → ¬ RawFreed H ext ptrs z →
      orphaned H ext ptrs z = 0 := fun z hz hnc hraw =>
    (hbal z hraw).trans (extraDrop_eq_zero hz hnc)
  have hwf : WellFounded (Relation.TransGen (CascadeEdge H ext ptrs)) := by
    have : IsTrans ν (Relation.TransGen (CascadeEdge H ext ptrs)) := ⟨fun _ _ _ h₁ h₂ => h₁.trans h₂⟩
    have : Std.Irrefl (Relation.TransGen (CascadeEdge H ext ptrs)) := ⟨hunt⟩
    exact Finite.wellFounded_of_trans_of_irrefl _
  by_contra hxf
  -- A node left over none of whose owners in the part is left over.
  obtain ⟨m, ⟨hm, hmf⟩, hmin⟩ :=
    hwf.has_min {y | Cascaded H ext ptrs y ∧ y ∉ r.freed} ⟨x, hx, hxf⟩
  have howing : owing N r.freed m = 0 := t.owing_eq_zero horph hm fun y hy => by
    by_contra hyf
    exact hmin y ⟨hy.1, hyf⟩ (.single hy)
  have hraw : ¬ RawFreed H ext ptrs m := fun h => h.2.1 hm
  have haccount := t.account m
  have hstale := t.stale_eq_zero hmf
  have hext := hm.1.ext_eq_zero
  have halive := t.alive m hmf (t.refcount_pos hm)
  rw [hbal m hraw] at haccount
  omega

theorem not_stale (t : TornDown H ext s ptrs N r raw new) (hbal : Balanced H ext ptrs) {x : ν}
    (hx : Garbage H ext ptrs x) (hf : x ∈ r.freed) : x ∉ r.stale := by
  intro hst
  have hc := t.apart x (Or.inr hst) hx
  have hraw : ¬ RawFreed H ext ptrs x := fun h => h.2.1 hc
  rw [t.freed] at hf
  have hnew := (List.mem_append.mp hf).resolve_left fun h => hraw ((t.raw_iff x).mp h)
  have haccount := t.account x
  have hnonneg := owing_nonneg (H := N) r.freed x
  have hpos := List.count_pos_iff.mpr hst
  rw [hbal x hraw, t.zero x hnew] at haccount
  omega

/-- The counts of what is left. -/
theorem refcount_eq (t : TornDown H ext s ptrs N r raw new)
    (hfreed : ∀ x, Cascaded H ext ptrs x → x ∈ r.freed) {x : ν} (hx : x ∉ r.freed) :
    r.refcount x = ext x + (∑ y with y ∉ r.freed, (H.owned y).count x : Nat)
      + orphaned H ext ptrs x - extraDrop H ext ptrs x := by
  have haccount := t.account x
  have hstale := t.stale_eq_zero hx
  have howing : owing N r.freed x = (∑ y with y ∉ r.freed, (H.owned y).count x : Nat) := by
    rw [owing, Nat.cast_sum]
    refine Finset.sum_congr rfl fun y hy => ?_
    have hyf : y ∉ r.freed := by simpa using hy
    rw [t.owned_eq x y fun hn => hyf (hfreed y hn.1)]
  omega

/-! ### Necessary -/

theorem balanced (t : TornDown H ext s ptrs N r raw new)
    (hfreed : ∀ x, Cascaded H ext ptrs x → x ∈ r.freed ∧ x ∉ r.stale)
    (hleft : ∀ x, x ∉ r.freed →
      r.refcount x = ext x + (∑ y with y ∉ r.freed, (H.owned y).count x : Nat)) :
    Balanced H ext ptrs := by
  -- at a node that stays, what is owed is what is left
  have hunfreed : ∀ x, x ∉ r.freed → orphaned H ext ptrs x = extraDrop H ext ptrs x := by
    intro x hx
    have h₁ := t.refcount_eq (fun y hy => (hfreed y hy).1) hx
    have h₂ := hleft x hx
    omega
  -- at garbage that is neither cascaded nor given back nothing is orphaned
  have horph : ∀ z, Garbage H ext ptrs z → ¬ Cascaded H ext ptrs z → ¬ RawFreed H ext ptrs z →
      orphaned H ext ptrs z = 0 := by
    intro z hz hnc hraw
    rw [hunfreed z fun hzf => ?_, extraDrop_eq_zero hz hnc]
    rw [t.freed] at hzf
    rcases List.mem_append.mp hzf with hzf | hzf
    · exact hraw ((t.raw_iff z).mp hzf)
    · exact hnc (t.apart z (Or.inl hzf) hz)
  intro x hraw
  -- by what has become of the node: freed by the cascade, or left alone
  by_cases hxf : x ∈ r.freed
  · have hnew : x ∈ new := by
      rw [t.freed] at hxf
      exact (List.mem_append.mp hxf).resolve_left fun h => hraw ((t.raw_iff x).mp h)
    have haccount := t.account x
    have hnonneg := owing_nonneg (H := N) r.freed x
    rw [t.zero x hnew] at haccount
    -- garbage has no shares from outside, and all its owners are gone
    by_cases hg : Garbage H ext ptrs x
    · have hc := t.apart x (Or.inl hnew) hg
      have hstale : (r.stale.count x : Int) = 0 := by
        exact_mod_cast List.count_eq_zero.mpr (hfreed x hc).2
      have hext := hg.ext_eq_zero
      have howing := t.owing_eq_zero horph hc fun y hy => (hfreed y hy.1).1
      omega
    -- a node that lives on gets no extra drop
    · have hextra : extraDrop H ext ptrs x = 0 := if_neg fun h => hg h.1
      omega
  · exact hunfreed x hxf

theorem untangled (t : TornDown H ext s ptrs N r raw new) (hbal : Balanced H ext ptrs)
    (hfreed : ∀ x, Cascaded H ext ptrs x → x ∈ r.freed ∧ x ∉ r.stale) : Untangled H ext ptrs := by
  have horph : ∀ z, Garbage H ext ptrs z → ¬ Cascaded H ext ptrs z → ¬ RawFreed H ext ptrs z →
      orphaned H ext ptrs z = 0 := fun z hz hnc hraw =>
    (hbal z hraw).trans (extraDrop_eq_zero hz hnc)
  have hnew : ∀ x, Cascaded H ext ptrs x → x ∈ new := by
    intro x hx
    have hxf := (hfreed x hx).1
    rw [t.freed] at hxf
    exact (List.mem_append.mp hxf).resolve_left fun h => ((t.raw_iff x).mp h).2.1 hx
  have hnd : new.Nodup := (List.nodup_append.mp t.nodup).2.1
  -- Owners are freed first.
  have hstep : ∀ y x, CascadeEdge H ext ptrs y x → new.idxOf y < new.idxOf x := by
    rintro y x ⟨hy, hx, howned, hne⟩
    obtain ⟨l₁, l₂, hsplit⟩ := List.append_of_mem (hnew x hx)
    have horder := t.order l₁ x l₂ hsplit
    have hstale : (r.stale.count x : Int) = 0 := by
      exact_mod_cast List.count_eq_zero.mpr (hfreed x hx).2
    have howing := t.owing_eq_zero horph hx fun z hz => (hfreed z hz.1).1
    rw [t.zero x (hnew x hx), hstale, howing] at horder
    have hzero : owing N (raw ++ l₁) x = 0 := le_antisymm (by omega) (owing_nonneg _ x)
    have hmem := (owing_eq_zero_iff N _ x).mp hzero y ((t.owned_iff x y).mpr ⟨howned, hne⟩)
    have hl₁ : y ∈ l₁ := (List.mem_append.mp hmem).resolve_left fun h =>
      ((t.raw_iff y).mp h).2.1 hy
    have hxl₁ : x ∉ l₁ := fun h => by
      rw [hsplit] at hnd
      exact (List.nodup_append.mp hnd).2.2 x h x List.mem_cons_self rfl
    rw [hsplit, List.idxOf_append_of_mem hl₁, List.idxOf_append_of_notMem hxl₁,
      List.idxOf_cons_self]
    have := List.idxOf_lt_length_of_mem hl₁
    omega
  have hpath : ∀ y x, Relation.TransGen (CascadeEdge H ext ptrs) y x →
      new.idxOf y < new.idxOf x := by
    intro y x h
    induction h with
    | single h => exact hstep _ _ h
    | tail _ h ih => exact ih.trans (hstep _ _ h)
  exact fun x hx => Nat.lt_irrefl _ (hpath x x hx)

end TornDown

/-! ### Restoring -/

omit [Fintype ν] in
theorem foldl_nodeIncrement (l : List ν) (s : GcState ν) (n : ν) :
    (l.foldl (nodeIncrement H) s).refcount n
      = s.refcount n + if (H.kind n).isHeader = true then (l.count n : Int) else 0 := by
  induction l generalizing s with
  | nil => simp
  | cons c l ih =>
    have hcount := count_cons_int c n l
    rw [List.foldl_cons, ih]
    by_cases hn : (H.kind n).isHeader = true
    · have hstep := nodeCount_nodeIncrement H s c n
      simp only [nodeCount, hn, if_true] at hstep ⊢
      omega
    · rw [nodeIncrement_refcount H (by simpa using hn)]
      simp only [hn]
      simp

omit [Fintype ν] in
theorem foldl_restore (white : List ν) (hnd : white.Nodup) (s : GcState ν) (n : ν) :
    (white.foldl (fun s n => (H.children n).foldl (nodeIncrement H) s) s).refcount n
      = s.refcount n + if (H.kind n).isHeader = true then inEdges H white.toFinset n else 0 := by
  induction white generalizing s with
  | nil => simp [inEdges]
  | cons x white ih =>
    obtain ⟨hx, hnd⟩ := List.nodup_cons.mp hnd
    have hsum : inEdges H (x :: white).toFinset n
        = (H.children x).count n + inEdges H white.toFinset n := by
      rw [List.toFinset_cons, inEdges, Finset.sum_insert (by simpa using hx)]
      rfl
    rw [List.foldl_cons, ih hnd, foldl_nodeIncrement]
    by_cases hn : (H.kind n).isHeader = true
    · simp only [hn, if_true]
      omega
    · simp [hn]

/-- Restoring the edges of the white nodes gives the counts from before the collection. -/
theorem restore_refcount (h : Consistent H ext s ptrs) {s' : GcState ν} {white : List ν}
    (hnd : white.Nodup)
    (hheader : ∀ n, (H.kind n).isHeader = true →
      s'.refcount n = ext n + untracedCount H n + inEdges H (white.toFinset)ᶜ n)
    (harc : ∀ n, (H.kind n).isHeader = false → s'.refcount n = s.refcount n) :
    (white.foldl (fun s n => (H.children n).foldl (nodeIncrement H) s) s').refcount = s.refcount := by
  funext n
  rw [foldl_restore white hnd]
  by_cases hn : (H.kind n).isHeader = true
  · have hsplit := inEdges_compl (H := H) white.toFinset n
    rw [if_pos hn, hheader n hn, h.refcount_eq]
    omega
  · rw [if_neg hn, harc n (by simpa using hn), add_zero]

/-- Where the references of all nodes go: those of nodes given back and of zeroed elements are
orphaned, the others are still owed. -/
theorem sum_owned_eq {chosen : ν → Bool} {raw : List ν}
    (hraw : ∀ x, x ∈ raw ↔ RawFreed H ext ptrs x)
    (hchosen : ∀ y, chosen y = true ↔ Neutered H ext ptrs y) (x : ν) :
    ((∑ y, (H.owned y).count x : Nat) : Int)
      = owing (H.neuter chosen) raw x + orphaned H ext ptrs x := by
  classical
  have hcallable : ∀ y, chosen y = true → (H.kind y).isCallableArray = true :=
    fun y hy => ((hchosen y).mp hy).2
  -- the references from what is given back raw are orphaned
  have hsplit : ∑ y, (H.owned y).count x
      = (∑ y with RawFreed H ext ptrs y, (H.owned y).count x)
        + ∑ y with ¬ RawFreed H ext ptrs y, (H.owned y).count x :=
    (Finset.sum_filter_add_sum_filter_not _ _ _).symm
  -- of the others, those in zeroed elements are orphaned too
  have hrest : ∑ y with ¬ RawFreed H ext ptrs y, (H.owned y).count x
      = (∑ y with ¬ RawFreed H ext ptrs y, ((H.neuter chosen).owned y).count x)
        + ∑ y with Neutered H ext ptrs y ∧ (H.kind x).isClosureValue = true,
          (H.slots y).count x := by
    rw [Finset.sum_congr rfl fun y _ => count_owned_neuter hcallable x y, Finset.sum_add_distrib]
    congr 1
    rw [← Finset.sum_filter, Finset.filter_filter]
    refine Finset.sum_congr (Finset.filter_congr fun y _ => ?_) fun _ _ => rfl
    rw [hchosen]
    exact ⟨fun hy => hy.2, fun hy => ⟨fun hr => hr.2.1 hy.1.1, hy⟩⟩
  have howing : owing (H.neuter chosen) raw x
      = ((∑ y with ¬ RawFreed H ext ptrs y, ((H.neuter chosen).owned y).count x : Nat) : Int) := by
    rw [owing, Nat.cast_sum]
    exact Finset.sum_congr (Finset.filter_congr fun y _ => by rw [hraw]) fun _ _ => rfl
  rw [howing, hsplit, hrest, orphaned]
  push_cast
  omega

/-! ### The collection -/

omit [DecidableEq ν] [Fintype ν] in
theorem length_owned_neuter_le (chosen : ν → Bool) (y : ν) :
    ((H.neuter chosen).owned y).length ≤ (H.owned y).length := by
  simp only [Heap.owned, Heap.neuter, List.length_append]
  split
  · have := List.length_filter_le (fun c => !(H.kind c).isClosureValue) (H.slots y)
    omega
  · exact le_rfl

/-- A cascade that starts from consistent counts tears down as `TornDown` says. -/
theorem release_tornDown (h : Consistent H ext s ptrs) {chosen : ν → Bool} {raw values : List ν}
    (hrawnd : raw.Nodup) (hraw : ∀ x, x ∈ raw ↔ RawFreed H ext ptrs x)
    (hchosen : ∀ y, chosen y = true ↔ Neutered H ext ptrs y) (hvnd : values.Nodup)
    (hvalues : ∀ x, x ∈ values ↔ Garbage H ext ptrs x ∧ (H.kind x).isClosureValue = true)
    {fuel : Nat} {r : RcState ν}
    (hrun : release (H.neuter chosen) fuel ⟨s.refcount, raw, []⟩ values = some r) :
    ∃ new, TornDown H ext s ptrs (H.neuter chosen) r raw new := by
  have hcallable : ∀ y, chosen y = true → (H.kind y).isCallableArray = true :=
    fun y hy => ((hchosen y).mp hy).2
  obtain ⟨new, hrel⟩ := release_spec hrun hrawnd
  have hnd := hrel.nodup
  rw [hrel.freed] at hnd
  have hextra : ∀ x, (values.count x : Int) = extraDrop H ext ptrs x := by
    intro x
    rw [extraDrop]
    split
    · next hx => rw [List.count_eq_one_of_mem hvnd ((hvalues x).mpr hx)]
    · next hx => rw [List.count_eq_zero.mpr fun hmem => hx ((hvalues x).mp hmem)]
  have howned : ∀ x y, x ∈ (H.neuter chosen).owned y ↔
      x ∈ H.owned y ∧ ¬ (Neutered H ext ptrs y ∧ (H.kind x).isClosureValue = true) := by
    intro x y
    rw [mem_owned_neuter hcallable, hchosen]
  -- Owned by something outside the rest of the garbage means being outside it.
  have hwithin := release_within (P := fun x => Garbage H ext ptrs x → Cascaded H ext ptrs x)
    (fun y hy x hx hgx => by
      have hxy := ((howned x y).mp hx).1
      exact (hy (hgx.owner hxy).1).child hgx hxy)
    hrun (fun x hx hgx => cascaded_of_closureValue hgx ((hvalues x).mp hx).2)
  refine ⟨new, h, hraw, howned, fun x y hy => ?_, hrel.freed, hnd, fun x => ?_, hrel.zero, hrel.alive,
    fun x hx => ?_, fun x hx hgx => ?_, fun l₁ x l₂ hl => ?_⟩
  · rw [count_owned_neuter hcallable x y, if_neg fun hc => hy ((hchosen y).mp hc.1), Nat.add_zero]
  · have hbal := hrel.balanced x
    have hsum := sum_owned_eq hraw hchosen x
    have hcounted := h.counted x
    have hcount := hextra x
    simp only [balance, List.count_nil] at hbal
    omega
  · exact (hrel.stale x hx).resolve_left List.not_mem_nil
  · rcases hx with hx | hx
    · have hxf : x ∈ r.freed := by
        rw [hrel.freed]
        exact List.mem_append_right _ hx
      rcases hwithin.1 x hxf with hxr | hc
      · exact absurd rfl ((List.nodup_append.mp hnd).2.2 x hxr x hx)
      · exact hc hgx
    · exact (hwithin.2 x hx).resolve_left List.not_mem_nil hgx
  · have horder := hrel.order l₁ x l₂ hl
    have hbal := hrel.balanced x
    simp only [balance, List.count_nil] at horder hbal
    omega

theorem collectCascade_tornDown (h : Consistent H ext s ptrs) {s' : GcState ν} {white : List ν}
    (hnd : white.Nodup) (hwhite : ∀ n, n ∈ white ↔ Garbage H ext ptrs n)
    (hheader : ∀ n, (H.kind n).isHeader = true →
      s'.refcount n = ext n + untracedCount H n + inEdges H (white.toFinset)ᶜ n)
    (harc : ∀ n, (H.kind n).isHeader = false → s'.refcount n = s.refcount n) {fuel : Nat}
    (hfuel : Fintype.card ν + ∑ y, (H.owned y).length ≤ fuel) :
    ∃ out N r raw new, collectCascade H fuel s' white = some out ∧
      TornDown H ext s ptrs N r raw new ∧ out.freed = r.freed ∧ out.stale = r.stale ∧
      out.state.refcount = r.refcount ∧
      ∀ n, n ∈ out.counted ↔ Cascaded H ext ptrs n ∨ RawFreed H ext ptrs n := by
  have hvnd : (white.filter fun n => (H.kind n).isClosureValue).Nodup := hnd.filter _
  have hvalues : ∀ x, x ∈ white.filter (fun n => (H.kind n).isClosureValue) ↔
      Garbage H ext ptrs x ∧ (H.kind x).isClosureValue = true := fun x => by
    rw [List.mem_filter, hwhite]
  obtain ⟨reachable, hreach, hreachable⟩ := cascadeReachable_spec (H := H) hvnd
    (show Fintype.card ν ≤ fuel by omega)
  have hcascaded : ∀ n, n ∈ white ∧ n ∈ reachable ↔ Cascaded H ext ptrs n := by
    intro n
    rw [hreachable, hwhite]
    refine and_congr_right fun _ => exists_congr fun c => ?_
    rw [hvalues, and_assoc]
  have hraw : ∀ x, x ∈ white.filter (fun n => n ∉ reachable ∧ (H.kind n).isFreed) ↔
      RawFreed H ext ptrs x := by
    intro x
    have hc := hcascaded x
    rw [hwhite] at hc
    rw [List.mem_filter, hwhite, decide_eq_true_eq, RawFreed]
    refine and_congr_right fun hg => and_congr_left fun _ => not_congr ?_
    exact ⟨fun hx => hc.mp ⟨hg, hx⟩, fun hx => (hc.mpr hx).2⟩
  have hchosen : ∀ y,
      decide (y ∈ white ∧ y ∈ reachable ∧ (H.kind y).isCallableArray = true) = true ↔
        Neutered H ext ptrs y := by
    intro y
    rw [decide_eq_true_eq, Neutered, ← hcascaded, and_assoc]
  have hrestore := restore_refcount h hnd hheader harc
  -- One turn for each closure value and each reference is enough.
  have hturns : (white.filter fun n => (H.kind n).isClosureValue).length
      + ∑ y with y ∉ white.filter (fun n => n ∉ reachable ∧ (H.kind n).isFreed),
        ((H.neuter fun n => n ∈ white ∧ n ∈ reachable ∧ (H.kind n).isCallableArray).owned y).length
      ≤ fuel := by
    have h₁ := hvnd.length_le_card
    have h₂ : ∑ y with y ∉ white.filter (fun n => n ∉ reachable ∧ (H.kind n).isFreed),
        ((H.neuter fun n => n ∈ white ∧ n ∈ reachable ∧ (H.kind n).isCallableArray).owned y).length
        ≤ ∑ y, (H.owned y).length :=
      (Finset.sum_le_sum fun y _ => length_owned_neuter_le _ y).trans
        (Finset.sum_le_sum_of_subset (Finset.filter_subset _ _))
    omega
  obtain ⟨r, hrun⟩ := release_isSome (r := ⟨s.refcount, _, []⟩) hturns
  obtain ⟨new, ht⟩ := release_tornDown h (hnd.filter _) hraw hchosen hvnd hvalues hrun
  obtain ⟨out, hout, hfreed, hstale, hrc, hcounted⟩ : ∃ out, collectCascade H fuel s' white = some out ∧
      out.freed = r.freed ∧ out.stale = r.stale ∧ out.state.refcount = r.refcount ∧
      out.counted = white.filter fun n => n ∈ reachable ∨ (H.kind n).isFreed := by
    rw [collectCascade]
    simp only [hreach, hrestore, hrun, Option.bind_eq_bind, Option.bind_some]
    exact ⟨_, rfl, rfl, rfl, rfl, rfl⟩
  refine ⟨out, _, r, _, new, hout, ht, hfreed, hstale, hrc, fun n => ?_⟩
  have hc := hcascaded n
  have hr := hraw n
  rw [List.mem_filter] at hr
  rw [decide_eq_true_eq] at hr
  rw [hcounted, List.mem_filter, decide_eq_true_eq, ← hc, ← hr]
  by_cases hn : n ∈ reachable <;> simp [hn]

/-- A collection that finds closure values among the garbage is exact if and only if the heap is
balanced and untangled. -/
theorem cascade_exact_iff (H : Heap ν) (ext : ν → Nat) (s : GcState ν) (ptrs : List ν)
    (h : Consistent H ext s ptrs)
    (hvalue : ∃ c, Garbage H ext ptrs c ∧ (H.kind c).isClosureValue = true) (fuel : Nat)
    (hfuel : 2 * Fintype.card ν + 1 + ∑ y, (H.owned y).length < fuel) :
    ∃ out, collectCycles H fuel s ptrs = some out ∧
      (out.Exact H ext ↔ Balanced H ext ptrs ∧ Untangled H ext ptrs) := by
  -- a closure value makes the collector take the cascade
  obtain ⟨c, hc, hv⟩ := hvalue
  have hptrs : ptrs ≠ [] := by
    rintro rfl
    obtain ⟨r, hr, -⟩ := hc.1
    exact absurd hr List.not_mem_nil
  obtain ⟨s', white, hrun, hnd, hwhite, -, hheader, harc⟩ :=
    trialDelete_spec h (show 2 * Fintype.card ν + 1 < fuel by omega)
  obtain ⟨out, N, r, raw, new, hout, ht, hfreed, hstale, hrc, hcounted⟩ :=
    collectCascade_tornDown h hnd hwhite hheader harc
      (show Fintype.card ν + ∑ y, (H.owned y).length ≤ fuel by omega)
  refine ⟨out, ?_, ?_⟩
  · have hany : white.any (fun n => (H.kind n).isClosureValue) = true :=
      List.any_eq_true.mpr ⟨c, (hwhite c).mpr hc, hv⟩
    rw [collectCycles, if_neg hptrs, hrun, Option.bind_eq_bind, Option.bind_some]
    simp only [hany, if_true]
    exact hout
  · have hrawmem : ∀ x, RawFreed H ext ptrs x → x ∈ r.freed := fun x hx => by
      rw [ht.freed]
      exact List.mem_append_left _ ((ht.raw_iff x).mpr hx)
    constructor
    -- freed once each and exact counts: the two conditions can be read off the run
    · rintro ⟨honce, hleft⟩
      rw [hfreed, hstale] at honce
      rw [hfreed, hrc] at hleft
      have hcas : ∀ x, Cascaded H ext ptrs x → x ∈ r.freed ∧ x ∉ r.stale := by
        intro x hx
        obtain ⟨hone, hns⟩ := honce x ((hcounted x).mpr (Or.inl hx))
        exact ⟨List.count_pos_iff.mp (by omega), hns⟩
      have hbal := ht.balanced hcas hleft
      exact ⟨hbal, ht.untangled hbal hcas⟩
    -- with both conditions every drop finds its share
    · rintro ⟨hbal, hunt⟩
      have hcas : ∀ x, Cascaded H ext ptrs x → x ∈ r.freed :=
        fun x hx => ht.freed_of_cascaded hbal hunt hx
      refine ⟨fun n hn => ?_, fun n hn => ?_⟩
      · rw [hfreed, hstale]
        have hnf : n ∈ r.freed := ((hcounted n).mp hn).elim (hcas n) (hrawmem n)
        have hng : Garbage H ext ptrs n := ((hcounted n).mp hn).elim (fun hx => hx.1) fun hx => hx.1
        have hrnd : r.freed.Nodup := by
          rw [ht.freed]
          exact ht.nodup
        exact ⟨List.count_eq_one_of_mem hrnd hnf, ht.not_stale hbal hng hnf⟩
      · rw [hfreed] at hn ⊢
        rw [hrc]
        have heq := ht.refcount_eq hcas hn
        rw [hbal n fun hr => hn (hrawmem n hr)] at heq
        omega

/-! ### A closure that captures its container -/

/-- A container (node 0, a callable array or an object) that holds a closure value, its block, and the
captured cell that holds the container. -/
def closureRing (array : Bool) : Heap (Fin 4) where
  kind
    | 0 => if array then .typedArray true else .typedObject
    | 1 => .closureValue
    | 2 => .closureBlock
    | 3 => .sharedCell
  slots n := [n + 1]
  boxed _ := []
  slots_leaf := by cases array <;> decide
  boxed_of_ne _ _ := rfl

def ringState : GcState (Fin 4) where
  color _ := .black
  buffered n := n = 0
  refcount _ := 1
  shadow _ := 0
  seeded _ := false

theorem closureRing_consistent (array : Bool) :
    Consistent (closureRing array) (fun _ => 0) ringState [0] := by
  cases array <;>
    exact ⟨by decide, fun _ => Or.inl rfl, by decide, by decide, fun _ => rfl, by decide⟩

theorem closureRing_garbage (array : Bool) (n : Fin 4) :
    Garbage (closureRing array) (fun _ => 0) [0] n := by
  have hstep : ∀ m : Fin 4, m + 1 ∈ (closureRing array).children m := by
    cases array <;> decide
  have h1 : (closureRing array).Reaches 0 1 := .single (hstep 0)
  have h2 : (closureRing array).Reaches 0 2 := h1.tail (hstep 1)
  have h3 : (closureRing array).Reaches 0 3 := h2.tail (hstep 2)
  have hreach : ∀ m : Fin 4, (closureRing array).Reaches 0 m
    | 0 => .refl
    | 1 => h1
    | 2 => h2
    | 3 => h3
  refine ⟨⟨0, List.mem_singleton_self 0, hreach n⟩, ?_⟩
  rintro ⟨a, ha | ⟨x, hx⟩ | hs | hc, -⟩
  · exact absurd ha (Nat.lt_irrefl 0)
  · have hnone : ∀ x : Fin 4, (closureRing array).untraced x = [] := by cases array <;> decide
    rw [hnone] at hx
    exact absurd hx List.not_mem_nil
  · have hnone : ∀ a : Fin 4, ((closureRing array).kind a).isSentinel = false := by
      cases array <;> decide
    rw [hnone] at hs
    exact absurd hs nofun
  · exact hc ⟨0, List.mem_singleton_self 0, hreach a⟩

theorem cascade_exact_iff_callableArray :
    ∃ out, collectCycles (closureRing true) 20 ringState [0] = some out ∧
      (out.Exact (closureRing true) (fun _ => 0) ↔
        Balanced (closureRing true) (fun _ => 0) [0] ∧ Untangled (closureRing true) (fun _ => 0) [0]) :=
  cascade_exact_iff _ _ _ _ (closureRing_consistent true) ⟨1, closureRing_garbage true 1, rfl⟩ 20
    (by decide)

/-- Held in a field of an object instead of an array element, the closure value is dropped twice: the
field is not zeroed, and the cascade comes back to it. -/
theorem cascade_releases_twice :
    Consistent (closureRing false) (fun _ => 0) ringState [0] ∧
      (∃ c, Garbage (closureRing false) (fun _ => 0) [0] c ∧
        ((closureRing false).kind c).isClosureValue = true) ∧
      ∃ out, collectCycles (closureRing false) 20 ringState [0] = some out ∧
        ¬ out.Exact (closureRing false) (fun _ => 0) := by
  refine ⟨closureRing_consistent false, ⟨1, closureRing_garbage false 1, rfl⟩, ?_⟩
  obtain ⟨out, hrun, hcounted, hstale⟩ :
      ∃ out, collectCycles (closureRing false) 20 ringState [0] = some out ∧
        1 ∈ out.counted ∧ 1 ∈ out.stale := ⟨_, rfl, by decide, by decide⟩
  exact ⟨out, hrun, fun hexact => (hexact.1 1 hcounted).2 hstale⟩

end ShapeLang.Gc
