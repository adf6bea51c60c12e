import Mathlib

/-!
# Binary min-heaps in a vector

The node at `p` has its children at `2 * p + 1` and `2 * p + 2`. A sift starts from a vector that is
ordered but for the edges at one node: the edge into it for `siftUp`, the edges out of it for
`siftDown`. Both keep the entries, and both end in order, so the least entry is at the root again.
-/

namespace ShapeLang.Lib.BinaryHeap

variable {α : Type} [LinearOrder α] {n : Nat}

def IsChild (p c : Nat) : Prop := c = 2 * p + 1 ∨ c = 2 * p + 2

def Ordered (data : Vector α n) : Prop :=
  ∀ (p c : Nat) (hp : p < n) (hc : c < n), IsChild p c → data[p] ≤ data[c]

/-- Only the edge into `hole` may be out of order, and the parent of `hole` could take its place. -/
structure UpReady (data : Vector α n) (hole : Nat) : Prop where
  elsewhere : ∀ (p c : Nat) (hp : p < n) (hc : c < n), IsChild p c → c ≠ hole → data[p] ≤ data[c]
  across : ∀ (p c : Nat) (hp : p < n) (hc : c < n), IsChild p hole → IsChild hole c → data[p] ≤ data[c]

/-- Only the edges out of `hole` may be out of order, and a child of `hole` could take its place. -/
structure DownReady (data : Vector α n) (hole : Nat) : Prop where
  elsewhere : ∀ (p c : Nat) (hp : p < n) (hc : c < n), IsChild p c → p ≠ hole → data[p] ≤ data[c]
  across : ∀ (p c : Nat) (hp : p < n) (hc : c < n), IsChild p hole → IsChild hole c → data[p] ≤ data[c]

def siftUp (data : Vector α n) (i : Nat) (hi : i < n) : Vector α n :=
  if 0 < i then
    let parent := (i - 1) / 2
    if data[i] < data[parent] then siftUp (data.swap i parent) parent (by omega) else data
  else data
termination_by i

/-- The one of `left` and `right` that is below the entry at `i`, the lower one where both are; else `i`. -/
def smallest (data : Vector α n) (i : Nat) (hi : i < n) : Fin n :=
  let first : Fin n := if h : 2 * i + 1 < n then if data[2 * i + 1] < data[i] then ⟨2 * i + 1, h⟩
      else ⟨i, hi⟩ else ⟨i, hi⟩
  if h : 2 * i + 2 < n then if data[2 * i + 2] < data[first] then ⟨2 * i + 2, h⟩ else first else first

/-- What the two comparisons of a step find. -/
theorem smallest_spec (data : Vector α n) (i : Nat) (hi : i < n) :
    ((smallest data i hi).1 = i ∨ IsChild i (smallest data i hi).1 ∧ data[smallest data i hi] < data[i]) ∧
      ∀ (c : Nat) (hc : c < n), IsChild i c → data[smallest data i hi] ≤ data[c] := by
  unfold smallest IsChild
  split_ifs <;> grind

theorem smallest_ge (data : Vector α n) (i : Nat) (hi : i < n) : i ≤ (smallest data i hi).1 := by
  rcases (smallest_spec data i hi).1 with h | ⟨h, -⟩
  · omega
  · unfold IsChild at h
    omega

def siftDown (data : Vector α n) (i : Nat) (hi : i < n) : Vector α n :=
  let s := smallest data i hi
  if s.1 = i then data else siftDown (data.swap i s.1) s.1 s.2
termination_by n - i
decreasing_by
  have := smallest_ge data i hi
  omega

/-! ## The order -/

variable {data : Vector α n} {i : Nat}

theorem UpReady.ordered_of_le (h : UpReady data i)
    (hstop : ∀ (p : Nat) (hp : p < n) (hi : i < n), IsChild p i → data[p] ≤ data[i]) : Ordered data := by
  intro p c hp hc hchild
  by_cases hci : c = i
  · subst hci
    exact hstop p hp hc hchild
  · exact h.elsewhere p c hp hc hchild hci

theorem UpReady.swap {p : Nat} (h : UpReady data i) (hi : i < n) (hp : p < n) (hchild : IsChild p i)
    (hlt : data[i] < data[p]) : UpReady (data.swap i p) p := by
  have habove : ∀ (q : Nat) (hq : q < n), IsChild q p → data[q] ≤ data[p] := fun q hq hqp =>
    h.elsewhere q p hq hp hqp (by unfold IsChild at hchild; omega)
  have hbeside : ∀ (c : Nat) (hc : c < n), IsChild p c → c ≠ i → data[p] ≤ data[c] := fun c hc hpc hne =>
    h.elsewhere p c hp hc hpc hne
  refine ⟨fun q c hq hc hqc hcp => ?_, fun q c hq hc hqp hpc => ?_⟩
  · by_cases hci : c = i
    -- the edge that is repaired
    · have hqp : q = p := by unfold IsChild at hqc hchild; omega
      subst hci hqp
      simpa using hlt.le
    · rw [Vector.getElem_swap_of_ne hci hcp]
      by_cases hqi : q = i
      · subst hqi
        simpa using h.across p c hp hc hchild hqc
      by_cases hqp : q = p
      · subst hqp
        simpa using hlt.le.trans (hbeside c hc hqc hci)
      · rw [Vector.getElem_swap_of_ne hqi hqp]
        exact h.elsewhere q c hq hc hqc hci
  · rw [Vector.getElem_swap_of_ne (by unfold IsChild at *; omega) (by unfold IsChild at *; omega)]
    by_cases hci : c = i
    · subst hci
      simpa using habove q hq hqp
    · rw [Vector.getElem_swap_of_ne hci (by unfold IsChild at *; omega)]
      exact (habove q hq hqp).trans (hbeside c hc hpc hci)

theorem siftUp_ordered {hi : i < n} (h : UpReady data i) : Ordered (siftUp data i hi) := by
  induction data, i, hi using siftUp.induct with
  | case1 data i hi hpos parent hlt ih =>
    rw [siftUp, if_pos hpos, if_pos hlt]
    exact ih (h.swap hi _ (by unfold IsChild parent; omega) hlt)
  | case2 data i hi hpos parent hlt =>
    rw [siftUp, if_pos hpos, if_neg hlt]
    refine h.ordered_of_le fun p hp _ hchild => ?_
    have hparent : p = parent := by unfold IsChild at hchild; omega
    subst hparent
    exact not_lt.mp hlt
  | case3 data i hi hpos =>
    rw [siftUp, if_neg hpos]
    exact h.ordered_of_le fun p _ _ hchild => by unfold IsChild at hchild; omega

theorem DownReady.ordered_of_le (h : DownReady data i)
    (hstop : ∀ (c : Nat) (hc : c < n) (hi : i < n), IsChild i c → data[i] ≤ data[c]) : Ordered data := by
  intro p c hp hc hchild
  by_cases hpi : p = i
  · subst hpi
    exact hstop c hc hp hchild
  · exact h.elsewhere p c hp hc hchild hpi

theorem DownReady.swap {s : Nat} (h : DownReady data i) (hi : i < n) (hs : s < n) (hchild : IsChild i s)
    (hlt : data[s] < data[i]) (hmin : ∀ (c : Nat) (hc : c < n), IsChild i c → data[s] ≤ data[c]) :
    DownReady (data.swap i s) s := by
  refine ⟨fun p c hp hc hpc hps => ?_, fun p c hp hc hps hsc => ?_⟩
  · by_cases hpi : p = i
    · subst hpi
      rw [Vector.getElem_swap_left]
      by_cases hcs : c = s
      -- the edge that is repaired
      · subst hcs
        simpa using hlt.le
      · rw [Vector.getElem_swap_of_ne (by unfold IsChild at *; omega) hcs]
        exact hmin c hc hpc
    · rw [Vector.getElem_swap_of_ne hpi hps]
      by_cases hci : c = i
      · subst hci
        simpa using h.across p s hp hs hpc hchild
      · rw [Vector.getElem_swap_of_ne hci (by unfold IsChild at *; omega)]
        exact h.elsewhere p c hp hc hpc hpi
  · have hpi : p = i := by unfold IsChild at *; omega
    subst hpi
    rw [Vector.getElem_swap_left, Vector.getElem_swap_of_ne (by unfold IsChild at *; omega)
      (by unfold IsChild at *; omega)]
    exact h.elsewhere s c hs hc hsc (by unfold IsChild at *; omega)

theorem siftDown_ordered {hi : i < n} (h : DownReady data i) :
    Ordered (siftDown data i hi) := by
  induction data, i, hi using siftDown.induct with
  | case1 data i hi s hstay =>
    rw [siftDown, if_pos hstay]
    refine h.ordered_of_le fun c hc _ hchild => ?_
    have hmin := (smallest_spec data i hi).2 c hc hchild
    simpa [show (smallest data i hi).1 = i from hstay] using hmin
  | case2 data i hi s hmove ih =>
    rw [siftDown, if_neg hmove]
    obtain ⟨hchild, hlt⟩ := (smallest_spec data i hi).1.resolve_left hmove
    exact ih (h.swap hi s.2 hchild hlt (smallest_spec data i hi).2)

/-! ## The entries -/

theorem siftUp_perm (data : Vector α n) (i : Nat) (hi : i < n) : (siftUp data i hi).Perm data := by
  induction data, i, hi using siftUp.induct with
  | case1 data i hi hpos parent hlt ih =>
    rw [siftUp, if_pos hpos, if_pos hlt]
    exact ih.trans (Vector.swap_perm _ _)
  | case2 data i hi hpos parent hlt =>
    rw [siftUp, if_pos hpos, if_neg hlt]
  | case3 data i hi hpos =>
    rw [siftUp, if_neg hpos]

theorem siftDown_perm (data : Vector α n) (i : Nat) (hi : i < n) : (siftDown data i hi).Perm data := by
  induction data, i, hi using siftDown.induct with
  | case1 data i hi s hstay =>
    rw [siftDown, if_pos hstay]
  | case2 data i hi s hmove ih =>
    rw [siftDown, if_neg hmove]
    exact ih.trans (Vector.swap_perm _ _)

/-- The root of an ordered vector is its least entry. -/
theorem Ordered.root_le (h : Ordered data) (i : Nat) (hi : i < n) :
    data[0] ≤ data[i] := by
  induction i using Nat.strongRecOn with
  | _ i ih =>
    by_cases hzero : i = 0
    · subst hzero
      exact le_rfl
    · have hparent : (i - 1) / 2 < i := by omega
      calc data[0] ≤ data[(i - 1) / 2] := ih _ hparent (by omega)
        _ ≤ data[i] := h _ i (by omega) hi (by unfold IsChild; omega)

theorem Ordered.toArray_toVector (h : Ordered data) : Ordered data.toArray.toVector := by
  intro p c hp hc hchild
  exact h p c (by simpa using hp) (by simpa using hc) hchild

end ShapeLang.Lib.BinaryHeap
