import ShapeLang.Lib.BinaryHeap

/-!
# The priority queue

`PriorityQueueData` keeps `i64` priorities in a binary min-heap over a plain vector. `Holds` relates
a queue to the multiset it stands for; every call keeps the relation, so in every run from the empty
queue the root is a minimum of what was pushed and not yet popped, and sorting a copy of the vector
gives the order in which pops will return it.
-/

namespace ShapeLang.Value

open Lib Lib.BinaryHeap

instance instLinearOrderInt64 : LinearOrder Int64 where
  le_refl := Int64.le_refl
  le_trans _ _ _ := Int64.le_trans
  le_antisymm _ _ := Int64.le_antisymm
  le_total := Int64.le_total
  lt_iff_le_not_ge _ _ := by
    simp only [Int64.lt_iff_toInt_lt, Int64.le_iff_toInt_le]
    omega
  toDecidableLE := inferInstance

structure PriorityQueueData where
  heap : Array Int64
  deriving DecidableEq

namespace PriorityQueueData

def new : PriorityQueueData := { heap := #[] }

def peek (q : PriorityQueueData) : Option Int64 := q.heap[0]?

def push (q : PriorityQueueData) (value : Int64) : PriorityQueueData :=
  let buf := q.heap.push value
  let last := buf.size - 1
  { heap := (siftUp buf.toVector last (by simp [last, buf])).toArray }

def pop (q : PriorityQueueData) : Option Int64 × PriorityQueueData :=
  if h : 0 < q.heap.size then
    let last := q.heap.size - 1
    let buf := q.heap.swap 0 last
    let min := buf.back?
    let buf := buf.pop
    (min, { heap := if h : 0 < buf.size then (siftDown buf.toVector 0 h).toArray else buf })
  else (none, q)

def toVec (q : PriorityQueueData) : List Int64 := q.heap.toList

def toSortedVec (q : PriorityQueueData) : List Int64 := q.toVec.mergeSort (· ≤ ·)

/-- The results of `k` pops in a row. -/
def pops : Nat → PriorityQueueData → List (Option Int64)
  | 0, _ => []
  | k + 1, q => q.pop.1 :: pops k q.pop.2

/-! ## The multiset a queue stands for -/

/-- `priority` is a least element of `values`, and absent exactly where there is none. -/
def IsMinimum (values : Multiset Int64) : Option Int64 → Prop
  | none => values = 0
  | some priority => priority ∈ values ∧ ∀ other ∈ values, priority ≤ other

structure Holds (q : PriorityQueueData) (values : Multiset Int64) : Prop where
  ordered : Ordered q.heap.toVector
  entries : (q.toVec : Multiset Int64) = values

theorem holds_new : Holds new 0 := ⟨fun _ _ hp => absurd hp (by simp [new]), rfl⟩

variable {q : PriorityQueueData} {values : Multiset Int64}

theorem Holds.peek_isMinimum (h : Holds q values) :
    IsMinimum values q.peek := by
  obtain ⟨hordered, rfl⟩ := h
  by_cases hsize : 0 < q.heap.size
  · have hpeek : q.peek = some q.heap[0] := Array.getElem?_eq_getElem hsize
    rw [hpeek]
    refine ⟨by simp [toVec], fun other hother => ?_⟩
    obtain ⟨i, hi, rfl⟩ := List.mem_iff_getElem.mp (Multiset.mem_coe.mp hother)
    exact hordered.root_le i hi
  · have hempty : q.heap = #[] := Array.eq_empty_of_size_eq_zero (by omega)
    simp [peek, toVec, hempty, IsMinimum]

theorem Holds.push (h : Holds q values) (value : Int64) :
    Holds (q.push value) (value ::ₘ values) := by
  obtain ⟨hordered, rfl⟩ := h
  have hold : ∀ (p : Nat) (hp : p < (q.heap.push value).size) (hlt : p < q.heap.size),
      (q.heap.push value).toVector[p] = q.heap[p] := fun p hp hlt => Array.getElem_push_lt hlt
  have hlast : ∀ c, c < (q.heap.push value).size → c ≠ (q.heap.push value).size - 1 → c < q.heap.size := by
    intro c hc hne
    simp only [Array.size_push] at hc hne
    omega
  have hready : UpReady (q.heap.push value).toVector ((q.heap.push value).size - 1) := by
    refine ⟨fun p c hp hc hchild hne => ?_, fun p c hp hc _ hchild => ?_⟩
    · have hclt := hlast c hc hne
      have hplt : p < q.heap.size := by unfold IsChild at hchild; omega
      rw [hold p hp hplt, hold c hc hclt]
      exact hordered p c hplt hclt hchild
    -- the new entry is the last one, so it has no children
    · unfold IsChild at hchild
      omega
  refine ⟨(siftUp_ordered hready).toArray_toVector, ?_⟩
  have hperm := (siftUp_perm (q.heap.push value).toVector ((q.heap.push value).size - 1) (by simp)).toList
  calc ((q.push value).toVec : Multiset Int64)
      = ((q.heap.push value).toList : Multiset Int64) := Multiset.coe_eq_coe.mpr hperm
    _ = value ::ₘ q.toVec := by
        simp [toVec, ← Multiset.coe_add, Multiset.add_comm, ← Multiset.singleton_add]

/-- `pop` of a queue that is not empty returns the root and keeps the rest. -/
theorem Holds.pop_of_pos (h : Holds q values) (hsize : 0 < q.heap.size) :
    q.pop.1 = some q.heap[0] ∧ Holds q.pop.2 (values.erase q.heap[0]) := by
  obtain ⟨hordered, rfl⟩ := h
  have hlast : q.heap.size - 1 < q.heap.size := by omega
  -- the root is swapped to the end and popped
  have hmin : (q.heap.swap 0 (q.heap.size - 1)).back? = some q.heap[0] := by
    rw [Array.back?, Array.size_swap, Array.getElem?_eq_getElem (by simpa using hlast),
      Array.getElem_swap_right]
  have hrest : ((q.heap.swap 0 (q.heap.size - 1)).pop.toList ++ [q.heap[0]]).Perm q.toVec := by
    rw [Array.toList_pop, List.dropLast_append_getLast? _ (by rw [Array.getLast?_toList]; exact hmin)]
    exact (Array.swap_perm hsize hlast).toList
  have hentries : ((q.heap.swap 0 (q.heap.size - 1)).pop.toList : Multiset Int64)
      = (q.toVec : Multiset Int64).erase q.heap[0] := by
    rw [← Multiset.coe_eq_coe.mpr hrest, ← Multiset.coe_add, Multiset.coe_singleton,
      Multiset.add_comm, Multiset.singleton_add, Multiset.erase_cons_head]
  -- below the root the order is kept
  have hready : DownReady (q.heap.swap 0 (q.heap.size - 1)).pop.toVector 0 := by
    refine ⟨fun p c hp hc hchild hne => ?_, fun p c hp hc hchild _ => by unfold IsChild at hchild; omega⟩
    have hkept : ∀ (i : Nat) (hi : i < (q.heap.swap 0 (q.heap.size - 1)).pop.size)
        (hlt : i < q.heap.size), i ≠ 0 →
        (q.heap.swap 0 (q.heap.size - 1)).pop.toVector[i] = q.heap.toVector[i] := by
      intro i hi hlt hi0
      have hne : i ≠ q.heap.size - 1 := by
        simp only [Array.size_pop, Array.size_swap] at hi
        omega
      have hswap : i < (q.heap.swap 0 (q.heap.size - 1)).size := by simpa using hlt
      calc (q.heap.swap 0 (q.heap.size - 1)).pop[i] = (q.heap.swap 0 (q.heap.size - 1))[i] :=
        Array.getElem_pop _
        _ = q.heap[i] := Array.getElem_swap_of_ne hi0 hne
    have hshort : (q.heap.swap 0 (q.heap.size - 1)).pop.size ≤ q.heap.size := by simp
    rw [hkept p hp (by omega) hne, hkept c hc (by omega) (by unfold IsChild at hchild; omega)]
    exact hordered p c (by omega) (by omega) hchild
  -- when the root was alone there is nothing to sift
  by_cases hbuf : 0 < (q.heap.swap 0 (q.heap.size - 1)).pop.size
  · have hpop : q.pop = (some q.heap[0],
        { heap := (siftDown (q.heap.swap 0 (q.heap.size - 1)).pop.toVector 0 hbuf).toArray }) := by
      rw [PriorityQueueData.pop, dif_pos hsize, ← hmin]
      exact congrArg _ (congrArg _ (dif_pos hbuf))
    rw [hpop]
    refine ⟨rfl, (siftDown_ordered hready).toArray_toVector, ?_⟩
    rw [← hentries]
    exact Multiset.coe_eq_coe.mpr (siftDown_perm _ 0 hbuf).toList
  · have hpop : q.pop = (some q.heap[0], { heap := (q.heap.swap 0 (q.heap.size - 1)).pop }) := by
      rw [PriorityQueueData.pop, dif_pos hsize, ← hmin]
      exact congrArg _ (congrArg _ (dif_neg hbuf))
    rw [hpop]
    exact ⟨rfl, fun p c hp _ _ => absurd (Nat.zero_lt_of_lt hp) hbuf, hentries⟩

/-- `pop` returns a minimum and takes one occurrence of it, and leaves an empty queue as it is. -/
theorem Holds.pop (h : Holds q values) :
    q.pop.1 = q.peek ∧ Holds q.pop.2 (q.peek.elim values values.erase) := by
  by_cases hsize : 0 < q.heap.size
  · have hpeek : q.peek = some q.heap[0] := Array.getElem?_eq_getElem hsize
    rw [hpeek]
    exact h.pop_of_pos hsize
  · have hpeek : q.peek = none := Array.getElem?_eq_none (by omega)
    have hpop : q.pop = (none, q) := dif_neg hsize
    rw [hpeek, hpop]
    exact ⟨rfl, h⟩

theorem Holds.toSortedVec_perm (h : Holds q values) :
    (q.toSortedVec : Multiset Int64) = values := by
  rw [← h.entries]
  exact Multiset.coe_eq_coe.mpr (List.mergeSort_perm _ _)

theorem pairwise_toSortedVec (q : PriorityQueueData) : q.toSortedVec.Pairwise (· ≤ ·) :=
  List.pairwise_mergeSort' (· ≤ ·) q.toVec

/-- The minimum that `pop` takes stood at the front of the sorted copy. -/
theorem Holds.toSortedVec_pop {q' : PriorityQueueData} {priority : Int64} (h : Holds q values)
    (hmin : IsMinimum values (some priority)) (h' : Holds q' (values.erase priority)) :
    q.toSortedVec = priority :: q'.toSortedVec := by
  have hperm : q.toSortedVec.Perm (priority :: q'.toSortedVec) := by
    rw [← Multiset.coe_eq_coe, ← Multiset.cons_coe, h.toSortedVec_perm, h'.toSortedVec_perm,
      Multiset.cons_erase hmin.1]
  have hsorted : (priority :: q'.toSortedVec).Pairwise (· ≤ ·) := by
    refine List.pairwise_cons.mpr ⟨fun other hother => hmin.2 other ?_, q'.pairwise_toSortedVec⟩
    rw [← Multiset.mem_coe, h'.toSortedVec_perm] at hother
    exact Multiset.mem_of_mem_erase hother
  exact hperm.eq_of_pairwise' q.pairwise_toSortedVec hsorted

/-- The sorted copy is what pops in a row return; after it they return nothing. -/
theorem Holds.pops_eq (h : Holds q values) (k : Nat) :
    q.pops k = (List.range k).map (q.toSortedVec[·]?) := by
  induction k generalizing q values with
  | zero => rfl
  | succ k ih =>
    obtain ⟨hresult, hnext⟩ := h.pop
    have hmin := h.peek_isMinimum
    rw [pops, ih hnext, hresult, List.range_succ_eq_map, List.map_cons, List.map_map]
    cases hpeek : q.peek with
    | some priority =>
      rw [hpeek] at hmin hnext
      rw [h.toSortedVec_pop hmin hnext]
      rfl
    | none =>
      rw [hpeek] at hmin hnext
      have hempty : ∀ {q'}, Holds q' values → q'.toSortedVec = [] := fun h' => by
        rw [← Multiset.coe_eq_zero, h'.toSortedVec_perm]
        exact hmin
      rw [hempty h, hempty hnext]
      refine congrArg (none :: ·) (List.map_congr_left fun i _ => ?_)
      exact List.getElem?_nil.trans List.getElem?_nil.symm

/-! ## Runs -/

inductive Call where
  | push (value : Int64)
  | pop

/-- The values the pops of a run return, and the queue it ends with. -/
def run (q : PriorityQueueData) : List Call → List Int64 × PriorityQueueData
  | [] => ([], q)
  | .push value :: calls => (q.push value).run calls
  | .pop :: calls => (q.pop.1.toList ++ (q.pop.2.run calls).1, (q.pop.2.run calls).2)

def pushed : List Call → List Int64
  | [] => []
  | .push value :: calls => value :: pushed calls
  | .pop :: calls => pushed calls

/-- What a run leaves is what it started with and pushed, less what its pops returned. -/
theorem Holds.run (h : Holds q values) (calls : List Call) :
    ∃ rest, Holds (q.run calls).2 rest ∧ values + pushed calls = rest + (q.run calls).1 := by
  induction calls generalizing q values with
  | nil => exact ⟨values, h, rfl⟩
  | cons call calls ih =>
    cases call with
    | push value =>
      obtain ⟨rest, hrest, heq⟩ := ih (h.push value)
      refine ⟨rest, hrest, ?_⟩
      rw [PriorityQueueData.run, ← heq, pushed, ← Multiset.cons_coe, Multiset.add_cons, Multiset.cons_add]
    | pop =>
      obtain ⟨hresult, hnext⟩ := h.pop
      have hmin := h.peek_isMinimum
      obtain ⟨rest, hrest, heq⟩ := ih hnext
      refine ⟨rest, hrest, ?_⟩
      rw [PriorityQueueData.run, hresult, pushed]
      cases hpeek : q.peek with
      | none =>
        rw [hpeek] at heq
        exact heq
      | some priority =>
        rw [hpeek] at heq hmin
        have hcons : values = priority ::ₘ values.erase priority := (Multiset.cons_erase hmin.1).symm
        rw [hcons, Multiset.cons_add]
        refine (congrArg (priority ::ₘ ·) heq).trans ?_
        simp [← Multiset.cons_coe]

/-- What a run pushed and has not popped. -/
def remaining (calls : List Call) : Multiset Int64 := (pushed calls : Multiset Int64) - (new.run calls).1

theorem holds_run (calls : List Call) : Holds (new.run calls).2 (remaining calls) := by
  obtain ⟨rest, hrest, heq⟩ := holds_new.run calls
  have hremaining : remaining calls = rest := by
    rw [remaining, ← Multiset.zero_add (pushed calls : Multiset Int64), heq, Multiset.add_sub_cancel_right]
  rwa [hremaining]

/-- In every run from the empty queue, what the pops returned had been pushed, `peek` and `pop`
return a minimum of what remains, `pop` takes one occurrence of it, and the sorted copy is what the
pops to come return. -/
theorem run_multiset_with_minimum (calls : List Call) :
    let q := (new.run calls).2
    ((new.run calls).1 : Multiset Int64) ≤ pushed calls ∧ (q.toVec : Multiset Int64) = remaining calls ∧
      IsMinimum (remaining calls) q.peek ∧ IsMinimum (remaining calls) q.pop.1 ∧
      (q.pop.1 = none → q.pop.2 = q) ∧
      (∀ priority, q.pop.1 = some priority →
        (q.pop.2.toVec : Multiset Int64) = (remaining calls).erase priority) ∧
      ∀ k, q.pops k = (List.range k).map (q.toSortedVec[·]?) := by
  intro q
  have h : Holds q (remaining calls) := holds_run calls
  obtain ⟨hresult, hnext⟩ := h.pop
  refine ⟨?_, h.entries, h.peek_isMinimum, hresult ▸ h.peek_isMinimum, ?_, ?_, h.pops_eq⟩
  · obtain ⟨rest, -, heq⟩ := holds_new.run calls
    rw [← Multiset.zero_add (pushed calls : Multiset Int64), heq]
    exact Multiset.le_add_left _ _
  · intro hnone
    have hsize : ¬0 < q.heap.size := fun hpos => by simp [(h.pop_of_pos hpos).1] at hnone
    rw [PriorityQueueData.pop, dif_neg hsize]
  · intro priority hsome
    rw [← hresult, hsome] at hnext
    exact hnext.entries

end PriorityQueueData

end ShapeLang.Value
