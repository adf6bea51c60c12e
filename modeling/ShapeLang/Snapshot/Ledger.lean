import ShapeLang.Snapshot.Restore

/-!
# ShapeLang — the ledger of a restore

A restore is balanced if every share it takes is accounted for: a cell's count is the number of places
that hold it. While the restore runs, such a place is a cell that points at it (`edgeCount`), a base share
of the link context (`bases`), or a slot the restore has in hand. This file states the effect of each
operation on these three numbers. `release_base_shares` takes the second one away.
-/

namespace ShapeLang.Snapshot

open ShapeLang.Value

/-! ## Edges -/

def Bits.addr? : Bits → Option Nat
  | .addr a => some a
  | .word _ => none

/-- The addresses a cell points at. -/
def Alloc.targets : Alloc → List Nat
  | .typedObject o => o.slots.filterMap Bits.addr?
  | .array (.typedObject elems) => elems
  | .map (.typedObject entries) => entries.map (·.2)
  | .mutex value | .result _ value | .option _ value | .sharedCell value => value.bits.addr?.toList
  | .promotedCell cell _ => [cell]
  | _ => []

/-- The number of edges from the cells to `r`. -/
def edgeCount (cells : List Alloc) (r : Nat) : Nat := (cells.flatMap Alloc.targets).count r

/-- The addresses a list of slots points at. -/
def heldBy (slots : List KindedSlot) : List Nat := slots.filterMap (·.bits.addr?)

variable (r : Nat)

@[simp] theorem edgeCount_nil : edgeCount [] r = 0 := rfl

variable (cells : List Alloc)

@[simp] theorem edgeCount_cons (cell : Alloc) (cells : List Alloc) (r : Nat) :
    edgeCount (cell :: cells) r = cell.targets.count r + edgeCount cells r := by
  simp [edgeCount, List.count_append]

@[simp] theorem edgeCount_append (cells' : List Alloc) (r : Nat) :
    edgeCount (cells ++ cells') r = edgeCount cells r + edgeCount cells' r := by
  simp [edgeCount, List.count_append]

theorem count_le_edgeCount {cells : List Alloc} {cell : Alloc} (h : cell ∈ cells) (r : Nat) :
    cell.targets.count r ≤ edgeCount cells r := by
  obtain ⟨before, after, rfl⟩ := List.append_of_mem h
  simp
  omega

@[simp] theorem heldBy_nil : heldBy [] = [] := rfl

theorem count_heldBy_cons (slot : KindedSlot) (slots : List KindedSlot) (r : Nat) :
    (heldBy (slot :: slots)).count r = (heldBy [slot]).count r + (heldBy slots).count r := by
  rw [heldBy, heldBy, heldBy, ← List.count_append, ← List.filterMap_append, List.singleton_append]

/-- Pushing the parts one by one fills an array. -/
theorem editAll_pushSlot (i : Nat) (slots : List KindedSlot) (elems : List Nat) :
    editAll (fun _ => pushSlot) i slots (.array (.typedObject elems)) =
      .array (.typedObject (elems ++ heldBy slots)) := by
  induction slots generalizing i elems with
  | nil => rw [heldBy_nil, List.append_nil, editAll]
  | cons slot slots ih =>
    rw [editAll, pushSlot, heldBy, List.filterMap_cons]
    cases hbits : slot.bits with
    | addr elem =>
      show editAll (fun _ => pushSlot) (i + 1) slots (.array (.typedObject (elems ++ [elem]))) = _
      rw [ih, List.append_assoc, List.singleton_append]
      rfl
    | word w => exact ih (i + 1) elems

/-! ## Shares -/

/-- The number of shares of a cell. An address that was not handed out has none. -/
def Heap.shares (h : Heap) (r : Nat) : Nat := if r < h.cells.length then h.refcount r else 0

variable {h : Heap}

theorem Heap.shares_eq_zero {r : Nat} (hr : h.cells.length ≤ r) : h.shares r = 0 :=
  if_neg (Nat.not_lt.mpr hr)

theorem Heap.shares_of_lt {r : Nat} (hr : r < h.cells.length) : h.shares r = h.refcount r :=
  if_pos hr

@[simp] theorem Heap.shares_alloc (h : Heap) (content : Alloc) (r : Nat) :
    (h.alloc content).2.shares r = h.shares r + [h.cells.length].count r := by
  rcases Nat.lt_trichotomy r h.cells.length with hr | rfl | hr
  · simp [Heap.shares, Heap.alloc, hr, Nat.lt_succ_of_lt hr, Function.update_of_ne (Nat.ne_of_lt hr),
      Nat.ne_of_gt hr]
  · simp [Heap.shares, Heap.alloc]
  · simp [Heap.shares, Heap.alloc, Nat.not_lt_of_gt hr, Nat.not_lt.mpr hr, Nat.ne_of_lt hr]

@[simp] theorem Heap.shares_modify (h : Heap) (a : Nat) (f : Alloc → Alloc) (r : Nat) :
    (h.modify a f).shares r = h.shares r := by
  simp [Heap.shares, Heap.modify]

variable {a : Nat}

theorem Heap.shares_retain (ha : a < h.cells.length) (r : Nat) :
    (h.retain a).shares r = h.shares r + [a].count r := by
  by_cases heq : r = a
  · subst heq
    simp [Heap.shares, Heap.retain, ha]
  · simp [Heap.shares, Heap.retain, Function.update_of_ne heq, Ne.symm heq]

/-- A fresh cell is held by the slot that comes back. -/
theorem shares_allocSlot (h : Heap) (content : Alloc) (kind : NativeKind) (r : Nat) :
    (allocSlot h content kind).2.shares r =
      h.shares r + (heldBy [(allocSlot h content kind).1]).count r :=
  Heap.shares_alloc h content r

variable {slot : KindedSlot}

theorem KindedSlot.shares_clone (hbits : slot.bits = .addr a) (hkind : slot.kind.holdsShare = true)
    (ha : a < h.cells.length) (r : Nat) :
    (slot.clone h).shares r = h.shares r + [a].count r := by
  have hshare : slot.share = some a := by rw [KindedSlot.share, hbits]; exact if_pos hkind
  rw [KindedSlot.clone, hshare]
  exact Heap.shares_retain ha r

/-- Dropping a slot whose cell has another share takes one share off the cell, and nothing else. -/
theorem KindedSlot.shares_drop (hbits : slot.bits = .addr a) (hkind : slot.kind.holdsShare = true)
    (hlive : 2 ≤ h.shares a) (r : Nat) :
    (slot.drop h).shares r + [a].count r = h.shares r := by
  have hshare : slot.share = some a := by rw [KindedSlot.share, hbits]; exact if_pos hkind
  have ha : a < h.cells.length := by
    by_contra hnot
    rw [Heap.shares_eq_zero (Nat.not_lt.mp hnot)] at hlive
    omega
  rw [Heap.shares_of_lt ha] at hlive
  have hfuel : 0 < h.totalShares := by
    have hle : h.refcount a ≤ h.totalShares :=
      List.le_sum_of_mem (List.mem_map.mpr ⟨a, List.mem_range.mpr ha, rfl⟩)
    omega
  obtain ⟨fuel, hfuel⟩ := Nat.exists_eq_succ_of_ne_zero (Nat.ne_of_gt hfuel)
  have hdrop : slot.drop h = { h with refcount := Function.update h.refcount a (h.refcount a - 1) } := by
    rw [KindedSlot.drop, hshare, hfuel]
    simp only [Option.toList_some, Heap.releaseAll]
    rw [if_neg (by omega)]
    cases fuel <;> rfl
  rw [hdrop]
  by_cases heq : r = a
  · subst heq
    simp [Heap.shares, ha]
    omega
  · simp [Heap.shares, Function.update_of_ne heq, Ne.symm heq]

/-! ## Base shares -/

/-- The address a base share of the context holds. -/
def RestoreState.baseAddr (s : RestoreState) : RestoreBase → Option Nat
  | .heapNode handle => (s.ctx.heapNodeMap handle).bind (·.bits.addr?)
  | .identity handle => (s.ctx.identityMap handle).bind (·.bits.addr?)

/-- The number of base shares of `r`. -/
def RestoreState.bases (s : RestoreState) (r : Nat) : Nat :=
  (s.ctx.retained.filterMap s.baseAddr).count r

/-- The context is the ledger of exactly its nodes, and of no shared cell. -/
structure RestoreState.Ledger (s : RestoreState) : Prop where
  nodup : s.ctx.retained.Nodup
  mem_iff : ∀ base, base ∈ s.ctx.retained ↔
    ∃ handle, base = .heapNode handle ∧ (s.ctx.heapNodeMap handle).isSome = true

variable {s : RestoreState} {handle : Word}

theorem RestoreState.Ledger.recordNode (hs : s.Ledger) (hnew : s.ctx.heapNodeMap handle = none)
    (slot : KindedSlot) :
    (s.recordNode handle slot).Ledger := by
  have hfresh : RestoreBase.heapNode handle ∉ s.ctx.retained := by
    intro hmem
    obtain ⟨handle', heq, hsome⟩ := (hs.mem_iff _).mp hmem
    obtain rfl := RestoreBase.heapNode.inj heq
    rw [hnew] at hsome
    cases hsome
  refine ⟨List.nodup_cons.mpr ⟨hfresh, hs.nodup⟩, ?_⟩
  intro base
  show base ∈ RestoreBase.heapNode handle :: s.ctx.retained ↔ _
  rw [List.mem_cons, hs.mem_iff, RestoreState.heapNodeMap_recordNode]
  constructor
  · rintro (rfl | ⟨handle', rfl, hsome⟩)
    · exact ⟨handle, rfl, by simp⟩
    · refine ⟨handle', rfl, ?_⟩
      by_cases heq : handle' = handle
      · simp [heq]
      · rw [Function.update_of_ne heq]
        exact hsome
  · rintro ⟨handle', rfl, hsome⟩
    by_cases heq : handle' = handle
    · exact Or.inl (by rw [heq])
    · rw [Function.update_of_ne heq] at hsome
      exact Or.inr ⟨handle', rfl, hsome⟩

/-- Recording a node adds one base share of it. -/
theorem RestoreState.Ledger.bases_recordNode (hs : s.Ledger) (hnew : s.ctx.heapNodeMap handle = none)
    (hbits : slot.bits = .addr a) (r : Nat) :
    (s.recordNode handle slot).bases r = s.bases r + [a].count r := by
  have hold : ∀ base ∈ s.ctx.retained, (s.recordNode handle slot).baseAddr base = s.baseAddr base := by
    intro base hbase
    obtain ⟨handle', rfl, hsome⟩ := (hs.mem_iff base).mp hbase
    have hne : handle' ≠ handle := by
      rintro rfl
      rw [hnew] at hsome
      cases hsome
    simp [RestoreState.baseAddr, Function.update_of_ne hne]
  have hfirst : (s.recordNode handle slot).baseAddr (.heapNode handle) = some a := by
    simp [RestoreState.baseAddr, hbits, Bits.addr?]
  show ((RestoreBase.heapNode handle :: s.ctx.retained).filterMap
    (s.recordNode handle slot).baseAddr).count r = _
  rw [List.filterMap_cons_some hfirst, List.filterMap_congr hold, List.count_cons, List.count_singleton]
  rfl

/-- **Giving back the base shares** takes exactly these off, provided that each of their cells is also
held elsewhere. -/
theorem RestoreState.shares_releaseBases {retained : List RestoreBase} (hnodup : retained.Nodup)
    (hnode : ∀ base ∈ retained, ∃ handle slot a, base = .heapNode handle ∧
      s.ctx.heapNodeMap handle = some slot ∧ slot.bits = .addr a ∧ slot.kind.holdsShare = true)
    (hlive : ∀ r ∈ retained.filterMap s.baseAddr, (retained.filterMap s.baseAddr).count r + 1 ≤
      s.heap.shares r)
    (r : Nat) :
    (s.releaseBases retained).heap.shares r + (retained.filterMap s.baseAddr).count r =
      s.heap.shares r := by
  induction retained generalizing s with
  | nil => rfl
  | cons base retained ih =>
    obtain ⟨handle, slot, a, rfl, hslot, hbits, hkind⟩ := hnode base List.mem_cons_self
    obtain ⟨hfresh, hnodup'⟩ := List.nodup_cons.mp hnodup
    have haddr : s.baseAddr (.heapNode handle) = some a := by
      simp [RestoreState.baseAddr, hslot, hbits, Bits.addr?]
    rw [List.filterMap_cons_some haddr] at hlive ⊢
    have htwo : 2 ≤ s.heap.shares a := by
      have := hlive a List.mem_cons_self
      rw [List.count_cons_self] at this
      omega
    have hdrop := KindedSlot.shares_drop hbits hkind htwo
    let next : RestoreState :=
      { heap := slot.drop s.heap
        ctx := { s.ctx with heapNodeMap := Function.update s.ctx.heapNodeMap handle none } }
    have hstep : s.releaseBases (.heapNode handle :: retained) = next.releaseBases retained := by
      rw [RestoreState.releaseBases, hslot]
    -- The entry that goes is not looked at again: the other bases have other handles.
    have hother : ∀ base ∈ retained, ∀ handle', base = .heapNode handle' →
        next.ctx.heapNodeMap handle' = s.ctx.heapNodeMap handle' := by
      rintro base hbase handle' rfl
      refine Function.update_of_ne ?_ _ _
      rintro rfl
      exact hfresh hbase
    have haddrs : retained.filterMap next.baseAddr = retained.filterMap s.baseAddr := by
      refine List.filterMap_congr fun base hbase => ?_
      obtain ⟨handle', _, _, rfl, -⟩ := hnode base (List.mem_cons_of_mem _ hbase)
      rw [RestoreState.baseAddr, RestoreState.baseAddr, hother _ hbase handle' rfl]
    have hnode' : ∀ base ∈ retained, ∃ handle slot a, base = .heapNode handle ∧
        next.ctx.heapNodeMap handle = some slot ∧ slot.bits = .addr a ∧ slot.kind.holdsShare = true := by
      intro base hbase
      obtain ⟨handle', slot', a', rfl, hslot', hrest⟩ := hnode base (List.mem_cons_of_mem _ hbase)
      exact ⟨handle', slot', a', rfl, (hother _ hbase handle' rfl).trans hslot', hrest⟩
    have hlive' : ∀ r ∈ retained.filterMap next.baseAddr,
        (retained.filterMap next.baseAddr).count r + 1 ≤ next.heap.shares r := by
      rw [haddrs]
      intro r hr
      have hbefore := hlive r (List.mem_cons_of_mem _ hr)
      have hafter : next.heap.shares r + [a].count r = s.heap.shares r := hdrop r
      rw [List.count_cons] at hbefore
      rw [List.count_singleton] at hafter
      omega
    have hrest := ih hnodup' hnode' hlive'
    have hafter : next.heap.shares r + [a].count r = s.heap.shares r := hdrop r
    rw [List.count_singleton] at hafter
    rw [haddrs] at hrest
    rw [hstep, List.count_cons]
    omega

end ShapeLang.Snapshot
