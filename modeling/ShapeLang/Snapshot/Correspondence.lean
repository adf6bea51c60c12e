import ShapeLang.Lib.Fallible
import ShapeLang.Snapshot.Ledger
import ShapeLang.Snapshot.Serialize

/-!
# ShapeLang — the heap and its restored image

The capture walks the heap depth first and emits each node once, under a handle. The restore reads that
value in the same order and keeps, for each handle, the address of the node it has built. This file says
what corresponds to what while the two run side by side: `loc` sends a node of the heap through its handle
to its restored address, and a restored node is the original one over corresponding parts (`DoneAt`).

Fields that are no nodes (numbers, strings, arrays of numbers) travel as plain values. What the two
directions do with them is a parameter here (`LeafCodec`): the argument about the graph does not depend on
the dozens of kinds they have.
-/

namespace ShapeLang.Snapshot

open ShapeLang.Value

/-! ## Nodes -/

/-- The kind and the parts of a node: an object, an array of objects or a map of objects. -/
def Alloc.node : Alloc → Option (HeapKind × List KindedSlot)
  | .typedObject o => some (.typedObject, fieldSlots o)
  | .array (.typedObject elems) => some (.typedArray, elems.map objectSlot)
  | .map (.typedObject entries) => some (.hashMap, entries.map fun e => objectSlot e.2)
  | _ => none

/-- The wire body of a node over its captured parts. -/
def Alloc.wireBody : Alloc → List SerializableVMValue → SerializableVMValue
  | .typedObject o, svs => .typedObject o.schemaId svs o.heapMask
  | .map (.typedObject entries), svs => .hashMap (entries.map fun e => .string e.1) svs
  | _, svs => .array svs

/-- The node over restored parts. -/
def Alloc.rebuild : Alloc → List KindedSlot → Alloc
  | .typedObject o, slots => objectOf o.schemaId o.heapMask slots
  | .map (.typedObject entries), slots =>
    .map (.typedObject ((entries.map (·.1)).zip (heldBy slots)))
  | _, slots => .array (.typedObject (heldBy slots))

/-- A rebuilt node points at what its parts hold. -/
theorem Alloc.targets_rebuild {cell : Alloc} {kind : HeapKind} {parts slots : List KindedSlot}
    (hnode : cell.node = some (kind, parts)) (hlength : slots.length = parts.length) :
    (cell.rebuild slots).targets = heldBy slots := by
  cases cell
  case typedObject o =>
    show (slots.map (·.bits)).filterMap Bits.addr? = heldBy slots
    rw [List.filterMap_map]
    rfl
  case array data =>
    cases data
    case typedObject elems => rfl
    all_goals cases hnode
  case map data =>
    cases data
    case typedObject entries =>
      obtain ⟨-, rfl⟩ := Prod.mk.inj (Option.some.inj hnode)
      show ((entries.map (·.1)).zip (heldBy slots)).map (·.2) = heldBy slots
      refine List.map_snd_zip ?_
      have hle : (heldBy slots).length ≤ slots.length := List.length_filterMap_le _ _
      rw [List.length_map] at hlength ⊢
      omega
    all_goals cases hnode
  all_goals cases hnode

/-- A part of the node at `a` points at `b`. -/
def Edge (h : Heap) (a b : Nat) : Prop :=
  ∃ cell kind parts slot, h.cells[a]? = some cell ∧ cell.node = some (kind, parts) ∧ slot ∈ parts ∧
    slot.bits = .addr b

/-- The slot points at a node of `N`, at the node's kind. -/
def NodeSlot (h : Heap) (N : Set Nat) (slot : KindedSlot) : Prop :=
  ∃ a ∈ N, ∃ cell kind parts, h.cells[a]? = some cell ∧ cell.node = some (kind, parts) ∧
    slot = ⟨.addr a, .ptr kind⟩

/-- The wire values that are no nodes of the graph. -/
def SerializableVMValue.IsPlain : SerializableVMValue → Prop
  | .heapNode .. | .heapRef _ => False
  | _ => True

/-- The cells from `off` on are `new`. -/
def Segment (cells : List Alloc) (off : Nat) (new : List Alloc) : Prop :=
  ∀ (i : Nat) (cell : Alloc), new[i]? = some cell → cells[off + i]? = some cell

/-- **What the two directions do with a slot that is no node.** It is captured without a look at the
context, and restored, as a field, to a slot that holds the fresh cells `new` from the current end of the
heap on. `Same` says what the restored slot has in common with the original one. -/
structure LeafCodec (env : RestoreEnv) (moduleFnName : Word → Option String) (h : Heap) where
  Leaf : KindedSlot → Prop
  Same : KindedSlot → Nat → List Alloc → KindedSlot → Prop
  Fresh : Alloc → Prop
  spec : ∀ slot, Leaf slot → ∃ sv : SerializableVMValue, sv.IsPlain ∧
    (∀ fuel c, slotToSerializableCtx moduleFnName h (fuel + 1) slot c = .ok (sv, c)) ∧
    ∀ h₁ : Heap, ∃ slot' new h₂,
      serializableToKindedSlot env sv (expectedHeapFieldKind sv) h₁ = .ok (slot', h₂) ∧
      h₂.cells = h₁.cells ++ new ∧
      (∀ r, h₂.shares r = h₁.shares r + edgeCount new r + (heldBy [slot']).count r) ∧
      Same slot h₁.cells.length new slot' ∧ ∀ cell ∈ new, Fresh cell

section

variable {env : RestoreEnv} {moduleFnName : Word → Option String} {h : Heap}

/-- The nodes of `N` are whole, and closed under their parts. -/
structure Graph (codec : LeafCodec env moduleFnName h) (N : Set Nat) : Prop where
  addressable : h.cells.length < 2 ^ 64
  node : ∀ a ∈ N, ∃ cell kind parts, h.cells[a]? = some cell ∧ cell.node = some (kind, parts) ∧
    ∀ slot ∈ parts, NodeSlot h N slot ∨ codec.Leaf slot
  object : ∀ a ∈ N, ∀ o, h.cells[a]? = some (.typedObject o) → o.slots.length = o.fieldKinds.length
  array : ∀ a ∈ N, ∀ elems, h.cells[a]? = some (.array (.typedObject elems)) →
    ∀ e ∈ elems, NodeSlot h N (objectSlot e)
  map : ∀ a ∈ N, ∀ entries, h.cells[a]? = some (.map (.typedObject entries)) →
    (entries.map (·.1)).Nodup ∧ (∀ e ∈ entries, NodeSlot h N (objectSlot e.2)) ∧
      ¬Relation.TransGen (Edge h) a a

/-! ## Capture -/

/-- The nodes captured so far, in the order of their handles. -/
structure Interned (h : Heap) (N : Set Nat) (c : SerializeIdentityCtx) (order : List Nat) : Prop where
  nodup : order.Nodup
  mem : ∀ a ∈ order, a ∈ N ∧ a < h.cells.length
  handle_iff : ∀ a handle, c.handleOf a = some handle ↔ order[handle.toNat]? = some a
  next : c.nextHandle.toNat = order.length

theorem interned_empty (h : Heap) (N : Set Nat) : Interned h N {} [] :=
  ⟨List.nodup_nil, fun a ha => absurd ha List.not_mem_nil, fun a handle => by simp, rfl⟩

theorem length_le_of_nodup {order : List Nat} {n : Nat} (hnodup : order.Nodup) (hlt : ∀ a ∈ order, a < n) :
    order.length ≤ n := by
  have hsub : order ⊆ List.range n := fun a ha => List.mem_range.mpr (hlt a ha)
  simpa using (hnodup.subperm hsub).length_le

variable {N : Set Nat} {c : SerializeIdentityCtx} {order : List Nat}

theorem Interned.length_le (hc : Interned h N c order) : order.length ≤ h.cells.length :=
  length_le_of_nodup hc.nodup fun a ha => (hc.mem a ha).2

theorem Interned.mem_iff (hc : Interned h N c order) (hlt : h.cells.length < 2 ^ 64) (a : Nat) :
    a ∈ order ↔ ∃ handle, c.handleOf a = some handle := by
  constructor
  · intro ha
    obtain ⟨i, hi⟩ := List.mem_iff_getElem?.mp ha
    have hlength := hc.length_le
    have hbound : i < order.length := (List.getElem?_eq_some_iff.mp hi).1
    refine ⟨BitVec.ofNat 64 i, (hc.handle_iff a _).mpr ?_⟩
    rw [BitVec.toNat_ofNat, Nat.mod_eq_of_lt (by omega)]
    exact hi
  · rintro ⟨handle, hhandle⟩
    exact List.mem_of_getElem? ((hc.handle_iff a handle).mp hhandle)

variable {a : Nat} {handle : Word}

/-- Two nodes do not share a handle. -/
theorem Interned.handle_inj (hc : Interned h N c order) {b : Nat} (ha : c.handleOf a = some handle)
    (hb : c.handleOf b = some handle) : a = b := by
  rw [hc.handle_iff] at ha hb
  exact Option.some.inj (ha.symm.trans hb)

/-- The next handle is nobody's. -/
theorem Interned.handleOf_ne_next (hc : Interned h N c order) (a : Nat) :
    c.handleOf a ≠ some c.nextHandle := by
  intro ha
  rw [hc.handle_iff, hc.next, List.getElem?_eq_none (Nat.le_refl _)] at ha
  cases ha

theorem Interned.length_lt (hc : Interned h N c order) (ha : a ∈ N) (hlt : a < h.cells.length)
    (hnew : a ∉ order) :
    order.length < h.cells.length := by
  have hcons : (a :: order).length ≤ h.cells.length := by
    refine length_le_of_nodup (List.nodup_cons.mpr ⟨hnew, hc.nodup⟩) ?_
    intro b hb
    rcases List.mem_cons.mp hb with rfl | hb
    · exact hlt
    · exact (hc.mem b hb).2
  exact hcons

theorem Interned.intern (hc : Interned h N c order) (hsize : h.cells.length < 2 ^ 64) (ha : a ∈ N)
    (hlt : a < h.cells.length) (hnew : a ∉ order) :
    Interned h N (c.intern a) (order ++ [a]) := by
  have hlength := hc.length_lt ha hlt hnew
  have hnext : (c.nextHandle + 1).toNat = order.length + 1 := by
    rw [BitVec.toNat_add, hc.next]
    exact Nat.mod_eq_of_lt (by simp; omega)
  -- no duplicates, all in the graph, the handles are the positions, and the next one is free
  refine ⟨List.nodup_append.mpr ⟨hc.nodup, by simp, ?_⟩, ?_, ?_, ?_⟩
  · intro b hb b' hb' heq
    obtain rfl := List.mem_singleton.mp hb'
    exact hnew (heq ▸ hb)
  · intro b hb
    rcases List.mem_append.mp hb with hb | hb
    · exact hc.mem b hb
    · obtain rfl := List.mem_singleton.mp hb
      exact ⟨ha, hlt⟩
  · intro b handle
    show Function.update c.handleOf a (some c.nextHandle) b = some handle ↔ _
    by_cases heq : b = a
    · subst heq
      rw [Function.update_self, Option.some.injEq]
      constructor
      · rintro rfl
        rw [hc.next, List.getElem?_append_right (Nat.le_refl _), Nat.sub_self]
        rfl
      · intro hget
        -- an earlier position would make the new address an old one
        have hle : order.length ≤ handle.toNat := by
          by_contra hnot
          rw [List.getElem?_append_left (by omega)] at hget
          exact hnew (List.mem_of_getElem? hget)
        have hbound := (List.getElem?_eq_some_iff.mp hget).1
        rw [List.length_append, List.length_singleton] at hbound
        exact BitVec.eq_of_toNat_eq (by rw [hc.next]; omega)
    · rw [Function.update_of_ne heq, hc.handle_iff]
      constructor
      · intro hget
        rw [List.getElem?_append_left (List.getElem?_eq_some_iff.mp hget).1]
        exact hget
      · intro hget
        rw [List.getElem?_append] at hget
        split at hget
        · exact hget
        · have hmem := List.mem_of_getElem? hget
          exact absurd (List.mem_singleton.mp hmem) heq
  · rw [List.length_append, List.length_singleton]
    exact hnext

variable {c' : SerializeIdentityCtx}

/-- Handles are kept. -/
theorem Interned.handleOf_mono (hc : Interned h N c order) {order' : List Nat}
    (hc' : Interned h N c' order') (hle : order <+: order') (ha : c.handleOf a = some handle) :
    c'.handleOf a = some handle := by
  rw [hc.handle_iff] at ha
  rw [hc'.handle_iff]
  obtain ⟨rest, rfl⟩ := hle
  rw [List.getElem?_append_left (List.getElem?_eq_some_iff.mp ha).1]
  exact ha

variable {parts : List KindedSlot}

/-- The capture of a node interns it and captures its parts. -/
theorem slotToSerializableCtx_node {cell : Alloc} {kind : HeapKind} (hcell : h.cells[a]? = some cell)
    (hnode : cell.node = some (kind, parts)) (fuel : Nat) (c : SerializeIdentityCtx) :
    slotToSerializableCtx moduleFnName h (fuel + 1) ⟨.addr a, .ptr kind⟩ c =
      internOrBackedge a (fun c => do
        let (svs, c) ← serializeAll (slotToSerializableCtx moduleFnName h fuel) parts c
        .ok (cell.wireBody svs, c)) c := by
  cases cell
  case typedObject o =>
    obtain ⟨rfl, rfl⟩ := Prod.mk.inj (Option.some.inj hnode)
    show cellToSerializable h (slotToSerializableCtx moduleFnName h fuel) .typedObject a c = _
    unfold cellToSerializable
    rw [hcell]
    rfl
  case array data =>
    cases data
    case typedObject elems =>
      obtain ⟨rfl, rfl⟩ := Prod.mk.inj (Option.some.inj hnode)
      show cellToSerializable h (slotToSerializableCtx moduleFnName h fuel) .typedArray a c = _
      unfold cellToSerializable
      rw [hcell]
      rfl
    all_goals cases hnode
  case map data =>
    cases data
    case typedObject entries =>
      obtain ⟨rfl, rfl⟩ := Prod.mk.inj (Option.some.inj hnode)
      show cellToSerializable h (slotToSerializableCtx moduleFnName h fuel) .hashMap a c = _
      unfold cellToSerializable
      rw [hcell]
      rfl
    all_goals cases hnode
  all_goals cases hnode

/-! ## Correspondence -/

/-- The restored address of a node: through its handle. -/
def loc (c : SerializeIdentityCtx) (s : RestoreState) (a : Nat) : Option Nat :=
  (c.handleOf a).bind fun handle => (s.ctx.heapNodeMap handle).bind (·.bits.addr?)

/-- The restored slot corresponds to the part: a node goes to its restored address, and a leaf to cells
from `lo` on. -/
def PartMatch (codec : LeafCodec env moduleFnName h) (N : Set Nat) (loc : Nat → Option Nat) (lo : Nat)
    (cells : List Alloc) (slot slot' : KindedSlot) : Prop :=
  (NodeSlot h N slot ∧ ∃ a r, slot.bits = .addr a ∧ loc a = some r ∧ slot' = ⟨.addr r, slot.kind⟩) ∨
    (¬NodeSlot h N slot ∧ codec.Leaf slot ∧
      ∃ off new, lo ≤ off ∧ Segment cells off new ∧ codec.Same slot off new slot')

/-- The node at `a` is restored, at an address from `lo` on. -/
def DoneAt (codec : LeafCodec env moduleFnName h) (N : Set Nat) (c : SerializeIdentityCtx)
    (s : RestoreState) (lo a : Nat) : Prop :=
  ∃ r cell kind parts slots, loc c s a = some r ∧ lo ≤ r ∧ h.cells[a]? = some cell ∧
    cell.node = some (kind, parts) ∧ s.heap.cells[r]? = some (cell.rebuild slots) ∧
    List.Forall₂ (PartMatch codec N (loc c s) lo s.heap.cells) parts slots

/-- The link context knows the captured nodes, except for the maps that are still open. -/
structure Sim (h : Heap) (c : SerializeIdentityCtx) (opened : List Nat) (s : RestoreState) : Prop where
  ledger : s.Ledger
  opened_mem : ∀ m ∈ opened, ∃ handle, c.handleOf m = some handle
  recorded : ∀ a handle, c.handleOf a = some handle → a ∉ opened →
    ∃ r cell kind parts, s.ctx.heapNodeMap handle = some ⟨.addr r, .ptr kind⟩ ∧
      r < s.heap.cells.length ∧ h.cells[a]? = some cell ∧ cell.node = some (kind, parts)
  only : ∀ handle slot, s.ctx.heapNodeMap handle = some slot →
    ∃ a, c.handleOf a = some handle ∧ a ∉ opened
  distinct : ∀ handle handle' slot slot', s.ctx.heapNodeMap handle = some slot →
    s.ctx.heapNodeMap handle' = some slot' → slot.bits = slot'.bits → handle = handle'

/-- A stretch of the restore, from `s` to `s'`, beside the stretch of the capture from `c` to `c'`. The
cells that were there are `cells₀` now, the cells `new` came after them, and `held` is what the restore has
gained in hand. -/
structure Step (codec : LeafCodec env moduleFnName h) (N : Set Nat) (cells₀ : List Alloc)
    (c c' : SerializeIdentityCtx) (opened : List Nat) (s s' : RestoreState) (new : List Alloc)
    (held : List Nat) : Prop where
  sim : Sim h c' opened s'
  cells : s'.heap.cells = cells₀ ++ new
  nodes : ∀ handle slot, s.ctx.heapNodeMap handle = some slot → s'.ctx.heapNodeMap handle = some slot
  accounts : ∀ r, s'.heap.shares r + s.bases r =
    s.heap.shares r + s'.bases r + edgeCount new r + held.count r
  done : ∀ a, c.handleOf a = none → (c'.handleOf a).isSome = true →
    DoneAt codec N c' s' cells₀.length a
  fresh : ∀ i cell, new[i]? = some cell → codec.Fresh cell ∨
    ∃ a, c.handleOf a = none ∧ loc c' s' a = some (cells₀.length + i)

variable {codec : LeafCodec env moduleFnName h}

theorem PartMatch.mono {loc loc' : Nat → Option Nat} {lo lo' : Nat} {cells cells' : List Alloc}
    {slot slot' : KindedSlot} (hpart : PartMatch codec N loc lo cells slot slot')
    (hloc : ∀ a r, loc a = some r → loc' a = some r)
    (hcells : ∀ (i : Nat) (cell : Alloc), lo ≤ i → cells[i]? = some cell → cells'[i]? = some cell)
    (hle : lo' ≤ lo) : PartMatch codec N loc' lo' cells' slot slot' := by
  rcases hpart with ⟨hnode, a, r, hbits, hr, rfl⟩ | ⟨hnode, hleaf, off, new, hoff, hseg, hsame⟩
  · exact Or.inl ⟨hnode, a, r, hbits, hloc a r hr, rfl⟩
  · refine Or.inr ⟨hnode, hleaf, off, new, hle.trans hoff, ?_, hsame⟩
    intro i cell hi
    exact hcells (off + i) cell (by omega) (hseg i cell hi)

variable {s s' : RestoreState}

theorem DoneAt.mono {c : SerializeIdentityCtx} {lo lo' : Nat} (hdone : DoneAt codec N c s lo a)
    (hloc : ∀ a r, loc c s a = some r → loc c' s' a = some r)
    (hcells : ∀ (i : Nat) (cell : Alloc), lo ≤ i → s.heap.cells[i]? = some cell →
      s'.heap.cells[i]? = some cell)
    (hle : lo' ≤ lo) : DoneAt codec N c' s' lo' a := by
  obtain ⟨r, cell, kind, parts, slots, hr, hlo, hcell, hnode, hrestored, hparts⟩ := hdone
  refine ⟨r, cell, kind, parts, slots, hloc a r hr, hle.trans hlo, hcell, hnode, hcells r _ hlo hrestored,
    hparts.imp fun slot slot' hpart => hpart.mono hloc hcells hle⟩

variable {opened : List Nat}

/-- Where a captured node is: in the context at its handle. -/
theorem Sim.loc_eq (hs : Sim h c opened s) (ha : c.handleOf a = some handle) (hopen : a ∉ opened) :
    ∃ r cell kind parts, loc c s a = some r ∧ s.ctx.heapNodeMap handle = some ⟨.addr r, .ptr kind⟩ ∧
      r < s.heap.cells.length ∧ h.cells[a]? = some cell ∧ cell.node = some (kind, parts) := by
  obtain ⟨r, cell, kind, parts, hmap, hr, hcell, hnode⟩ := hs.recorded a handle ha hopen
  exact ⟨r, cell, kind, parts, by simp [loc, ha, hmap, Bits.addr?], hmap, hr, hcell, hnode⟩

theorem loc_eq_some {r : Nat} (hloc : loc c s a = some r) :
    ∃ handle slot, c.handleOf a = some handle ∧ s.ctx.heapNodeMap handle = some slot ∧
      slot.bits = .addr r := by
  obtain ⟨handle, hhandle, hloc⟩ := Option.bind_eq_some_iff.mp hloc
  obtain ⟨slot, hslot, hbits⟩ := Option.bind_eq_some_iff.mp hloc
  refine ⟨handle, slot, hhandle, hslot, ?_⟩
  cases hb : slot.bits with
  | addr r' =>
    rw [hb] at hbits
    rw [Option.some.inj hbits]
  | word w =>
    rw [hb] at hbits
    cases hbits

/-- Different nodes have different places. -/
theorem Sim.loc_inj (hs : Sim h c opened s) (hc : Interned h N c order) {b r : Nat}
    (ha : loc c s a = some r) (hb : loc c s b = some r) :
    a = b := by
  obtain ⟨handle, slot, hhandle, hslot, hbits⟩ := loc_eq_some ha
  obtain ⟨handle', slot', hhandle', hslot', hbits'⟩ := loc_eq_some hb
  obtain rfl := hs.distinct handle handle' slot slot' hslot hslot' (hbits.trans hbits'.symm)
  exact hc.handle_inj hhandle hhandle'

/-- Only the number of cells matters to the correspondence of the contexts. -/
theorem Sim.grow (hs : Sim h c opened s) (hctx : s'.ctx = s.ctx)
    (hle : s.heap.cells.length ≤ s'.heap.cells.length) :
    Sim h c opened s' := by
  obtain ⟨hnodup, hmem⟩ := hs.ledger
  refine ⟨⟨by rw [hctx]; exact hnodup, by rw [hctx]; exact hmem⟩, hs.opened_mem, ?_,
    by rw [hctx]; exact hs.only, by rw [hctx]; exact hs.distinct⟩
  intro a handle ha hopen
  obtain ⟨r, cell, kind, parts, hmap, hr, hrest⟩ := hs.recorded a handle ha hopen
  exact ⟨r, cell, kind, parts, by rw [hctx]; exact hmap, by omega, hrest⟩

theorem holdsShare_of_node {cell : Alloc} {kind : HeapKind} (hnode : cell.node = some (kind, parts)) :
    (NativeKind.ptr kind).holdsShare = true := by
  unfold Alloc.node at hnode
  split at hnode
  · obtain ⟨rfl, -⟩ := Prod.mk.inj (Option.some.inj hnode)
    rfl
  · obtain ⟨rfl, -⟩ := Prod.mk.inj (Option.some.inj hnode)
    rfl
  · obtain ⟨rfl, -⟩ := Prod.mk.inj (Option.some.inj hnode)
    rfl
  · cases hnode

/-- Places are kept while handles and nodes are. -/
theorem loc_mono (hhandles : ∀ a handle, c.handleOf a = some handle → c'.handleOf a = some handle)
    (hnodes : ∀ handle slot, s.ctx.heapNodeMap handle = some slot → s'.ctx.heapNodeMap handle =
      some slot)
    {r : Nat} (hloc : loc c s a = some r) :
    loc c' s' a = some r := by
  obtain ⟨handle, slot, hhandle, hslot, hbits⟩ := loc_eq_some hloc
  simp [loc, hhandles a handle hhandle, hnodes handle slot hslot, hbits, Bits.addr?]

/-! ## What the capture of a slot restores to -/

/-- The open maps lie above the slot, and on no cycle. -/
def Above (h : Heap) (opened : List Nat) (slot : KindedSlot) : Prop :=
  ∀ m ∈ opened, ¬Relation.TransGen (Edge h) m m ∧
    ∀ a, slot.bits = .addr a → Relation.TransGen (Edge h) m a

/-- The three things a captured slot can be. -/
inductive Emits (codec : LeafCodec env moduleFnName h) (N : Set Nat) (c : SerializeIdentityCtx)
    (slot : KindedSlot) : SerializableVMValue → SerializeIdentityCtx → Prop where
  | leaf {sv : SerializableVMValue} (hnode : ¬NodeSlot h N slot) (hleaf : codec.Leaf slot)
      (hplain : sv.IsPlain)
      (hrestore : ∀ h₁ : Heap, ∃ slot' new h₂,
        serializableToKindedSlot env sv (expectedHeapFieldKind sv) h₁ = .ok (slot', h₂) ∧
        h₂.cells = h₁.cells ++ new ∧
        (∀ r, h₂.shares r = h₁.shares r + edgeCount new r + (heldBy [slot']).count r) ∧
        codec.Same slot h₁.cells.length new slot' ∧ ∀ cell ∈ new, codec.Fresh cell) :
      Emits codec N c slot sv c
  | backEdge {a : Nat} {handle : Word} (hnode : NodeSlot h N slot) (hbits : slot.bits = .addr a)
      (hhandle : c.handleOf a = some handle) : Emits codec N c slot (.heapRef handle) c
  | body {a : Nat} {handle : Word} {body : SerializableVMValue} {c' : SerializeIdentityCtx}
      (hnode : NodeSlot h N slot) (hbits : slot.bits = .addr a) (hnew : c.handleOf a = none)
      (hhandle : c'.handleOf a = some handle) (hfree : ∀ b, c.handleOf b ≠ some handle)
      (hrestore : ∀ opened s, Sim h c opened s → Above h opened slot →
        ∃ s' new, materializeNodeBase env handle body s = .ok s' ∧
          Step codec N s.heap.cells c c' opened s s' new []) :
      Emits codec N c slot (.heapNode handle body) c'

end

end ShapeLang.Snapshot
