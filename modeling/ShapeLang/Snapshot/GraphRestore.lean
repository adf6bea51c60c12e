import ShapeLang.Snapshot.Simulation

/-!
# ShapeLang — the two passes over a captured graph

The whole run: all roots are captured through one context, the first pass materializes the bodies, the
second one resolves the roots, and the base shares are given back. `Restored` is what the run leaves: one
cell for each node that the roots reach, and on each cell as many shares as there are cells and roots that
hold it.
-/

namespace ShapeLang.Snapshot

open ShapeLang.Value

section

variable {env : RestoreEnv} {moduleFnName : Word → Option String} {h : Heap}
  {codec : LeafCodec env moduleFnName h} {N : Set Nat} {c c' : SerializeIdentityCtx}
  {order order' : List Nat} {s s' : RestoreState}

/-! ## The passes -/

theorem above_nil (h : Heap) (slot : KindedSlot) : Above h [] slot :=
  fun _ hm => absurd hm List.not_mem_nil

/-- The first pass over one root. -/
theorem Emits.materializeCellBodies {slot : KindedSlot} {sv : SerializableVMValue}
    (hemit : Emits codec N c slot sv c') (hnode : NodeSlot h N slot) (hs : Sim h c [] s) :
    ∃ s' new, Snapshot.materializeCellBodies env sv s = .ok s' ∧
      Step codec N s.heap.cells c c' [] s s' new [] := by
  cases hemit with
  | leaf hnot => exact absurd hnode hnot
  | backEdge => exact ⟨s, [], rfl, step_refl hs⟩
  | @body a handle body c' _ hbits hnew hhandle hfree hrestore =>
    obtain ⟨s', new, hmaterialize, hstep⟩ := hrestore [] s hs (above_nil h slot)
    refine ⟨s', new, ?_, hstep⟩
    have hunknown : s.ctx.heapNodeMap handle = none := by
      cases hmap : s.ctx.heapNodeMap handle with
      | none => rfl
      | some slot' =>
        obtain ⟨b, hb, -⟩ := hs.only handle slot' hmap
        exact absurd hb (hfree b)
    rw [Snapshot.materializeCellBodies, hunknown]
    exact hmaterialize

/-- **The first pass** materializes every captured node. -/
theorem EmitsAll.materializeCellBodies {roots : List KindedSlot} {svs : List SerializableVMValue}
    (hall : EmitsAll codec N c order roots svs c' order') (hroots : ∀ slot ∈ roots, NodeSlot h N slot)
    (hs : Sim h c [] s) :
    ∃ s' new, materializeCellBodiesList env svs s = .ok s' ∧
      Step codec N s.heap.cells c c' [] s s' new [] := by
  induction hall generalizing s with
  | nil hc => exact ⟨s, [], rfl, step_refl hs⟩
  | @cons c c₁ c' order order₁ order' root roots sv svs hc hemit hle hrest ih =>
    obtain ⟨s₁, new₁, hfirst, hstep₁⟩ := hemit.materializeCellBodies (hroots root List.mem_cons_self) hs
    obtain ⟨s', new₂, hsecond, hstep₂⟩ := ih (fun slot hslot => hroots slot (List.mem_cons_of_mem _ hslot))
      hstep₁.sim
    obtain ⟨hafter, hle'⟩ := hrest.after
    rw [hstep₁.cells] at hstep₂
    refine ⟨s', new₁ ++ new₂, ?_, ?_⟩
    · rw [materializeCellBodiesList]
      exact Fallible.bind_eq_ok.mpr ⟨s₁, hfirst, hsecond⟩
    · exact hstep₁.trans hstep₂ rfl (fun _ => rfl) rfl (fun a handle => hc.handleOf_mono hrest.before hle)
        (fun a handle => hrest.before.handleOf_mono hafter hle')

/-- The second pass over one root looks up its node. -/
theorem Emits.linked {slot : KindedSlot} {sv : SerializableVMValue} (hemit : Emits codec N c slot sv c')
    (hnode : NodeSlot h N slot) :
    ∃ a handle, slot.bits = .addr a ∧ c'.handleOf a = some handle ∧
      ∀ expected s, serializableToKindedSlotCtx env sv expected s = s.lookupNode handle := by
  cases hemit with
  | leaf hnot => exact absurd hnode hnot
  | @backEdge a handle _ hbits hhandle =>
    refine ⟨a, handle, hbits, hhandle, fun expected s => ?_⟩
    unfold serializableToKindedSlotCtx
    rfl
  | @body a handle body c' _ hbits hnew hhandle hfree hrestore =>
    refine ⟨a, handle, hbits, hhandle, fun expected s => ?_⟩
    unfold serializableToKindedSlotCtx
    rfl

/-- **The second pass** resolves each root to the place of its node, and takes one share for it. -/
theorem EmitsAll.linkSlots {roots : List KindedSlot} {svs : List SerializableVMValue}
    {c₁ : SerializeIdentityCtx} {order₁ : List Nat} (hall : EmitsAll codec N c order roots svs c₁ order₁)
    (hroots : ∀ slot ∈ roots, NodeSlot h N slot) (hc' : Interned h N c' order') (hle : order₁ <+: order')
    (hs : Sim h c' [] s) :
    ∃ slots h', Snapshot.linkSlots env (svs.zip (roots.map (·.kind))) s =
        .ok (slots, { s with heap := h' }) ∧
      h'.cells = s.heap.cells ∧ (∀ r, h'.shares r = s.heap.shares r + (heldBy slots).count r) ∧
      List.Forall₂ (fun root slot => ∃ a r, root.bits = .addr a ∧ loc c' s a = some r ∧
        slot = ⟨.addr r, root.kind⟩) roots slots := by
  induction hall generalizing s with
  | nil hc => exact ⟨[], s.heap, rfl, rfl, fun r => rfl, .nil⟩
  | @cons c c₀ c₁ order order₀ order₁ root roots sv svs hc hemit hle₀ hrest ih =>
    have hnode := hroots root List.mem_cons_self
    obtain ⟨a, handle, hbits, hhandle, hlink⟩ := hemit.linked hnode
    obtain ⟨hafter, hle₁⟩ := hrest.after
    have hhandle' : c'.handleOf a = some handle :=
      hafter.handleOf_mono hc' hle (hrest.before.handleOf_mono hafter hle₁ hhandle)
    obtain ⟨r, h₁, hloc, hlookup, hcells, hshares⟩ := hs.lookupNode hnode hbits hhandle'
      List.not_mem_nil
    have hs₁ : Sim h c' [] { s with heap := h₁ } := hs.grow rfl (Nat.le_of_eq (by rw [hcells]))
    obtain ⟨slots, h₂, hslots, hcells₂, hshares₂, hmatch⟩ := ih
      (fun slot hslot => hroots slot (List.mem_cons_of_mem _ hslot)) hle hs₁
    refine ⟨⟨.addr r, root.kind⟩ :: slots, h₂, ?_, hcells₂.trans hcells, ?_,
      .cons ⟨a, r, hbits, hloc, rfl⟩ hmatch⟩
    · rw [List.map_cons, List.zip_cons_cons, Snapshot.linkSlots, hlink]
      refine Fallible.bind_eq_ok.mpr ⟨_, hlookup, ?_⟩
      exact Fallible.bind_eq_ok.mpr ⟨(slots, { s with heap := h₂ }), hslots, rfl⟩
    · intro r'
      have hheld : (heldBy [⟨.addr r, root.kind⟩]).count r' = [r].count r' := rfl
      rw [hshares₂ r', count_heldBy_cons, hheld]
      show h₁.shares r' + _ = _
      rw [hshares r', Nat.add_assoc]

/-! ## The nodes that are reached -/

/-- The nodes that the roots reach. -/
inductive Reached (h : Heap) (N : Set Nat) (roots : List KindedSlot) : Nat → Prop where
  | root {slot : KindedSlot} {a : Nat} (hslot : slot ∈ roots) (hnode : NodeSlot h N slot)
      (hbits : slot.bits = .addr a) : Reached h N roots a
  | part {a b : Nat} {cell : Alloc} {kind : HeapKind} {parts : List KindedSlot} {slot : KindedSlot}
      (ha : Reached h N roots a) (hcell : h.cells[a]? = some cell)
      (hparts : cell.node = some (kind, parts)) (hslot : slot ∈ parts) (hnode : NodeSlot h N slot)
      (hbits : slot.bits = .addr b) : Reached h N roots b

theorem NodeSlot.mem {slot : KindedSlot} (hnode : NodeSlot h N slot) {a : Nat}
    (hbits : slot.bits = .addr a) : a ∈ N := by
  obtain ⟨b, hb, _, _, _, _, _, rfl⟩ := hnode
  obtain rfl := Bits.addr.inj hbits
  exact hb

theorem NodeSlot.restrict {N' : Set Nat} {slot : KindedSlot} (hnode : NodeSlot h N slot)
    (hmem : ∀ a, slot.bits = .addr a → a ∈ N') : NodeSlot h N' slot := by
  obtain ⟨a, -, cell, kind, parts, hcell, hparts, rfl⟩ := hnode
  exact ⟨a, hmem a rfl, cell, kind, parts, hcell, hparts, rfl⟩

theorem Reached.mem {roots : List KindedSlot} {a : Nat} (ha : Reached h N roots a) : a ∈ N := by
  cases ha with
  | root hslot hnode hbits => exact hnode.mem hbits
  | part ha hcell hparts hslot hnode hbits => exact hnode.mem hbits

theorem Reached.restrict {roots : List KindedSlot} {a : Nat} (ha : Reached h N roots a) :
    Reached h {a | Reached h N roots a} roots a := by
  induction ha with
  | root hslot hnode hbits =>
    exact .root hslot (hnode.restrict fun b hb => .root hslot hnode hb) hbits
  | part ha hcell hparts hslot hnode hbits ih =>
    exact .part ih hcell hparts hslot
      (hnode.restrict fun b hb => .part ha hcell hparts hslot hnode hb) hbits

/-! ## The whole run -/

/-- **What a run leaves behind.** `φ` is where the nodes have gone, `new` are the cells of the restore. -/
structure Restored (codec : LeafCodec env moduleFnName h) (N : Set Nat) (roots : List KindedSlot)
    (h₀ : Heap) (slots : List KindedSlot) (h' : Heap) (new : List Alloc) (φ : Nat → Nat) : Prop where
  cells : h'.cells = h₀.cells ++ new
  inj : ∀ a ∈ N, ∀ b ∈ N, φ a = φ b → a = b
  range : ∀ a ∈ N, h₀.cells.length ≤ φ a ∧ φ a < h'.cells.length
  root : List.Forall₂ (fun root slot => ∃ a ∈ N, root.bits = .addr a ∧ slot = ⟨.addr (φ a), root.kind⟩)
    roots slots
  node : ∀ a ∈ N, ∃ cell kind parts slots, h.cells[a]? = some cell ∧ cell.node = some (kind, parts) ∧
    h'.cells[φ a]? = some (cell.rebuild slots) ∧
    List.Forall₂ (PartMatch codec N (fun a => some (φ a)) h₀.cells.length h'.cells) parts slots
  refcount : ∀ r, h₀.cells.length ≤ r → r < h'.cells.length →
    h'.refcount r = edgeCount new r + (heldBy slots).count r
  fresh : ∀ i cell, new[i]? = some cell → codec.Fresh cell ∨ ∃ a ∈ N, φ a = h₀.cells.length + i

theorem sim_empty (h h₀ : Heap) : Sim h {} [] { heap := h₀, ctx := {} } := by
  refine ⟨⟨List.nodup_nil, ?_⟩, ?_, ?_, ?_, ?_⟩
  · intro base
    simp
  · exact fun m hm => absurd hm List.not_mem_nil
  · exact fun a handle ha => nomatch ha
  · exact fun handle slot hslot => nomatch hslot
  · exact fun handle handle' slot slot' hslot => nomatch hslot

theorem mem_heldBy {slots : List KindedSlot} {slot : KindedSlot} {r : Nat} (hslot : slot ∈ slots)
    (hbits : slot.bits = .addr r) : r ∈ heldBy slots :=
  List.mem_filterMap.mpr ⟨slot, hslot, by rw [hbits]; rfl⟩

section

variable {roots slots : List KindedSlot} {new : List Alloc} {h₀ : Heap}
  (hroots : List.Forall₂ (fun root slot => ∃ a r, root.bits = .addr a ∧ loc c s a = some r ∧
    slot = ⟨.addr r, root.kind⟩) roots slots)
  (hdone : ∀ a, (c.handleOf a).isSome = true → DoneAt codec N c s h₀.cells.length a)

include hroots hdone

/-- Every reached node is captured, and held by a root or by a restored cell. -/
theorem Reached.held {a : Nat} (ha : Reached h N roots a) (hcells : s.heap.cells = h₀.cells ++ new) :
    ∃ r, loc c s a = some r ∧ 1 ≤ edgeCount new r + (heldBy slots).count r := by
  induction ha with
  | @root slot a hslot hnode hbits =>
    obtain ⟨i, hi⟩ := List.mem_iff_getElem?.mp hslot
    obtain ⟨slot', hi', a', r, hbits', hr, rfl⟩ := Fallible.forall₂_getElem?_left hroots hi
    obtain rfl := Bits.addr.inj (hbits.symm.trans hbits')
    have hpos : 0 < (heldBy slots).count r :=
      List.count_pos_iff.mpr (mem_heldBy (List.mem_of_getElem? hi') rfl)
    exact ⟨r, hr, by omega⟩
  | @part b a cell kind parts slot _ hcell hparts hslot hnode hbits ih =>
    obtain ⟨rb, hrb, -⟩ := ih
    obtain ⟨handle, _, hhandle, -⟩ := loc_eq_some hrb
    obtain ⟨rb', cell', kind', parts', slots', hrb', hlo, hcell', hparts', hrestored, hmatch⟩ :=
      hdone b (by rw [hhandle]; rfl)
    obtain rfl := Option.some.inj (hcell.symm.trans hcell')
    obtain ⟨rfl, rfl⟩ := Prod.mk.inj (Option.some.inj (hparts.symm.trans hparts'))
    obtain ⟨i, hi⟩ := List.mem_iff_getElem?.mp hslot
    obtain ⟨slot', hi', hpart⟩ := Fallible.forall₂_getElem?_left hmatch hi
    rcases hpart with ⟨-, a', r, hbits', hr, rfl⟩ | ⟨hnot, -⟩
    · obtain rfl := Bits.addr.inj (hbits.symm.trans hbits')
      refine ⟨r, hr, ?_⟩
      have hmem : cell.rebuild slots' ∈ new := by
        rw [hcells, List.getElem?_append_right hlo] at hrestored
        exact List.mem_of_getElem? hrestored
      have hle := count_le_edgeCount hmem r
      rw [Alloc.targets_rebuild hparts hmatch.length_eq.symm] at hle
      have hpos : 0 < (heldBy slots').count r :=
        List.count_pos_iff.mpr (mem_heldBy (List.mem_of_getElem? hi') rfl)
      omega
    · exact absurd hnode hnot

end

/-- **The run over a graph that its roots reach.** -/
theorem Graph.restores (hg : Graph codec N) {roots : List KindedSlot}
    (hroots : ∀ slot ∈ roots, NodeSlot h N slot) (hreach : ∀ a ∈ N, Reached h N roots a) (h₀ : Heap) :
    ∃ svs slots h' new φ, serializeSlots moduleFnName h roots = .ok svs ∧
      restoreSlots env (svs.zip (roots.map (·.kind))) h₀ = .ok (slots, h') ∧
      Restored codec N roots h₀ slots h' new φ := by
  -- the capture, the first pass and the second pass
  obtain ⟨svs, c, order, hcapture, hall⟩ := (hg.captures (h.cells.length + 1)).serializeAll
    (fun slot hslot => Or.inl (hroots slot hslot)) (interned_empty h N) (by simp)
  obtain ⟨hc, -⟩ := hall.after
  obtain ⟨s₁, new, hfirst, hstep⟩ := hall.materializeCellBodies hroots (sim_empty h h₀)
  obtain ⟨slots, h₂, hsecond, hcells₂, hshares₂, hlinked⟩ :=
    hall.linkSlots hroots hc List.prefix_rfl hstep.sim
  have hcells : s₁.heap.cells = h₀.cells ++ new := hstep.cells
  have hdone : ∀ a, (c.handleOf a).isSome = true → DoneAt codec N c s₁ h₀.cells.length a :=
    fun a ha => hstep.done a rfl ha
  -- every node is held by an edge or a root
  have hheld : ∀ a ∈ N, ∃ r, loc c s₁ a = some r ∧ 1 ≤ edgeCount new r + (heldBy slots).count r :=
    fun a ha => (hreach a ha).held hlinked hdone hcells
  have hbefore : ∀ r, h₂.shares r = h₀.shares r + edgeCount new r + (heldBy slots).count r +
      s₁.bases r := by
    intro r
    have haccounts := hstep.accounts r
    have hempty : RestoreState.bases { heap := h₀, ctx := {} } r = 0 := rfl
    rw [hempty, List.count_nil] at haccounts
    rw [hshares₂ r]
    show s₁.heap.shares r + _ = _
    have : s₁.heap.shares r + 0 = h₀.shares r + s₁.bases r + edgeCount new r + 0 := haccounts
    omega
  have hbase : ∀ base ∈ s₁.ctx.retained, ∃ handle slot a, base = .heapNode handle ∧
      s₁.ctx.heapNodeMap handle = some slot ∧ slot.bits = .addr a ∧ slot.kind.holdsShare = true := by
    intro base hmem
    obtain ⟨handle, rfl, hsome⟩ := (hstep.sim.ledger.mem_iff base).mp hmem
    obtain ⟨slot, hslot⟩ := Option.isSome_iff_exists.mp hsome
    obtain ⟨a, ha, -⟩ := hstep.sim.only handle slot hslot
    obtain ⟨r, cell, kind, parts, hmap, -, -, hnode⟩ := hstep.sim.recorded a handle ha List.not_mem_nil
    obtain rfl := Option.some.inj (hslot.symm.trans hmap)
    exact ⟨handle, _, r, rfl, hmap, rfl, holdsShare_of_node hnode⟩
  -- so a base share is never the last one
  have hlive : ∀ r ∈ s₁.ctx.retained.filterMap s₁.baseAddr,
      (s₁.ctx.retained.filterMap s₁.baseAddr).count r + 1 ≤ h₂.shares r := by
    intro r hr
    obtain ⟨base, hmem, haddr⟩ := List.mem_filterMap.mp hr
    obtain ⟨handle, slot, r', rfl, hslot, hbits, -⟩ := hbase base hmem
    obtain rfl : r' = r := by simpa [RestoreState.baseAddr, hslot, hbits, Bits.addr?] using haddr
    obtain ⟨a, ha, -⟩ := hstep.sim.only handle slot hslot
    have haN : a ∈ N := (hc.mem a ((hc.mem_iff hg.addressable a).mpr ⟨handle, ha⟩)).1
    obtain ⟨r, hloc, hpos⟩ := hheld a haN
    obtain rfl : r = r' := by simpa [loc, ha, hslot, hbits, Bits.addr?] using hloc.symm
    rw [hbefore]
    show s₁.bases r + 1 ≤ _
    omega
  -- the base shares go back, and nothing is freed
  have hreleased := RestoreState.shares_releaseBases (s := { s₁ with heap := h₂ }) hstep.sim.ledger.nodup
    hbase hlive
  have hplace : ∀ a r, loc c s₁ a = some r → (loc c s₁ a).getD 0 = r := by
    intro a r hr
    rw [hr]
    rfl
  have hcells' : (RestoreState.releaseBaseShares { s₁ with heap := h₂ }).heap.cells = h₀.cells ++ new := by
    rw [RestoreState.cells_releaseBaseShares]
    exact hcells₂.trans hcells
  have hzip : (svs.zip (roots.map (·.kind))).map (·.1) = svs :=
    List.map_fst_zip (by rw [hall.length_eq, List.length_map])
  refine ⟨svs, slots, (RestoreState.releaseBaseShares { s₁ with heap := h₂ }).heap, new,
    fun a => (loc c s₁ a).getD 0, ?_, ?_, hcells', ?_, ?_, ?_, ?_, ?_, ?_⟩
  · exact Fallible.bind_eq_ok.mpr ⟨(svs, c), hcapture, rfl⟩
  · rw [restoreSlots, hzip]
    refine Fallible.bind_eq_ok.mpr ⟨s₁, hfirst, ?_⟩
    exact Fallible.bind_eq_ok.mpr ⟨(slots, { s₁ with heap := h₂ }), hsecond, rfl⟩
  -- what the theorem lists, one after the other
  · intro a ha b hb heq
    obtain ⟨ra, hra, -⟩ := hheld a ha
    obtain ⟨rb, hrb, -⟩ := hheld b hb
    obtain rfl : ra = rb := by
      rw [← hplace a ra hra, ← hplace b rb hrb]
      exact heq
    exact hstep.sim.loc_inj hc hra hrb
  · intro a ha
    obtain ⟨r, hr, -⟩ := hheld a ha
    obtain ⟨handle, _, hhandle, -⟩ := loc_eq_some hr
    obtain ⟨r', cell, kind, parts, slots', hr', hlo, -, -, hrestored, -⟩ := hdone a (by rw [hhandle]; rfl)
    have hlt := (List.getElem?_eq_some_iff.mp hrestored).1
    rw [hplace a r' hr', hcells']
    rw [hcells] at hlt
    exact ⟨hlo, hlt⟩
  · refine ((List.forall₂_and_left _ _).mpr ⟨hroots, hlinked⟩).imp ?_
    rintro root slot ⟨hnode, a, r, hbits, hr, rfl⟩
    exact ⟨a, hnode.mem hbits, hbits, by rw [hplace a r hr]⟩
  · intro a ha
    obtain ⟨r, hr, -⟩ := hheld a ha
    obtain ⟨handle, _, hhandle, -⟩ := loc_eq_some hr
    obtain ⟨r', cell, kind, parts, slots', hr', hlo, hcell, hnode, hrestored, hmatch⟩ :=
      hdone a (by rw [hhandle]; rfl)
    refine ⟨cell, kind, parts, slots', hcell, hnode, ?_, ?_⟩
    · rw [hplace a r' hr', hcells', ← hcells]
      exact hrestored
    · refine hmatch.imp fun slot slot' hpart => hpart.mono ?_ ?_ (Nat.le_refl _)
      · intro b rb hrb
        rw [hplace b rb hrb]
      · intro i cell' _ hi
        rw [hcells', ← hcells]
        exact hi
  · intro r hlo hhi
    have hafter : _ + s₁.bases r = h₂.shares r := hreleased r
    rw [hbefore, Heap.shares_eq_zero hlo] at hafter
    rw [← Heap.shares_of_lt hhi]
    show (RestoreState.releaseBases s₁.ctx.retained _).heap.shares r = _
    omega
  · intro i cell hi
    rcases hstep.fresh i cell hi with hfresh | ⟨a, -, hr⟩
    · exact Or.inl hfresh
    · obtain ⟨handle, _, hhandle, -⟩ := loc_eq_some hr
      have haN : a ∈ N := (hc.mem a ((hc.mem_iff hg.addressable a).mpr ⟨handle, hhandle⟩)).1
      exact Or.inr ⟨a, haN, hplace a _ hr⟩

end

end ShapeLang.Snapshot
