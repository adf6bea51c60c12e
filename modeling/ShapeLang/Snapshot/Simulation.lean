import ShapeLang.Snapshot.Correspondence

/-!
# ShapeLang — a snapshot restores the graph it was taken from

Capture and restore, side by side. The induction is on the depth of the capture: a captured slot is a
leaf, a back-edge to a node that is already there, or a body, and then its parts are captured slots one
level down. A back-edge never finds an open map, because an open map reaches the slot that is captured and
no map lies on a cycle.
-/

namespace ShapeLang.Snapshot

open ShapeLang.Value

section

variable {env : RestoreEnv} {moduleFnName : Word → Option String} {h : Heap}
  {codec : LeafCodec env moduleFnName h} {N : Set Nat} {c c' : SerializeIdentityCtx}
  {order order' : List Nat} {opened : List Nat} {s s' : RestoreState}

/-! ## One slot -/

theorem resolveChild_of_plain {sv : SerializableVMValue} (hplain : sv.IsPlain) (s : RestoreState) :
    resolveChild env sv s = (do
      let (slot, h) ← serializableToKindedSlot env sv (expectedHeapFieldKind sv) s.heap
      .ok (slot, { s with heap := h })) := by
  cases sv
  case heapNode handle body => exact absurd hplain id
  case heapRef handle => exact absurd hplain id
  all_goals rfl

variable {a : Nat} {handle : Word}

/-- A node slot is resolved by its handle. -/
theorem Sim.lookupNode (hs : Sim h c opened s) {slot : KindedSlot} (hnode : NodeSlot h N slot)
    (hbits : slot.bits = .addr a) (ha : c.handleOf a = some handle) (hopen : a ∉ opened) :
    ∃ r h', loc c s a = some r ∧ s.lookupNode handle = .ok (⟨.addr r, slot.kind⟩, { s with heap := h' }) ∧
      h'.cells = s.heap.cells ∧ ∀ r', h'.shares r' = s.heap.shares r' + [r].count r' := by
  obtain ⟨r, cell, kind, parts, hloc, hmap, hr, hcell, hparts⟩ := hs.loc_eq ha hopen
  obtain ⟨a', -, cell', kind', parts', hcell', hparts', rfl⟩ := hnode
  obtain rfl := Bits.addr.inj hbits
  obtain rfl := Option.some.inj (hcell.symm.trans hcell')
  obtain ⟨rfl, rfl⟩ := Prod.mk.inj (Option.some.inj (hparts.symm.trans hparts'))
  refine ⟨r, _, hloc, RestoreState.lookupNode_eq_ok.mpr ⟨hmap, rfl⟩, KindedSlot.cells_clone _ _, ?_⟩
  exact KindedSlot.shares_clone rfl (holdsShare_of_node hparts) hr

variable {cells₀ : List Alloc}

/-- Gaining shares of cells that are there does not disturb a step. -/
theorem Step.gain {new : List Alloc} {held : List Nat}
    (hstep : Step codec N cells₀ c c' opened s s' new held) {h' : Heap}
    (hcells : h'.cells = s'.heap.cells) {gained : List Nat}
    (hshares : ∀ r, h'.shares r = s'.heap.shares r + gained.count r) :
    Step codec N cells₀ c c' opened s { s' with heap := h' } new (held ++ gained) := by
  refine ⟨hstep.sim.grow rfl (Nat.le_of_eq (by rw [hcells])), hcells.trans hstep.cells, hstep.nodes,
    ?_, ?_, ?_⟩
  · intro r
    have hbefore := hstep.accounts r
    show h'.shares r + s.bases r = s.heap.shares r + s'.bases r + _ + _
    rw [hshares r, List.count_append]
    omega
  · intro a hnew hsome
    refine (hstep.done a hnew hsome).mono ?_ ?_ (Nat.le_refl _)
    · intro a r hr
      exact hr
    · intro i cell _ hcell
      show h'.cells[i]? = some cell
      rw [hcells]
      exact hcell
  · intro i cell hcell
    exact hstep.fresh i cell hcell

theorem step_refl (hs : Sim h c opened s) : Step codec N s.heap.cells c c opened s s [] [] := by
  refine ⟨hs, (List.append_nil _).symm, fun _ _ hslot => hslot, fun r => by simp, ?_, ?_⟩
  · intro a hnew hsome
    rw [hnew] at hsome
    cases hsome
  · intro i cell hcell
    cases hcell

/-- **A captured slot is resolved to what corresponds to it.** -/
theorem Emits.resolveChild {slot : KindedSlot} {sv : SerializableVMValue}
    (hemit : Emits codec N c slot sv c') (hs : Sim h c opened s)
    (habove : Above h opened slot) :
    ∃ slot' s' new, resolveChild env sv s = .ok (slot', s') ∧
      Step codec N s.heap.cells c c' opened s s' new (heldBy [slot']) ∧
      PartMatch codec N (loc c' s') s.heap.cells.length s'.heap.cells slot slot' := by
  cases hemit with
  | leaf hnode hleaf hplain hrestore =>
    obtain ⟨slot', new, h₂, hslot, hcells, hshares, hsame, hfresh⟩ := hrestore s.heap
    refine ⟨slot', { s with heap := h₂ }, new, ?_, ⟨?_, hcells, fun _ _ hmap => hmap, ?_, ?_, ?_⟩, ?_⟩
    · rw [resolveChild_of_plain hplain, hslot]
      rfl
    · exact hs.grow rfl (by simp [hcells])
    · intro r
      show h₂.shares r + s.bases r = s.heap.shares r + s.bases r + _ + _
      rw [hshares r]
      omega
    · intro a hnew hsome
      rw [hnew] at hsome
      cases hsome
    · intro i cell hcell
      exact Or.inl (hfresh cell (List.mem_of_getElem? hcell))
    · refine Or.inr ⟨hnode, hleaf, s.heap.cells.length, new, Nat.le_refl _, ?_, hsame⟩
      intro i cell hcell
      show h₂.cells[_]? = some cell
      rw [hcells, List.getElem?_append_right (Nat.le_add_right _ _), Nat.add_sub_cancel_left]
      exact hcell
  | @backEdge a handle hnode hbits hhandle =>
    -- An open map would lie on a cycle.
    have hopen : a ∉ opened := fun hmem => (habove a hmem).1 ((habove a hmem).2 a hbits)
    obtain ⟨r, h', hloc, hlookup, hcells, hshares⟩ := hs.lookupNode hnode hbits hhandle hopen
    exact ⟨_, _, [], hlookup, (step_refl hs).gain hcells hshares, Or.inl ⟨hnode, a, r, hbits, hloc, rfl⟩⟩
  | @body a handle body c' hnode hbits hnew hhandle hfree hrestore =>
    obtain ⟨s₁, new, hmaterialize, hstep⟩ := hrestore opened s hs habove
    have hunknown : s.ctx.heapNodeMap handle = none := by
      cases hmap : s.ctx.heapNodeMap handle with
      | none => rfl
      | some slot' =>
        obtain ⟨b, hb, -⟩ := hs.only handle slot' hmap
        exact absurd hb (hfree b)
    have hopen : a ∉ opened := by
      intro hmem
      obtain ⟨handle', hhandle'⟩ := hs.opened_mem a hmem
      rw [hnew] at hhandle'
      cases hhandle'
    obtain ⟨r, h', hloc, hlookup, hcells, hshares⟩ := hstep.sim.lookupNode hnode hbits hhandle hopen
    refine ⟨⟨.addr r, slot.kind⟩, _, new, ?_, hstep.gain hcells hshares,
      Or.inl ⟨hnode, a, r, hbits, hloc, rfl⟩⟩
    rw [Snapshot.resolveChild, hunknown]
    show (do
      let s ← materializeNodeBase env handle body s
      s.lookupNode handle) = _
    rw [hmaterialize]
    exact hlookup

/-! ## The parts of a node -/

/-- Two stretches in a row. Between them the restore may write into the cells before the first one. -/
theorem Step.trans {c₁ : SerializeIdentityCtx} {s₁ s₂ s₃ : RestoreState} {cells₁ new₁ new₂ : List Alloc}
    {held₁ held₂ opened₁ : List Nat} (hfirst : Step codec N cells₁ c c₁ opened₁ s s₁ new₁ held₁)
    (hsecond : Step codec N (cells₀ ++ new₁) c₁ c' opened s₂ s₃ new₂ held₂) (hctx : s₂.ctx = s₁.ctx)
    (hshares : ∀ r, s₂.heap.shares r = s₁.heap.shares r) (hlength : cells₁.length = cells₀.length)
    (hkeep : ∀ a handle, c.handleOf a = some handle → c₁.handleOf a = some handle)
    (hkeep₁ : ∀ a handle, c₁.handleOf a = some handle → c'.handleOf a = some handle) :
    Step codec N cells₀ c c' opened s s₃ (new₁ ++ new₂) (held₁ ++ held₂) := by
  -- what the first stretch recorded is still recorded after the second
  have hnodes : ∀ handle slot, s₁.ctx.heapNodeMap handle = some slot →
      s₃.ctx.heapNodeMap handle = some slot := by
    intro handle slot hslot
    exact hsecond.nodes handle slot (by rw [hctx]; exact hslot)
  have hloc : ∀ a r, loc c₁ s₁ a = some r → loc c' s₃ a = some r :=
    fun a r => loc_mono hkeep₁ hnodes
  have hcells : s₃.heap.cells = cells₀ ++ (new₁ ++ new₂) := by rw [hsecond.cells, List.append_assoc]
  have hagree : ∀ (i : Nat) (cell : Alloc), cells₁.length ≤ i → s₁.heap.cells[i]? = some cell →
      s₃.heap.cells[i]? = some cell := by
    intro i cell hi hcell
    rw [hfirst.cells, List.getElem?_append_right hi] at hcell
    rw [hcells, List.getElem?_append_right (by omega), ← hlength,
      List.getElem?_append_left (List.getElem?_eq_some_iff.mp hcell).1]
    exact hcell
  refine ⟨hsecond.sim, hcells, fun handle slot hslot => hnodes handle slot (hfirst.nodes handle slot hslot),
    ?_, ?_, ?_⟩
  · intro r
    have haccounts₁ := hfirst.accounts r
    have haccounts₂ := hsecond.accounts r
    have hbases : s₂.bases r = s₁.bases r := by
      obtain ⟨heap₂, ctx₂⟩ := s₂
      obtain rfl : ctx₂ = s₁.ctx := hctx
      rfl
    rw [hshares r] at haccounts₂
    rw [edgeCount_append, List.count_append]
    omega
  -- a node is finished by the stretch that interned it
  · intro a hnew hsome
    cases hmid : c₁.handleOf a with
    | some handle =>
      refine (hfirst.done a hnew (by rw [hmid]; rfl)).mono hloc hagree (Nat.le_of_eq hlength.symm)
    | none =>
      refine (hsecond.done a hmid hsome).mono (fun _ _ hr => hr) (fun _ _ _ hcell => hcell) ?_
      simp
  · intro i cell hcell
    rw [List.getElem?_append] at hcell
    split at hcell
    · rcases hfirst.fresh i cell hcell with hfresh | ⟨a, hnew, hr⟩
      · exact Or.inl hfresh
      · refine Or.inr ⟨a, hnew, ?_⟩
        rw [← hlength]
        exact hloc a _ hr
    · rcases hsecond.fresh _ cell hcell with hfresh | ⟨a, hnew, hr⟩
      · exact Or.inl hfresh
      · refine Or.inr ⟨a, ?_, ?_⟩
        · cases hhandle : c.handleOf a with
          | none => rfl
          | some handle =>
            rw [hkeep a handle hhandle] at hnew
            cases hnew
        · rw [hr, List.length_append]
          congr 1
          omega

/-- Captured parts, the context threaded through. -/
inductive EmitsAll (codec : LeafCodec env moduleFnName h) (N : Set Nat) :
    SerializeIdentityCtx → List Nat → List KindedSlot → List SerializableVMValue →
      SerializeIdentityCtx → List Nat → Prop where
  | nil {c : SerializeIdentityCtx} {order : List Nat} (hc : Interned h N c order) :
      EmitsAll codec N c order [] [] c order
  | cons {c c₁ c' : SerializeIdentityCtx} {order order₁ order' : List Nat} {slot : KindedSlot}
      {slots : List KindedSlot} {sv : SerializableVMValue} {svs : List SerializableVMValue}
      (hc : Interned h N c order) (hemit : Emits codec N c slot sv c₁) (hle : order <+: order₁)
      (hrest : EmitsAll codec N c₁ order₁ slots svs c' order') :
      EmitsAll codec N c order (slot :: slots) (sv :: svs) c' order'

variable {slots : List KindedSlot} {svs : List SerializableVMValue}

theorem EmitsAll.before (hall : EmitsAll codec N c order slots svs c' order') : Interned h N c order := by
  cases hall with
  | nil hc => exact hc
  | cons hc => exact hc

theorem EmitsAll.after (hall : EmitsAll codec N c order slots svs c' order') :
    Interned h N c' order' ∧ order <+: order' := by
  induction hall with
  | nil hc => exact ⟨hc, List.prefix_rfl⟩
  | cons hc hemit hle hrest ih => exact ⟨ih.1, hle.trans ih.2⟩

theorem EmitsAll.length_eq (hall : EmitsAll codec N c order slots svs c' order') :
    svs.length = slots.length := by
  induction hall with
  | nil hc => rfl
  | cons hc hemit hle hrest ih => rw [List.length_cons, List.length_cons, ih]

variable {parts : List KindedSlot}

/-- **Captured parts are resolved, one after the other**, into the cell at `a₀` that is being filled. -/
theorem EmitsAll.resolveEach (hall : EmitsAll codec N c order parts svs c' order') {fill : Filling}
    {a₀ : Nat} {edit : Nat → KindedSlot → Alloc → Alloc} {i : Nat}
    (hbefore : ∀ j, j < i + parts.length → fill.before j = .ok ())
    (hplace : ∀ j slot slot' s, slot ∈ parts →
      (NodeSlot h N slot → ∃ r, slot' = ⟨.addr r, slot.kind⟩) → fill.place j slot' s = .ok
      { s with heap := s.heap.modify a₀ (edit j slot') })
    (ha₀ : a₀ < s.heap.cells.length ∨ ∀ i slot, edit i slot = id) (hs : Sim h c opened s)
    (habove : ∀ slot ∈ parts, Above h opened slot) :
    ∃ slots s' new, Snapshot.resolveEach env fill i svs s = .ok (slots, s') ∧
      Step codec N (s.heap.cells.modify a₀ (editAll edit i slots)) c c' opened s s' new (heldBy slots) ∧
      List.Forall₂ (PartMatch codec N (loc c' s') s.heap.cells.length s'.heap.cells) parts slots := by
  induction hall generalizing i s with
  | nil hc =>
    refine ⟨[], s, [], rfl, ?_, .nil⟩
    have hid : editAll edit i [] = id := rfl
    rw [hid, List.modify_id]
    exact step_refl hs
  | @cons c c₁ c' order order₁ order' part parts sv svs hc hemit hle hrest ih =>
    obtain ⟨slot, s₁, new₁, hslot, hstep₁, hpart⟩ := hemit.resolveChild hs (habove part List.mem_cons_self)
    have hshape : NodeSlot h N part → ∃ r, slot = ⟨.addr r, part.kind⟩ := by
      intro hnode
      rcases hpart with ⟨-, a, r, -, -, hslot⟩ | ⟨hnot, -⟩
      · exact ⟨r, hslot⟩
      · exact absurd hnode hnot
    have hplaced := hplace i part slot s₁ List.mem_cons_self hshape
    have hlength : s.heap.cells.length ≤ s₁.heap.cells.length := by simp [hstep₁.cells]
    obtain ⟨slots, s₃, new₂, hslots, hstep₂, hparts⟩ := ih (i := i + 1)
      (s := { s₁ with heap := s₁.heap.modify a₀ (edit i slot) })
      (fun j hj => hbefore j (by rw [List.length_cons]; omega))
      (fun j slot slot' s hmem => hplace j slot slot' s (List.mem_cons_of_mem _ hmem))
      (ha₀.imp_left fun hlt => by
        show a₀ < (s₁.heap.cells.modify a₀ _).length
        rw [List.length_modify]
        omega)
      (hstep₁.sim.grow rfl (by simp))
      (fun slot hmem => habove slot (List.mem_cons_of_mem _ hmem))
    -- The write of the first part does not touch what the first part has added.
    have hmodify : (s₁.heap.cells.modify a₀ (edit i slot)).modify a₀ (editAll edit (i + 1) slots) =
        s.heap.cells.modify a₀ (editAll edit i (slot :: slots)) ++ new₁ := by
      rw [hstep₁.cells]
      rcases ha₀ with ha₀ | hid
      · rw [modify_append_of_lt ha₀, modify_append_of_lt (by simpa using ha₀), List.modify_modify_eq]
        rfl
      · rw [editAll_id hid, editAll_id hid, hid, List.modify_id, List.modify_id, List.modify_id]
    obtain ⟨hafter, hle'⟩ := hrest.after
    have hkeep₁ : ∀ a handle, c₁.handleOf a = some handle → c'.handleOf a = some handle :=
      fun a handle => hrest.before.handleOf_mono hafter hle'
    have hstep : Step codec N (s.heap.cells.modify a₀ (editAll edit i (slot :: slots))) c c' opened s s₃
        (new₁ ++ new₂) (heldBy [slot] ++ heldBy slots) := by
      have htail : Step codec N (s.heap.cells.modify a₀ (editAll edit i (slot :: slots)) ++ new₁) c₁
          c' opened
          { s₁ with heap := s₁.heap.modify a₀ (edit i slot) } s₃ new₂ (heldBy slots) := by
        rw [← hmodify]
        exact hstep₂
      refine hstep₁.trans htail rfl ?_ ?_ ?_ hkeep₁
      · intro r
        exact Heap.shares_modify _ _ _ r
      · rw [List.length_modify]
      · exact fun a handle => hc.handleOf_mono hrest.before hle
    refine ⟨slot :: slots, s₃, new₁ ++ new₂, ?_, ?_, .cons ?_ ?_⟩
    · rw [resolveEach_cons, hbefore i (by rw [List.length_cons]; omega), hslot]
      refine Fallible.bind_eq_ok.mpr ⟨(), rfl, Fallible.bind_eq_ok.mpr ⟨(slot, s₁), rfl, ?_⟩⟩
      exact Fallible.bind_eq_ok.mpr ⟨_, hplaced, Fallible.bind_eq_ok.mpr ⟨(slots, s₃), hslots, rfl⟩⟩
    · have hheld : heldBy [slot] ++ heldBy slots = heldBy (slot :: slots) := by
        rw [heldBy, heldBy, heldBy, ← List.filterMap_append, List.singleton_append]
      rw [← hheld]
      exact hstep
    · refine hpart.mono (fun a r => loc_mono hkeep₁ hstep₂.nodes) ?_ (Nat.le_refl _)
      intro j cell hj hcell
      rw [hstep₁.cells, List.getElem?_append_right hj] at hcell
      rw [hstep.cells, List.getElem?_append_right (by rw [List.length_modify]; exact hj),
        List.length_modify, List.getElem?_append_left (List.getElem?_eq_some_iff.mp hcell).1]
      exact hcell
    · refine hparts.imp fun part slot hpart => hpart.mono (fun _ _ hr => hr) (fun _ _ _ hcell => hcell) ?_
      show _ ≤ (s₁.heap.cells.modify a₀ _).length
      rw [List.length_modify]
      exact hlength

/-! ## Opening and recording a node -/

@[simp] theorem handleOf_intern_self (c : SerializeIdentityCtx) (a : Nat) :
    (c.intern a).handleOf a = some c.nextHandle :=
  Function.update_self _ _ _

theorem handleOf_intern_of_ne {b : Nat} (hne : b ≠ a) : (c.intern a).handleOf b = c.handleOf b :=
  Function.update_of_ne hne _ _

/-- A node that is interned and not yet recorded is open. -/
theorem Sim.intern (hs : Sim h c opened s) (hnew : c.handleOf a = none) :
    Sim h (c.intern a) (a :: opened) s := by
  have hne : ∀ {b : Nat} {handle : Word}, c.handleOf b = some handle → b ≠ a := by
    rintro b handle hb rfl
    rw [hnew] at hb
    cases hb
  refine ⟨hs.ledger, ?_, ?_, ?_, hs.distinct⟩
  · intro m hm
    rcases List.mem_cons.mp hm with rfl | hm
    · exact ⟨_, handleOf_intern_self c m⟩
    · obtain ⟨handle, hhandle⟩ := hs.opened_mem m hm
      exact ⟨handle, (handleOf_intern_of_ne (hne hhandle)).trans hhandle⟩
  · intro b handle hb hopen
    rw [handleOf_intern_of_ne (List.ne_of_not_mem_cons hopen)] at hb
    exact hs.recorded b handle hb (List.not_mem_of_not_mem_cons hopen)
  · intro handle slot hslot
    obtain ⟨b, hb, hopen⟩ := hs.only handle slot hslot
    refine ⟨b, (handleOf_intern_of_ne (hne hb)).trans hb, ?_⟩
    exact List.not_mem_cons_of_ne_of_not_mem (hne hb) hopen

theorem Sim.unrecorded (hs : Sim h c (a :: opened) s) (hc : Interned h N c order)
    (ha : c.handleOf a = some handle) :
    s.ctx.heapNodeMap handle = none := by
  cases hmap : s.ctx.heapNodeMap handle with
  | none => rfl
  | some slot =>
    obtain ⟨b, hb, hopen⟩ := hs.only handle slot hmap
    obtain rfl := hc.handle_inj ha hb
    exact absurd List.mem_cons_self hopen

variable {cell : Alloc} {kind : HeapKind}

/-- Recording an open node at a fresh address closes it. -/
theorem Sim.record (hs : Sim h c (a :: opened) s) (hc : Interned h N c order)
    (ha : c.handleOf a = some handle) (hopen : a ∉ opened) (hcell : h.cells[a]? = some cell)
    (hnode : cell.node = some (kind, parts)) {h' : Heap} {r : Nat} (hlo : s.heap.cells.length ≤ r)
    (hhi : r < h'.cells.length) :
    Sim h c opened (RestoreState.recordNode { s with heap := h' } handle ⟨.addr r, .ptr kind⟩) := by
  have hnone := hs.unrecorded hc ha
  -- The nodes that are there lie below `r`.
  have hbelow : ∀ handle' slot, s.ctx.heapNodeMap handle' = some slot → slot.bits ≠ .addr r := by
    intro handle' slot hslot hbits
    obtain ⟨b, hb, hbopen⟩ := hs.only handle' slot hslot
    obtain ⟨r', _, _, _, hmap, hr', -⟩ := hs.recorded b handle' hb hbopen
    obtain rfl := Option.some.inj (hslot.symm.trans hmap)
    obtain rfl := Bits.addr.inj hbits
    omega
  have hother : ∀ {handle' : Word}, handle' ≠ handle →
      Function.update s.ctx.heapNodeMap handle (some ⟨.addr r, .ptr kind⟩) handle' =
        s.ctx.heapNodeMap handle' := fun hne => Function.update_of_ne hne _ _
  have hledger : RestoreState.Ledger { s with heap := h' } := ⟨hs.ledger.nodup, hs.ledger.mem_iff⟩
  refine ⟨hledger.recordNode hnone _, ?_, ?_, ?_, ?_⟩
  · intro m hm
    exact hs.opened_mem m (List.mem_cons_of_mem _ hm)
  · intro b handle' hb hbopen
    rw [RestoreState.heapNodeMap_recordNode, RestoreState.cells_recordNode]
    by_cases hba : b = a
    · subst hba
      obtain rfl := Option.some.inj (ha.symm.trans hb)
      exact ⟨r, cell, kind, parts, Function.update_self _ _ _, hhi, hcell, hnode⟩
    · have hne : handle' ≠ handle := by
        rintro rfl
        exact hba (hc.handle_inj hb ha)
      obtain ⟨r', cell', kind', parts', hmap, hr', hrest⟩ := hs.recorded b handle' hb
        (List.not_mem_cons_of_ne_of_not_mem hba hbopen)
      refine ⟨r', cell', kind', parts', (hother hne).trans hmap, ?_, hrest⟩
      show r' < h'.cells.length
      omega
  · intro handle' slot hslot
    rw [RestoreState.heapNodeMap_recordNode] at hslot
    by_cases hne : handle' = handle
    · exact ⟨a, hne ▸ ha, hopen⟩
    · obtain ⟨b, hb, hbopen⟩ := hs.only handle' slot ((hother hne).symm.trans hslot)
      exact ⟨b, hb, fun hmem => hbopen (List.mem_cons_of_mem _ hmem)⟩
  · intro handle₁ handle₂ slot₁ slot₂ hslot₁ hslot₂ hbits
    rw [RestoreState.heapNodeMap_recordNode] at hslot₁ hslot₂
    by_cases hne₁ : handle₁ = handle
    · by_cases hne₂ : handle₂ = handle
      · rw [hne₁, hne₂]
      · subst hne₁
        rw [Function.update_self] at hslot₁
        obtain rfl := Option.some.inj hslot₁
        exact absurd hbits.symm (hbelow handle₂ slot₂ ((hother hne₂).symm.trans hslot₂))
    · have hslot₁' := (hother hne₁).symm.trans hslot₁
      by_cases hne₂ : handle₂ = handle
      · subst hne₂
        rw [Function.update_self] at hslot₂
        obtain rfl := Option.some.inj hslot₂
        exact absurd hbits (hbelow handle₁ slot₁ hslot₁')
      · exact hs.distinct handle₁ handle₂ slot₁ slot₂ hslot₁' ((hother hne₂).symm.trans hslot₂) hbits

/-! ## The three shapes of a node -/

theorem RestoreState.heap_recordNode {s : RestoreState} (hnone : s.ctx.heapNodeMap handle = none)
    (h' : Heap) (slot : KindedSlot) :
    (RestoreState.recordNode { s with heap := h' } handle slot).heap = h' := by
  unfold RestoreState.recordNode
  rw [hnone]

/-- The parts of a node lie below it. -/
theorem Above.part {a : Nat} {cell : Alloc} {kind : HeapKind} {parts : List KindedSlot}
    (habove : Above h opened ⟨.addr a, .ptr kind⟩) (hcell : h.cells[a]? = some cell)
    (hnode : cell.node = some (kind, parts)) {slot : KindedSlot} (hslot : slot ∈ parts) :
    Above h opened slot := by
  intro m hm
  refine ⟨(habove m hm).1, fun b hb => ((habove m hm).2 a rfl).tail ?_⟩
  exact ⟨cell, kind, parts, slot, hcell, hnode, hslot, hb⟩

/-- **A node that is recorded before it is filled.** Its shell is allocated and recorded, the parts are
resolved into it, and a last write finishes it. -/
theorem EmitsAll.restore_recorded (hall : EmitsAll codec N (c.intern a) (order ++ [a]) parts svs c' order')
    (hnew : c.handleOf a = none) (hcell : h.cells[a]? = some cell) (hnode : cell.node = some (kind, parts))
    (hs : Sim h c opened s) (habove : Above h opened ⟨.addr a, .ptr kind⟩) (shell : Alloc) (fill : Filling)
    (edit : Nat → KindedSlot → Alloc → Alloc) (finish : List KindedSlot → Alloc → Alloc)
    (hbefore : ∀ j, fill.before j = .ok ())
    (hplace : ∀ j slot slot' s', slot ∈ parts →
      (NodeSlot h N slot → ∃ r, slot' = ⟨.addr r, slot.kind⟩) → fill.place j slot' s' = .ok
      { s' with heap := s'.heap.modify s.heap.cells.length (edit j slot') })
    (hfinish : ∀ slots, slots.length = parts.length → finish slots (editAll edit 0 slots shell) =
      cell.rebuild slots) :
    ∃ slots s₂ new,
      Snapshot.resolveEach env fill 0 svs (RestoreState.recordNode
        { s with heap := (s.heap.alloc shell).2 } c.nextHandle ⟨.addr s.heap.cells.length, .ptr kind⟩) =
          .ok (slots, s₂) ∧
      Step codec N s.heap.cells c c' opened s
        { s₂ with heap := s₂.heap.modify s.heap.cells.length (finish slots) } new [] := by
  have hhandle : (c.intern a).handleOf a = some c.nextHandle := handleOf_intern_self c a
  have hopened := hs.intern hnew
  have hnone : s.ctx.heapNodeMap c.nextHandle = none := hopened.unrecorded hall.before hhandle
  have hopen : a ∉ opened := by
    intro hmem
    obtain ⟨handle, hhandle'⟩ := hs.opened_mem a hmem
    rw [hnew] at hhandle'
    cases hhandle'
  -- the shell is recorded before its parts are resolved, so a part may refer to it
  generalize hs₁ : RestoreState.recordNode { s with heap := (s.heap.alloc shell).2 } c.nextHandle
    ⟨.addr s.heap.cells.length, .ptr kind⟩ = s₁
  have hsim : Sim h (c.intern a) opened s₁ := by
    rw [← hs₁]
    exact hopened.record hall.before hhandle hopen hcell hnode (Nat.le_refl _) (by simp)
  have hheap : s₁.heap = (s.heap.alloc shell).2 := by
    rw [← hs₁]
    exact RestoreState.heap_recordNode hnone _ _
  have hcells₁ : s₁.heap.cells = s.heap.cells ++ [shell] := by rw [hheap]; rfl
  have hmap : s₁.ctx.heapNodeMap = Function.update s.ctx.heapNodeMap c.nextHandle
      (some ⟨.addr s.heap.cells.length, .ptr kind⟩) := by rw [← hs₁]; rfl
  have hbases : ∀ r, s₁.bases r = s.bases r + [s.heap.cells.length].count r := by
    intro r
    have hledger : RestoreState.Ledger { s with heap := (s.heap.alloc shell).2 } :=
      ⟨hs.ledger.nodup, hs.ledger.mem_iff⟩
    rw [← hs₁]
    exact hledger.bases_recordNode hnone rfl r
  -- the parts are resolved into the shell
  obtain ⟨slots, s₂, new, hrun, hstep, hparts⟩ := hall.resolveEach (i := 0) (fun j _ => hbefore j) hplace
    (Or.inl (by rw [hcells₁]; simp)) hsim fun slot hslot => habove.part hcell hnode hslot
  have hlength : slots.length = parts.length := hparts.length_eq.symm
  rw [hcells₁, modify_append_length] at hstep
  have hcells₂ : s₂.heap.cells = s.heap.cells ++ editAll edit 0 slots shell :: new := by
    rw [hstep.cells, List.append_assoc, List.singleton_append]
  -- the last write turns the shell into the node
  have hcells : (s₂.heap.modify s.heap.cells.length (finish slots)).cells =
      s.heap.cells ++ cell.rebuild slots :: new := by
    rw [Heap.cells_modify, hcells₂, modify_append_length, hfinish slots hlength]
  have hagree : ∀ (i : Nat) (cell' : Alloc), s.heap.cells.length + 1 ≤ i →
      s₂.heap.cells[i]? = some cell' →
      (s₂.heap.modify s.heap.cells.length (finish slots)).cells[i]? = some cell' := by
    intro i cell' hi hcell'
    rw [Heap.cells_modify, List.getElem?_modify_ne _ _ (by omega)]
    exact hcell'
  obtain ⟨hafter, hle⟩ := hall.after
  have hplace' : loc c' s₂ a = some s.heap.cells.length := by
    have hself : s₁.ctx.heapNodeMap c.nextHandle = some ⟨.addr s.heap.cells.length, .ptr kind⟩ := by
      rw [hmap, Function.update_self]
    simp [loc, hall.before.handleOf_mono hafter hle hhandle, hstep.nodes _ _ hself, Bits.addr?]
  have hsize : (s.heap.cells ++ [editAll edit 0 slots shell]).length = s.heap.cells.length + 1 := by simp
  refine ⟨slots, s₂, cell.rebuild slots :: new, hrun, ?_, hcells, ?_, ?_, ?_, ?_⟩
  · exact hstep.sim.grow rfl (by simp)
  · intro handle slot hslot
    refine hstep.nodes handle slot ?_
    rw [hmap, Function.update_of_ne]
    · exact hslot
    · rintro rfl
      rw [hnone] at hslot
      cases hslot
  -- the shell's own share is its base share
  · intro r
    have haccounts := hstep.accounts r
    have hshares : s₁.heap.shares r = s.heap.shares r + [s.heap.cells.length].count r := by
      rw [hheap, Heap.shares_alloc]
    rw [hbases r, hshares] at haccounts
    show (s₂.heap.modify s.heap.cells.length (finish slots)).shares r + s.bases r =
      s.heap.shares r + s₂.bases r + _ + _
    rw [Heap.shares_modify, edgeCount_cons, Alloc.targets_rebuild hnode hlength, List.count_nil]
    omega
  -- `a` itself, or a node that was finished with one of the parts
  · intro b hb hsome
    by_cases hba : b = a
    · subst hba
      refine ⟨s.heap.cells.length, cell, kind, parts, slots, hplace', Nat.le_refl _, hcell, hnode, ?_, ?_⟩
      · show (s₂.heap.modify _ _).cells[_]? = _
        rw [hcells, List.getElem?_append_right (Nat.le_refl _), Nat.sub_self]
        rfl
      · refine hparts.imp fun slot slot' hpart => hpart.mono (fun _ _ hr => hr) ?_ ?_
        · rw [hcells₁, List.length_append, List.length_singleton]
          exact hagree
        · simp [hcells₁]
    · have hdone := hstep.done b ((handleOf_intern_of_ne hba).trans hb) hsome
      rw [hsize] at hdone
      exact hdone.mono (fun _ _ hr => hr) hagree (Nat.le_succ _)
  · intro i cell' hcell'
    cases i with
    | zero => exact Or.inr ⟨a, hnew, hplace'⟩
    | succ i =>
      rcases hstep.fresh i cell' hcell' with hfresh | ⟨b, hb, hr⟩
      · exact Or.inl hfresh
      · refine Or.inr ⟨b, ?_, ?_⟩
        · by_cases hba : b = a
          · exact hba ▸ hnew
          · rw [handleOf_intern_of_ne hba] at hb
            exact hb
        · rw [hsize] at hr
          show loc c' s₂ b = _
          rw [hr]
          congr 1
          omega

theorem EmitsAll.restore_object {o : TypedObjectStorage Bits}
    (hall : EmitsAll codec N (c.intern a) (order ++ [a]) (fieldSlots o) svs c' order')
    (hnew : c.handleOf a = none) (hcell : h.cells[a]? = some (.typedObject o))
    (hs : Sim h c opened s) (habove : Above h opened (objectSlot a)) :
    ∃ s' new, materializeNodeBase env c.nextHandle ((Alloc.typedObject o).wireBody svs) s = .ok s' ∧
      Step codec N s.heap.cells c c' opened s s' new [] := by
  have hfinish : ∀ slots : List KindedSlot, slots.length = (fieldSlots o).length →
      installKinds (slots.map (·.kind)) o.heapMask
        (editAll (fun i slot => writeSlot i slot.bits) 0 slots (objectShell o.schemaId svs.length)) =
      (Alloc.typedObject o).rebuild slots := by
    intro slots hlength
    rw [hall.length_eq, ← hlength]
    exact installKinds_objectShell o.schemaId o.heapMask slots
  obtain ⟨slots, s₂, new, hrun, hstep⟩ := hall.restore_recorded hnew hcell rfl hs habove
    (objectShell o.schemaId svs.length) (fillObject o.schemaId s.heap.cells.length) _
    (fun slots => installKinds (slots.map (·.kind)) o.heapMask) (fun _ => rfl)
    (fun _ _ _ _ _ _ => rfl) hfinish
  refine ⟨_, new, ?_, hstep⟩
  rw [Alloc.wireBody, materializeNodeBase]
  exact Fallible.bind_eq_ok.mpr ⟨(slots, s₂), hrun, rfl⟩

theorem EmitsAll.restore_array {elems : List Nat}
    (hall : EmitsAll codec N (c.intern a) (order ++ [a]) (elems.map objectSlot) svs c' order')
    (helems : ∀ e ∈ elems, NodeSlot h N (objectSlot e)) (hnew : c.handleOf a = none)
    (hcell : h.cells[a]? = some (.array (.typedObject elems))) (hs : Sim h c opened s)
    (habove : Above h opened ⟨.addr a, .ptr .typedArray⟩) :
    ∃ s' new, materializeNodeBase env c.nextHandle ((Alloc.array (.typedObject elems)).wireBody svs) s =
        .ok s' ∧
      Step codec N s.heap.cells c c' opened s s' new [] := by
  have hplace : ∀ j slot slot' s', slot ∈ elems.map objectSlot →
      (NodeSlot h N slot → ∃ r, slot' = ⟨.addr r, slot.kind⟩) →
      (fillArray s.heap.cells.length).place j slot' s' =
        .ok { s' with heap := s'.heap.modify s.heap.cells.length (pushSlot slot') } := by
    intro j slot slot' s' hslot hshape
    obtain ⟨e, he, rfl⟩ := List.mem_map.mp hslot
    obtain ⟨r, rfl⟩ := hshape (helems e he)
    rfl
  obtain ⟨slots, s₂, new, hrun, hstep⟩ := hall.restore_recorded hnew hcell rfl hs habove
    (.array (.typedObject [])) (fillArray s.heap.cells.length) _ (fun _ => id) (fun _ => rfl) hplace
    (fun slots _ => editAll_pushSlot 0 slots [])
  have hsame : { s₂ with heap := s₂.heap.modify s.heap.cells.length id } = s₂ := by
    simp [Heap.modify, List.modify_id]
  rw [hsame] at hstep
  refine ⟨s₂, new, ?_, hstep⟩
  rw [Alloc.wireBody, materializeNodeBase]
  · exact Fallible.bind_eq_ok.mpr ⟨(slots, s₂), hrun, rfl⟩
  all_goals intros; contradiction

theorem releaseAll_nil (fuel : Nat) (h : Heap) : Heap.releaseAll fuel [] h = h := by
  cases fuel <;> rfl

/-- Entries under fresh keys go to the end, and nothing is dropped. -/
theorem foldl_insertObject (keys : List String) (slots : List KindedSlot) (acc : List (String × Nat))
    (h : Heap) (hkeys : (acc.map (·.1) ++ keys).Nodup) (hlength : keys.length = slots.length)
    (hslots : ∀ slot ∈ slots, ∃ r, slot.bits = .addr r) :
    ((keys.map SerializableVMValue.string).zip slots).foldl insertObject (acc, h) =
      (acc ++ keys.zip (heldBy slots), h) := by
  induction keys generalizing slots acc with
  | nil => simp
  | cons key keys ih =>
    cases slots with
    | nil => cases hlength
    | cons slot slots =>
      obtain ⟨bits, kind⟩ := slot
      obtain ⟨r, rfl⟩ : ∃ r, bits = .addr r := hslots _ List.mem_cons_self
      have hfresh : key ∉ acc.map (·.1) := by
        intro hmem
        exact (List.nodup_append.mp hkeys).2.2 key hmem key List.mem_cons_self rfl
      have hinsert : insertObject (acc, h) (.string key, ⟨.addr r, kind⟩) = (acc ++ [(key, r)], h) := by
        have hnone : (acc.filter fun e => e.1 = key) = [] := by
          rw [List.filter_eq_nil_iff]
          intro e he heq
          exact hfresh (List.mem_map.mpr ⟨e, he, of_decide_eq_true heq⟩)
        simp only [insertObject, insertEntry, if_neg hfresh, hnone, List.map_nil, releaseAll_nil]
      rw [List.map_cons, List.zip_cons_cons, List.foldl_cons, hinsert, ih slots (acc ++ [(key, r)])]
      · rw [List.append_assoc]
        rfl
      · rw [List.map_append, List.append_assoc]
        exact hkeys
      · exact Nat.succ.inj hlength
      · exact fun slot hslot => hslots slot (List.mem_cons_of_mem _ hslot)

/-- **A map is recorded after it is built.** While its values are resolved it is open. -/
theorem EmitsAll.restore_map {entries : List (String × Nat)}
    (hall : EmitsAll codec N (c.intern a) (order ++ [a]) (entries.map fun e => objectSlot e.2) svs
      c' order')
    (hkeys : (entries.map (·.1)).Nodup) (hvalues : ∀ e ∈ entries, NodeSlot h N (objectSlot e.2))
    (hacyclic : ¬Relation.TransGen (Edge h) a a) (hnew : c.handleOf a = none)
    (hcell : h.cells[a]? = some (.map (.typedObject entries))) (hs : Sim h c opened s)
    (habove : Above h opened ⟨.addr a, .ptr .hashMap⟩) :
    ∃ s' new, materializeNodeBase env c.nextHandle ((Alloc.map (.typedObject entries)).wireBody svs) s =
        .ok s' ∧
      Step codec N s.heap.cells c c' opened s s' new [] := by
  have hhandle : (c.intern a).handleOf a = some c.nextHandle := handleOf_intern_self c a
  have hopen : a ∉ opened := by
    intro hmem
    obtain ⟨handle, hhandle'⟩ := hs.opened_mem a hmem
    rw [hnew] at hhandle'
    cases hhandle'
  -- the parts lie above the map, which is open while they are resolved
  have hpart : ∀ slot ∈ entries.map fun e => objectSlot e.2, Above h (a :: opened) slot := by
    intro slot hslot m hm
    have hedge : ∀ b, slot.bits = .addr b → Edge h a b :=
      fun b hb => ⟨_, .hashMap, _, slot, hcell, rfl, hslot, hb⟩
    rcases List.mem_cons.mp hm with rfl | hm
    · exact ⟨hacyclic, fun b hb => .single (hedge b hb)⟩
    · exact ⟨(habove m hm).1, fun b hb => ((habove m hm).2 a rfl).tail (hedge b hb)⟩
  have hobject : ∀ slot ∈ entries.map fun e => objectSlot e.2,
      NodeSlot h N slot ∧ slot.kind = .ptr .typedObject := by
    intro slot hslot
    obtain ⟨e, he, rfl⟩ := List.mem_map.mp hslot
    exact ⟨hvalues e he, rfl⟩
  have hsvs : svs.length = entries.length := by rw [hall.length_eq, List.length_map]
  have hbefore : ∀ j, j < 0 + (entries.map fun e => objectSlot e.2).length →
      (fillMap (entries.map fun e => .string e.1)).before j = .ok () := by
    intro j hj
    rw [Nat.zero_add, List.length_map] at hj
    simp [fillMap, hj]
  have hplace : ∀ j slot slot' s', slot ∈ (entries.map fun e => objectSlot e.2) →
      (NodeSlot h N slot → ∃ r, slot' = ⟨.addr r, slot.kind⟩) →
      (fillMap (entries.map fun e => .string e.1)).place j slot' s' =
        .ok { s' with heap := s'.heap.modify 0 id } := by
    intro j slot slot' s' hslot hshape
    obtain ⟨r, rfl⟩ := hshape (hobject slot hslot).1
    have hsame : { s' with heap := s'.heap.modify 0 id } = s' := by simp [Heap.modify, List.modify_id]
    rw [(hobject slot hslot).2, hsame]
    rfl
  -- no part may refer to the map: it is recorded after them
  obtain ⟨slots, s₂, new, hrun, hstep, hparts⟩ := hall.resolveEach hbefore hplace (Or.inr fun _ _ => rfl)
    (hs.intern hnew) hpart
  rw [editAll_id (fun _ _ => rfl), List.modify_id] at hstep
  have hslots : ∀ slot ∈ slots, ∃ r, slot.bits = .addr r := by
    intro slot hslot
    obtain ⟨i, hi⟩ := List.mem_iff_getElem?.mp hslot
    obtain ⟨part, hget, hmatch⟩ := Fallible.forall₂_getElem?_right hparts hi
    rcases hmatch with ⟨-, b, r, -, -, rfl⟩ | ⟨hnot, -⟩
    · exact ⟨r, rfl⟩
    · exact absurd (hobject part (List.mem_of_getElem? hget)).1 hnot
  have hcount : slots.length = entries.length := by rw [← hparts.length_eq, List.length_map]
  -- the keys are distinct, so every insertion appends
  have hentries : ((entries.map fun e => SerializableVMValue.string e.1).zip slots).foldl insertObject
      ([], s₂.heap) = ((entries.map (·.1)).zip (heldBy slots), s₂.heap) := by
    have hmap : (entries.map fun e => SerializableVMValue.string e.1) =
        (entries.map (·.1)).map SerializableVMValue.string := by rw [List.map_map]; rfl
    rw [hmap, foldl_insertObject _ slots [] s₂.heap hkeys (by rw [List.length_map, hcount]) hslots,
      List.nil_append]
  have htargets : ((Alloc.map (.typedObject entries)).rebuild slots).targets = heldBy slots :=
    Alloc.targets_rebuild rfl hparts.length_eq.symm
  obtain ⟨hafter, hle⟩ := hall.after
  have hhandle' := hall.before.handleOf_mono hafter hle hhandle
  have hnone : s₂.ctx.heapNodeMap c.nextHandle = none := hstep.sim.unrecorded hafter hhandle'
  generalize hbuilt : (Alloc.map (.typedObject entries)).rebuild slots = built at htargets
  generalize hs₃ : RestoreState.recordNode { s₂ with heap := (s₂.heap.alloc built).2 } c.nextHandle
    ⟨.addr s₂.heap.cells.length, .ptr .hashMap⟩ = s₃
  -- now the map is recorded
  have hsim : Sim h c' opened s₃ := by
    rw [← hs₃]
    exact hstep.sim.record hafter hhandle' hopen hcell rfl (Nat.le_refl _) (by simp)
  have hheap : s₃.heap = (s₂.heap.alloc built).2 := by
    rw [← hs₃]
    exact RestoreState.heap_recordNode hnone _ _
  have hmap : s₃.ctx.heapNodeMap = Function.update s₂.ctx.heapNodeMap c.nextHandle
      (some ⟨.addr s₂.heap.cells.length, .ptr .hashMap⟩) := by rw [← hs₃]; rfl
  have hbases : ∀ r, s₃.bases r = s₂.bases r + [s₂.heap.cells.length].count r := by
    intro r
    have hledger : RestoreState.Ledger { s₂ with heap := (s₂.heap.alloc built).2 } :=
      ⟨hstep.sim.ledger.nodup, hstep.sim.ledger.mem_iff⟩
    rw [← hs₃]
    exact hledger.bases_recordNode hnone rfl r
  have hcells : s₃.heap.cells = s.heap.cells ++ (new ++ [built]) := by
    rw [hheap, Heap.cells_alloc, hstep.cells, List.append_assoc]
  have hnodes : ∀ handle slot, s₂.ctx.heapNodeMap handle = some slot →
      s₃.ctx.heapNodeMap handle = some slot := by
    intro handle slot hslot
    rw [hmap, Function.update_of_ne]
    · exact hslot
    · rintro rfl
      rw [hnone] at hslot
      cases hslot
  have hloc : ∀ b r, loc c' s₂ b = some r → loc c' s₃ b = some r :=
    fun b r => loc_mono (fun _ _ hb => hb) hnodes
  have hagree : ∀ (i : Nat) (cell : Alloc), s.heap.cells.length ≤ i → s₂.heap.cells[i]? = some cell →
      s₃.heap.cells[i]? = some cell := by
    intro i cell _ hi
    rw [hheap, Heap.cells_alloc, List.getElem?_append_left (List.getElem?_eq_some_iff.mp hi).1]
    exact hi
  have hplace' : loc c' s₃ a = some s₂.heap.cells.length := by
    simp [loc, hhandle', hmap, Bits.addr?]
  refine ⟨s₃, new ++ [built], ?_, hsim, hcells, ?_, ?_, ?_, ?_⟩
  · rw [Alloc.wireBody, materializeNodeBase, if_neg (by rw [List.length_map, hsvs]; simp)]
    refine Fallible.bind_eq_ok.mpr ⟨(slots, s₂), hrun, ?_⟩
    dsimp only
    rw [hentries, ← hs₃, ← hbuilt]
    rfl
  · exact fun handle slot hslot => hnodes handle slot (hstep.nodes handle slot hslot)
  · intro r
    have haccounts := hstep.accounts r
    have hshares : s₃.heap.shares r = s₂.heap.shares r + [s₂.heap.cells.length].count r := by
      rw [hheap, Heap.shares_alloc]
    rw [hbases r, hshares, edgeCount_append, edgeCount_cons, edgeCount_nil, htargets, List.count_nil]
    omega
  · intro b hb hsome
    by_cases hba : b = a
    · subst hba
      refine ⟨s₂.heap.cells.length, _, .hashMap, _, slots, hplace', ?_, hcell, rfl, ?_, ?_⟩
      · simp [hstep.cells]
      · rw [hbuilt, hheap, Heap.cells_alloc, List.getElem?_append_right (Nat.le_refl _), Nat.sub_self]
        rfl
      · exact hparts.imp fun slot slot' hmatch => hmatch.mono hloc hagree (Nat.le_refl _)
    · exact (hstep.done b ((handleOf_intern_of_ne hba).trans hb) hsome).mono hloc hagree (Nat.le_refl _)
  · intro i cell hi
    rw [List.getElem?_append] at hi
    split at hi
    · rcases hstep.fresh i cell hi with hfresh | ⟨b, hb, hr⟩
      · exact Or.inl hfresh
      · refine Or.inr ⟨b, ?_, hloc b _ hr⟩
        by_cases hba : b = a
        · exact hba ▸ hnew
        · rw [handleOf_intern_of_ne hba] at hb
          exact hb
    · refine Or.inr ⟨a, hnew, ?_⟩
      have hbound := (List.getElem?_eq_some_iff.mp hi).1
      rw [List.length_singleton] at hbound
      rw [hplace', hstep.cells, List.length_append]
      congr 1
      omega

/-! ## All slots -/

/-- The slots of the graph: nodes and leaves. -/
def GraphSlot (codec : LeafCodec env moduleFnName h) (N : Set Nat) (slot : KindedSlot) : Prop :=
  NodeSlot h N slot ∨ codec.Leaf slot

/-- The capture at some depth: it succeeds wherever the depth is enough, and emits what can be restored. -/
def Captures (codec : LeafCodec env moduleFnName h) (N : Set Nat) (fuel : Nat) : Prop :=
  ∀ slot c order, GraphSlot codec N slot → Interned h N c order → h.cells.length < order.length + fuel →
    ∃ sv c' order', slotToSerializableCtx moduleFnName h fuel slot c = .ok (sv, c') ∧
      Emits codec N c slot sv c' ∧ Interned h N c' order' ∧ order <+: order'

theorem Captures.serializeAll {fuel : Nat} (hcapture : Captures codec N fuel)
    (hslots : ∀ slot ∈ slots, GraphSlot codec N slot) (hc : Interned h N c order)
    (hfuel : h.cells.length < order.length + fuel) :
    ∃ svs c' order',
      Snapshot.serializeAll (slotToSerializableCtx moduleFnName h fuel) slots c = .ok (svs, c') ∧
      EmitsAll codec N c order slots svs c' order' := by
  induction slots generalizing c order with
  | nil => exact ⟨[], c, order, rfl, .nil hc⟩
  | cons slot slots ih =>
    obtain ⟨sv, c₁, order₁, hsv, hemit, hc₁, hle⟩ := hcapture slot c order
      (hslots slot List.mem_cons_self) hc hfuel
    have hlength := hle.length_le
    obtain ⟨svs, c', order', hsvs, hrest⟩ :=
      ih (fun slot hslot => hslots slot (List.mem_cons_of_mem _ hslot))
      hc₁ (by omega)
    refine ⟨sv :: svs, c', order', ?_, .cons hc hemit hle hrest⟩
    rw [Snapshot.serializeAll]
    refine Fallible.bind_eq_ok.mpr ⟨(sv, c₁), hsv, ?_⟩
    exact Fallible.bind_eq_ok.mpr ⟨(svs, c'), hsvs, rfl⟩

/-- The restore of a body, by the shape of its node. -/
theorem Graph.restore_body (hg : Graph codec N) (ha : a ∈ N) (hcell : h.cells[a]? = some cell)
    (hnode : cell.node = some (kind, parts))
    (hall : EmitsAll codec N (c.intern a) (order ++ [a]) parts svs c' order')
    (hnew : c.handleOf a = none) (hs : Sim h c opened s)
    (habove : Above h opened ⟨.addr a, .ptr kind⟩) :
    ∃ s' new, materializeNodeBase env c.nextHandle (cell.wireBody svs) s = .ok s' ∧
      Step codec N s.heap.cells c c' opened s s' new [] := by
  cases cell
  case typedObject o =>
    obtain ⟨rfl, rfl⟩ := Prod.mk.inj (Option.some.inj hnode)
    exact hall.restore_object hnew hcell hs habove
  case array data =>
    cases data
    case typedObject elems =>
      obtain ⟨rfl, rfl⟩ := Prod.mk.inj (Option.some.inj hnode)
      exact hall.restore_array (hg.array a ha elems hcell) hnew hcell hs habove
    all_goals cases hnode
  case map data =>
    cases data
    case typedObject entries =>
      obtain ⟨rfl, rfl⟩ := Prod.mk.inj (Option.some.inj hnode)
      obtain ⟨hkeys, hvalues, hacyclic⟩ := hg.map a ha entries hcell
      exact hall.restore_map hkeys hvalues hacyclic hnew hcell hs habove
    all_goals cases hnode
  all_goals cases hnode

/-- **The capture succeeds on every slot of the graph, and what it emits can be restored.** Induction on
the depth: one level is used up by each node that is interned. -/
theorem Graph.captures (hg : Graph codec N) (fuel : Nat) : Captures codec N fuel := by
  induction fuel with
  | zero =>
    intro slot c order _ hc hfuel
    have := hc.length_le
    omega
  | succ fuel ih =>
    intro slot c order hslot hc hfuel
    by_cases hnode : NodeSlot h N slot
    · obtain ⟨a, ha, cell, kind, parts, hcell, hparts, rfl⟩ := hnode
      have hnode : NodeSlot h N ⟨.addr a, .ptr kind⟩ := ⟨a, ha, cell, kind, parts, hcell, hparts, rfl⟩
      rw [slotToSerializableCtx_node hcell hparts]
      -- seen before: a back edge
      cases hhandle : c.handleOf a with
      | some handle =>
        refine ⟨.heapRef handle, c, order, ?_, .backEdge hnode rfl hhandle, hc, List.prefix_rfl⟩
        rw [internOrBackedge, hhandle]
      -- a new node: one level of depth for its parts
      | none =>
        have hlt : a < h.cells.length := (List.getElem?_eq_some_iff.mp hcell).1
        have hnew : a ∉ order := by
          intro hmem
          obtain ⟨handle, hhandle'⟩ := (hc.mem_iff hg.addressable a).mp hmem
          rw [hhandle] at hhandle'
          cases hhandle'
        have hc₁ := hc.intern hg.addressable ha hlt hnew
        obtain ⟨cell', kind', parts', hcell', hparts', hslots⟩ := hg.node a ha
        obtain rfl := Option.some.inj (hcell.symm.trans hcell')
        obtain ⟨rfl, rfl⟩ := Prod.mk.inj (Option.some.inj (hparts.symm.trans hparts'))
        obtain ⟨svs, c', order', hsvs, hall⟩ := ih.serializeAll hslots hc₁
          (by rw [List.length_append, List.length_singleton]; omega)
        obtain ⟨hafter, hle⟩ := hall.after
        refine ⟨.heapNode c.nextHandle (cell.wireBody svs), c', order', ?_, ?_, hafter,
          (List.prefix_append order [a]).trans hle⟩
        · rw [internOrBackedge, hhandle]
          refine Fallible.bind_eq_ok.mpr ⟨(cell.wireBody svs, c'), ?_, rfl⟩
          exact Fallible.bind_eq_ok.mpr ⟨(svs, c'), hsvs, rfl⟩
        · refine .body hnode rfl hhandle ?_ hc.handleOf_ne_next ?_
          · exact hall.before.handleOf_mono hafter hle (handleOf_intern_self c a)
          · intro opened s hs habove
            exact hg.restore_body ha hcell hparts hall hhandle hs habove
    · have hleaf := hslot.resolve_left hnode
      obtain ⟨sv, hplain, hsv, hrestore⟩ := codec.spec slot hleaf
      exact ⟨sv, c, order, hsv fuel c, .leaf hnode hleaf hplain hrestore, hc, List.prefix_rfl⟩

end

end ShapeLang.Snapshot
