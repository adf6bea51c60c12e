import ShapeLang.Mir.RcElision

/-!
# ShapeLang — what the use census sees

The reads of a slot at a cursor, in the sense of the source language: operands rooted in the slot
(`directReadsAt`), and index operands nested anywhere inside a place, also one that is only written,
borrowed or dropped (`nestedReadsAt`). The census of `RcElision` records the former and never looks
at the latter.

  * `replicate_sublist_sitesOf` — every occurrence at a cursor is recorded under that cursor's site;
  * `directReadsAt_le` — a direct read is recorded as a use;
  * `Planned.definesAt_iff`, `Planned.count_directReadsAt` — for a planned slot: one cursor defines
    it, one cursor reads it directly, once.
-/

namespace ShapeLang.Mir

/-! ## Reads at a cursor -/

/-- Writing through a projection reads the slot the projection starts from. -/
def destinationReads : Place → List SlotId
  | .localSlot _ => []
  | place => [place.rootLocal]

def StatementKind.directReads : StatementKind → List SlotId
  | .assign dest (.borrow _ place) => destinationReads dest ++ [place.rootLocal]
  | .assign dest rvalue => destinationReads dest ++ rvalue.operands.filterMap operandRootSlot
  | .drop _ => []
  | kind => kind.operands.filterMap operandRootSlot

def TerminatorKind.directReads : TerminatorKind → List SlotId
  | .switchBool operand _ _ => [operand].filterMap operandRootSlot
  | .call func args destination _ =>
      (func :: args).filterMap operandRootSlot ++ destinationReads destination
  | _ => []

/-- Apply one function to the statement under a cursor or another to the terminator. -/
def atCursor {β : Type} (mir : MirFunction) (onStmt : StatementKind → List β)
    (onTerm : TerminatorKind → List β) (c : Cursor) : List β :=
  match mir.block? c.block with
  | none => []
  | some block =>
      match block.statements[c.idx]? with
      | some s => onStmt s.kind
      | none => if c.idx = block.statements.length then onTerm block.terminator.kind else []

def directReadsAt (mir : MirFunction) (c : Cursor) : List SlotId :=
  atCursor mir StatementKind.directReads TerminatorKind.directReads c

def nestedReadsAt (mir : MirFunction) (c : Cursor) : List SlotId :=
  atCursor mir StatementKind.nestedReads TerminatorKind.nestedReads c

/-- How often the slot is read at a cursor. -/
def readCount (mir : MirFunction) (slot : SlotId) (c : Cursor) : Nat :=
  (directReadsAt mir c ++ nestedReadsAt mir c).count slot

def censusAt (mir : MirFunction) (c : Cursor) : List CensusEvent :=
  atCursor mir censusStatement censusTerminator c

def UseSite.cursor (mir : MirFunction) : UseSite → Cursor
  | .statement block i => ⟨block, i⟩
  | .terminator block => ⟨block, (mir.statements block).length⟩

/-! ## The census records what stands at a cursor -/

theorem sublist_flatMap_of_mem {α β : Type} {f : α → List β} {l : List α} {x : α} (h : x ∈ l) :
    (f x).Sublist (l.flatMap f) := by
  obtain ⟨l₁, l₂, rfl⟩ := List.append_of_mem h
  rw [List.flatMap_append, List.flatMap_cons]
  exact (List.sublist_append_left _ _).trans (List.sublist_append_right _ _)

/-- What is recorded under one site shows up in the sites of each event. -/
theorem replicate_sublist_of_sublist {site : UseSite} {evs : List CensusEvent}
    {events : List (UseSite × CensusEvent)} (ev : CensusEvent)
    (h : (evs.map (site, ·)).Sublist events) :
    (List.replicate (evs.count ev) site).Sublist ((events.filter (·.2 = ev)).map Prod.fst) := by
  have hsub := (h.filter (·.2 = ev)).map Prod.fst
  have heq : ((evs.map (site, ·)).filter (·.2 = ev)).map Prod.fst
      = List.replicate (evs.count ev) site := by
    induction evs with
    | nil => rfl
    | cons e evs ih =>
      have hev : (evs.map (site, ·)).Sublist events := (List.sublist_cons_self _ _).trans h
      by_cases he : e = ev
      · subst he
        simp [List.replicate_succ, ih hev (((hev.filter _).map _))]
      · simp [he, ih hev (((hev.filter _).map _))]
  rwa [heq] at hsub

theorem replicate_sublist_sitesOf (mir : MirFunction) (c : Cursor) (ev : CensusEvent) :
    (censusAt mir c).count ev = 0 ∨ ∃ site : UseSite, site.cursor mir = c ∧
      (List.replicate ((censusAt mir c).count ev) site).Sublist (sitesOf mir ev) := by
  unfold censusAt atCursor
  cases hb : mir.block? c.block with
  | none => exact Or.inl rfl
  | some block =>
    have hblock : (blockCensus block).Sublist (censusEvents mir) :=
      sublist_flatMap_of_mem (MirFunction.block?_mem hb)
    have hid : block.id = c.block := MirFunction.id_of_block? hb
    simp only
    -- at a statement, at the terminator, or behind the end
    cases hs : block.statements[c.idx]? with
    | some s =>
      refine Or.inr ⟨.statement c.block c.idx, rfl, ?_⟩
      refine replicate_sublist_of_sublist ev (List.Sublist.trans ?_ hblock)
      refine List.Sublist.trans ?_ (List.sublist_append_left _ _)
      have hmem : (s, c.idx) ∈ block.statements.zipIdx := by
        rw [List.mk_mem_zipIdx_iff_getElem?]
        exact hs
      rw [← hid]
      exact sublist_flatMap_of_mem (f := fun p =>
        (censusStatement p.1.kind).map (UseSite.statement block.id p.2, ·)) hmem
    | none =>
      simp only
      split
      · rename_i hidx
        refine Or.inr ⟨.terminator c.block, ?_, ?_⟩
        · rw [UseSite.cursor, MirFunction.statements_of_block? hb, ← hidx]
        · refine replicate_sublist_of_sublist ev (List.Sublist.trans ?_ hblock)
          rw [← hid]
          exact List.sublist_append_right _ _
      · exact Or.inl rfl

/-- What the census records under a site stands at its cursor, which is a cursor of the function. -/
theorem mem_censusAt_of_mem_sitesOf {mir : MirFunction} {site : UseSite} {ev : CensusEvent}
    (h : site ∈ sitesOf mir ev) :
    ev ∈ censusAt mir (site.cursor mir) ∧
      ∃ block, mir.block? (blockOf site) = some block ∧
        ∀ b i, site = .statement b i → i < block.statements.length := by
  obtain ⟨⟨site', ev'⟩, hfiltered, rfl⟩ := List.mem_map.mp h
  obtain ⟨hevent, hev⟩ := List.mem_filter.mp hfiltered
  obtain rfl : ev' = ev := by simpa using hev
  obtain ⟨block, hblock, hmem⟩ := List.mem_flatMap.mp hevent
  have hb := MirFunction.block?_of_mem hblock
  -- a statement's events stand under its index, the terminator's behind the last statement
  rcases List.mem_append.mp hmem with hmem | hmem
  · obtain ⟨⟨s, i⟩, hs, hmem⟩ := List.mem_flatMap.mp hmem
    obtain ⟨e, he, heq⟩ := List.mem_map.mp hmem
    obtain ⟨rfl, rfl⟩ := Prod.mk.injEq .. ▸ heq
    rw [List.mk_mem_zipIdx_iff_getElem?] at hs
    refine ⟨?_, block, hb, fun b j hbj => ?_⟩
    · simp only [censusAt, atCursor, UseSite.cursor, hb, hs]
      exact he
    · obtain ⟨-, rfl⟩ := UseSite.statement.injEq .. ▸ hbj
      exact (List.getElem?_eq_some_iff.mp hs).1
  · obtain ⟨e, he, heq⟩ := List.mem_map.mp hmem
    obtain ⟨rfl, rfl⟩ := Prod.mk.injEq .. ▸ heq
    refine ⟨?_, block, hb, fun b j hbj => by cases hbj⟩
    simp only [censusAt, atCursor, UseSite.cursor, hb, MirFunction.statements_of_block? hb,
      List.getElem?_length, if_true]
    exact he

/-! ## Direct reads are recorded -/

/-- How often a list of events records a use of the slot. -/
def usesIn (slot : SlotId) (evs : List CensusEvent) : Nat :=
  evs.count (.transferable slot) + evs.count (.other slot)

@[simp] theorem usesIn_nil (slot : SlotId) : usesIn slot [] = 0 := rfl

@[simp] theorem usesIn_append (slot : SlotId) (l₁ l₂ : List CensusEvent) :
    usesIn slot (l₁ ++ l₂) = usesIn slot l₁ + usesIn slot l₂ := by
  simp only [usesIn, List.count_append]
  omega

@[simp] theorem usesIn_other (slot s : SlotId) : usesIn slot [.other s] = [s].count slot := by
  simp [usesIn, List.count_singleton]

theorem usesIn_opaqueOperand (slot : SlotId) (op : Operand) :
    usesIn slot (opaqueOperand op) = (operandRootSlot op).toList.count slot := by
  unfold opaqueOperand operandRootSlot
  cases op.place? with
  | none => rfl
  | some place => simp

theorem usesIn_transferableOperand (slot : SlotId) (op : Operand) :
    usesIn slot (transferableOperand op) = (operandRootSlot op).toList.count slot := by
  unfold transferableOperand operandRootSlot
  cases op.place? with
  | none => rfl
  | some place =>
    cases place with
    | localSlot s => simp [usesIn, Place.rootLocal, List.count_singleton]
    | _ => simp

/-- Summing over operands: either operand rule records each root. -/
theorem usesIn_flatMap {record : Operand → List CensusEvent} {slot : SlotId}
    (h : ∀ op, usesIn slot (record op) = (operandRootSlot op).toList.count slot)
    (ops : List Operand) :
    usesIn slot (ops.flatMap record) = (ops.filterMap operandRootSlot).count slot := by
  induction ops with
  | nil => rfl
  | cons op ops ih =>
    rw [List.flatMap_cons, usesIn_append, h, ih, List.filterMap_cons]
    cases operandRootSlot op with
    | none => simp
    | some s => simp [List.count_cons, Nat.add_comm]

theorem usesIn_censusDestination (slot : SlotId) (place : Place) :
    usesIn slot (censusDestination place) = (destinationReads place).count slot := by
  cases place with
  | localSlot s => simp [censusDestination, destinationReads, usesIn]
  | _ => simp [censusDestination, destinationReads]

theorem usesIn_opaqueOperands (slot : SlotId) (ops : List Operand) :
    usesIn slot (ops.flatMap opaqueOperand) = (ops.filterMap operandRootSlot).count slot :=
  usesIn_flatMap (usesIn_opaqueOperand slot) ops

/-- A statement's direct reads are recorded, each once; a drop is recorded besides. -/
theorem directReads_le_censusStatement (slot : SlotId) (kind : StatementKind) :
    kind.directReads.count slot ≤ usesIn slot (censusStatement kind) := by
  cases kind with
  | assign dest rvalue =>
    rw [censusStatement, usesIn_append, usesIn_censusDestination]
    cases rvalue with
    | borrow kind place => simp [StatementKind.directReads, censusRvalue]
    | use op =>
      have h := usesIn_flatMap (usesIn_transferableOperand slot) [op]
      rw [List.flatMap_cons, List.flatMap_nil, List.append_nil] at h
      simp only [StatementKind.directReads, List.count_append, censusRvalue, Rvalue.operands]
      omega
    | _ =>
      simp only [StatementKind.directReads, List.count_append, censusRvalue, usesIn_opaqueOperands]
      exact Nat.le_refl _
  | drop place => simp [StatementKind.directReads]
  | _ =>
    simp only [StatementKind.directReads, censusStatement, usesIn_opaqueOperands]
    exact Nat.le_refl _

theorem directReads_le_censusTerminator (slot : SlotId) (kind : TerminatorKind) :
    kind.directReads.count slot ≤ usesIn slot (censusTerminator kind) := by
  cases kind with
  | switchBool operand t f =>
    have h := usesIn_opaqueOperands slot [operand]
    rw [List.flatMap_cons, List.flatMap_nil, List.append_nil] at h
    simp only [TerminatorKind.directReads, censusTerminator]
    omega
  | call func args dest next =>
    have hfunc := usesIn_opaqueOperands slot [func]
    rw [List.flatMap_cons, List.flatMap_nil, List.append_nil] at hfunc
    have hargs := usesIn_flatMap (usesIn_transferableOperand slot) args
    have hsplit : (func :: args).filterMap operandRootSlot
        = [func].filterMap operandRootSlot ++ args.filterMap operandRootSlot := by
      rw [← List.filterMap_append]
      rfl
    simp only [TerminatorKind.directReads, censusTerminator, usesIn_append,
      usesIn_censusDestination, List.count_append, hsplit]
    omega
  | _ => simp [TerminatorKind.directReads]

theorem directReadsAt_le (mir : MirFunction) (slot : SlotId) (c : Cursor) :
    (directReadsAt mir c).count slot ≤ usesIn slot (censusAt mir c) := by
  unfold directReadsAt censusAt atCursor
  cases mir.block? c.block with
  | none => simp
  | some block =>
    simp only
    cases block.statements[c.idx]? with
    | some s => exact directReads_le_censusStatement slot s.kind
    | none =>
      simp only
      split
      · exact directReads_le_censusTerminator slot block.terminator.kind
      · simp

/-! ## Transferable reads and definitions

A transferable read is a direct read that liveness also counts, and the definitions of the census
are those of `DefinesAt`. -/

theorem root_of_mem_transferableOperand {slot : SlotId} {op : Operand}
    (h : .transferable slot ∈ transferableOperand op) :
    ∃ place ∈ op.place?, place.rootLocal = slot := by
  unfold transferableOperand at h
  split at h
  · rename_i s hp
    exact ⟨.localSlot s, hp, by simpa [Place.rootLocal, eq_comm] using h⟩
  · simp at h
  · simp at h

theorem not_transferable_mem_opaqueOperand {slot : SlotId} {op : Operand} :
    .transferable slot ∉ opaqueOperand op := by
  unfold opaqueOperand
  split <;> simp

theorem not_transferable_mem_censusDestination {slot : SlotId} {place : Place} :
    .transferable slot ∉ censusDestination place := by
  cases place <;> simp [censusDestination]

theorem mem_filterMap_of_usedBy {slot : SlotId} {ops : List Operand} (h : UsedBy slot ops) :
    slot ∈ ops.filterMap operandRootSlot := by
  obtain ⟨op, hop, place, hplace, hroot⟩ := h
  have hplace' : op.place? = some place := hplace
  exact List.mem_filterMap.mpr ⟨op, hop, by rw [operandRootSlot, hplace', ← hroot]; rfl⟩

theorem transferable_mem_censusStatement {slot : SlotId} {kind : StatementKind}
    (h : .transferable slot ∈ censusStatement kind) :
    kind.usesSlot slot ∧ slot ∈ kind.directReads := by
  have hopq : ∀ ops : List Operand, .transferable slot ∉ ops.flatMap opaqueOperand := by
    intro ops hmem
    obtain ⟨op, -, hop⟩ := List.mem_flatMap.mp hmem
    exact not_transferable_mem_opaqueOperand hop
  cases kind with
  | assign dest rvalue =>
    rcases List.mem_append.mp h with h | h
    · exact absurd h not_transferable_mem_censusDestination
    · cases rvalue with
      | use op =>
        have hused : UsedBy slot [op] :=
          ⟨op, List.mem_singleton_self _, root_of_mem_transferableOperand h⟩
        exact ⟨hused, List.mem_append_right _ (mem_filterMap_of_usedBy hused)⟩
      | borrow kind place => simp [censusRvalue] at h
      | _ => exact absurd h (hopq _)
  | drop place => simp [censusStatement] at h
  | _ => exact absurd h (hopq _)

theorem transferable_mem_censusTerminator {slot : SlotId} {kind : TerminatorKind}
    (h : .transferable slot ∈ censusTerminator kind) :
    kind.usesSlot slot ∧ slot ∈ kind.directReads := by
  cases kind with
  | call func args dest next =>
    rcases List.mem_append.mp h with h | h
    · rcases List.mem_append.mp h with h | h
      · exact absurd h not_transferable_mem_opaqueOperand
      · obtain ⟨op, hop, hmem⟩ := List.mem_flatMap.mp h
        have hused : UsedBy slot (func :: args) :=
          ⟨op, List.mem_cons_of_mem _ hop, root_of_mem_transferableOperand hmem⟩
        exact ⟨hused, List.mem_append_left _ (mem_filterMap_of_usedBy hused)⟩
    · exact absurd h not_transferable_mem_censusDestination
  | switchBool operand t f => exact absurd h not_transferable_mem_opaqueOperand
  | _ => simp [censusTerminator] at h

theorem defn_mem_censusStatement {slot : SlotId} {kind : StatementKind} :
    .defn slot ∈ censusStatement kind ↔ kind.defines slot := by
  have hopq : ∀ ops : List Operand, .defn slot ∉ ops.flatMap opaqueOperand := by
    intro ops hmem
    obtain ⟨op, -, hop⟩ := List.mem_flatMap.mp hmem
    unfold opaqueOperand at hop
    split at hop <;> simp at hop
  cases kind with
  | assign dest rvalue =>
    have hrv : .defn slot ∉ censusRvalue rvalue := by
      cases rvalue with
      | use op =>
        simp only [censusRvalue, transferableOperand]
        split <;> simp
      | borrow kind place => simp [censusRvalue]
      | _ => exact hopq _
    rw [censusStatement, List.mem_append, or_iff_left hrv]
    cases dest <;> simp [censusDestination, StatementKind.defines, eq_comm]
  | drop place => simp [censusStatement, StatementKind.defines]
  | _ => simp [censusStatement, StatementKind.defines, hopq]

theorem defn_mem_censusTerminator {slot : SlotId} {kind : TerminatorKind} :
    .defn slot ∈ censusTerminator kind ↔
      ∃ func args next, kind = .call func args (.localSlot slot) next := by
  have hopq : ∀ op : Operand, .defn slot ∉ opaqueOperand op := by
    intro op
    unfold opaqueOperand
    split <;> simp
  cases kind with
  | call func args dest next =>
    have hargs : .defn slot ∉ args.flatMap transferableOperand := by
      intro hmem
      obtain ⟨op, -, hop⟩ := List.mem_flatMap.mp hmem
      unfold transferableOperand at hop
      split at hop <;> simp at hop
    rw [censusTerminator, List.mem_append, List.mem_append]
    cases dest <;> simp [censusDestination, hopq, hargs, eq_comm]
  | switchBool operand t f => simp [censusTerminator, hopq]
  | _ => simp [censusTerminator]

/-- A cursor's census, read as its statement's or its terminator's. -/
theorem mem_censusAt {mir : MirFunction} {c : Cursor} {ev : CensusEvent} :
    ev ∈ censusAt mir c ↔ (∃ s ∈ stmtAt mir c, ev ∈ censusStatement s.kind) ∨
      (AtTerminator mir c ∧ ∃ bb ∈ mir.block? c.block, ev ∈ censusTerminator bb.terminator.kind) := by
  unfold censusAt atCursor
  cases hb : mir.block? c.block with
  | none => simp [stmtAt, AtTerminator, MirFunction.statements, hb]
  | some block =>
    simp only [stmtAt, AtTerminator, hb, MirFunction.statements_of_block? hb]
    cases hs : block.statements[c.idx]? with
    | some s =>
      have hlt := (List.getElem?_eq_some_iff.mp hs).1
      have hne : c.idx ≠ block.statements.length := by omega
      simp [hne]
    | none =>
      by_cases hidx : c.idx = block.statements.length <;> simp [hidx]

theorem definesAt_iff_defn {mir : MirFunction} {slot : SlotId} {c : Cursor} :
    DefinesAt mir slot c ↔ .defn slot ∈ censusAt mir c := by
  rw [mem_censusAt]
  simp only [DefinesAt, defn_mem_censusStatement, defn_mem_censusTerminator]

/-! ## A planned slot -/

section Planned

variable {fuel : Nat} {mir : MirFunction} {cfg : ControlFlowGraph} {live : LivenessResult}
  {slot : SlotId} {defSite read : UseSite}

/-- An event with one recorded site happens at that site's cursor only. -/
theorem cursor_of_sitesOf_singleton {ev : CensusEvent} {site : UseSite}
    (h : sitesOf mir ev = [site]) {c : Cursor} :
    ev ∈ censusAt mir c ↔ c = site.cursor mir := by
  constructor
  · intro hmem
    rcases replicate_sublist_sitesOf mir c ev with hzero | ⟨site', hcur, hsub⟩
    · exact absurd hmem (List.count_eq_zero.mp hzero)
    · have hpos : 0 < (censusAt mir c).count ev := List.count_pos_iff.mpr hmem
      have hin : site' ∈ sitesOf mir ev :=
        hsub.mem (List.mem_replicate.mpr ⟨by omega, rfl⟩)
      rw [h, List.mem_singleton] at hin
      rw [← hin, hcur]
  · rintro rfl
    exact (mem_censusAt_of_mem_sitesOf (h ▸ List.mem_singleton_self _)).1

namespace Planned

theorem definesAt_iff (h : Planned fuel mir cfg live slot defSite read) {c : Cursor} :
    DefinesAt mir slot c ↔ c = defSite.cursor mir :=
  definesAt_iff_defn.trans (cursor_of_sitesOf_singleton h.defs)

theorem usesSlotAt (h : Planned fuel mir cfg live slot defSite read) :
    UsesSlotAt mir slot (read.cursor mir) := by
  have hmem := (cursor_of_sitesOf_singleton h.reads).mpr rfl
  rcases mem_censusAt.mp hmem with ⟨s, hs, hev⟩ | ⟨hterm, bb, hbb, hev⟩
  · exact Or.inl ⟨s, hs, (transferable_mem_censusStatement hev).1⟩
  · exact Or.inr ⟨hterm, bb, hbb, (transferable_mem_censusTerminator hev).1⟩

theorem mem_directReadsAt (h : Planned fuel mir cfg live slot defSite read) :
    slot ∈ directReadsAt mir (read.cursor mir) := by
  have hmem := (cursor_of_sitesOf_singleton h.reads).mpr rfl
  unfold censusAt atCursor at hmem
  unfold directReadsAt atCursor
  cases hb : mir.block? (read.cursor mir).block with
  | none => simp [hb] at hmem
  | some block =>
    simp only [hb] at hmem ⊢
    cases hs : block.statements[(read.cursor mir).idx]? with
    | some s =>
      simp only [hs] at hmem
      exact (transferable_mem_censusStatement hmem).2
    | none =>
      simp only [hs] at hmem ⊢
      split at hmem
      · rename_i hidx
        rw [if_pos hidx]
        exact (transferable_mem_censusTerminator hmem).2
      · simp at hmem

/-- **A planned slot is read directly once, at its read.** -/
theorem count_directReadsAt (h : Planned fuel mir cfg live slot defSite read) (c : Cursor) :
    (directReadsAt mir c).count slot = if c = read.cursor mir then 1 else 0 := by
  have hle := directReadsAt_le mir slot c
  have hother : (censusAt mir c).count (.other slot) = 0 := by
    rcases replicate_sublist_sitesOf mir c (.other slot) with hzero | ⟨site, -, hsub⟩
    · exact hzero
    · rw [h.others] at hsub
      simpa using hsub.length_le
  have htransfer : (censusAt mir c).count (.transferable slot) ≤ 1 := by
    rcases replicate_sublist_sitesOf mir c (.transferable slot) with hzero | ⟨site, -, hsub⟩
    · omega
    · rw [h.reads] at hsub
      simpa using hsub.length_le
  unfold usesIn at hle
  split
  · rename_i hc
    subst hc
    have hpos := List.count_pos_iff.mpr h.mem_directReadsAt
    omega
  · rename_i hc
    have hzero : (censusAt mir c).count (.transferable slot) = 0 :=
      List.count_eq_zero.mpr fun hmem => hc ((cursor_of_sitesOf_singleton h.reads).mp hmem)
    omega

end Planned

end Planned

end ShapeLang.Mir
