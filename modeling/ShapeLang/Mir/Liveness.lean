import ShapeLang.Lib.Chain
import ShapeLang.Mir.Dominators

/-!
# ShapeLang — liveness

The backward dataflow of `crates/shape-vm/src/mir/liveness.rs`: `live_out[B] = ∪ live_in[S]`,
`live_in[B] = (live_out[B] - def[B]) ∪ use[B]`, iterated over the reverse postorder until nothing
changes. A use is the *root local* of an operand's place, of a borrowed or of a dropped place; a
whole-local assignment kills. Operands nested in a place as an index are not looked at, and the
destination of a call kills nothing.

  * `mem_updateLiveness` — the transfer function of one statement, as a membership rule;
  * `computeLiveness_stable` — a finished run satisfies the two equations at every reachable block;
  * `live_of_read_ahead` — a use ahead on a path that does not define the slot makes it live.
-/

namespace ShapeLang.Mir

structure LivenessResult where
  liveIn : BasicBlockId → Finset SlotId
  liveOut : BasicBlockId → Finset SlotId

/-! ## Uses and definitions -/

def addOperandUses (live : Finset SlotId) (op : Operand) : Finset SlotId :=
  match op.place? with
  | some place => insert place.rootLocal live
  | none => live

def addRvalueUses (live : Finset SlotId) (rvalue : Rvalue) : Finset SlotId :=
  match rvalue with
  | .borrow _ place => insert place.rootLocal live
  | rvalue => rvalue.operands.foldl addOperandUses live

/-- Only a whole-local assignment removes its slot. -/
def killAssigned (live : Finset SlotId) : Place → Finset SlotId
  | .localSlot slot => live.erase slot
  | _ => live

def updateLivenessForStatement (live : Finset SlotId) (kind : StatementKind) : Finset SlotId :=
  match kind with
  | .assign place rvalue => addRvalueUses (killAssigned live place) rvalue
  | .drop place => insert place.rootLocal live
  | kind => kind.operands.foldl addOperandUses live

def addTerminatorUses (live : Finset SlotId) (kind : TerminatorKind) : Finset SlotId :=
  match kind with
  | .switchBool operand _ _ => addOperandUses live operand
  | .call func args _ _ => args.foldl addOperandUses (addOperandUses live func)
  | _ => live

/-- The statements of a suffix of a block, processed backwards. -/
def liveThrough (live : Finset SlotId) (stmts : List MirStatement) : Finset SlotId :=
  stmts.foldr (fun stmt live => updateLivenessForStatement live stmt.kind) live

namespace LivenessResult

/-- Is the slot live after statement `stmtIdx`? The walk back from the block's exit adds the
terminator's uses at its end. -/
def isLiveAfter (result : LivenessResult) (block : BasicBlockId) (stmtIdx : Nat) (slot : SlotId)
    (mir : MirFunction) : Bool :=
  match mir.block? block with
  | some bb =>
      let live := liveThrough (result.liveOut block) (bb.statements.drop (stmtIdx + 1))
      slot ∈ addTerminatorUses live bb.terminator.kind
  | none => false

end LivenessResult

/-! ## The dataflow -/

def newLiveOut (cfg : ControlFlowGraph) (st : LivenessResult) (block : BasicBlockId) :
    Finset SlotId :=
  (cfg.successors block).foldl (fun live succ => live ∪ st.liveIn succ) ∅

def newLiveIn (bb : BasicBlock) (liveOut : Finset SlotId) : Finset SlotId :=
  liveThrough (addTerminatorUses liveOut bb.terminator.kind) bb.statements

/-- Recompute one block; `none` when neither set changes. -/
def livenessStep (mir : MirFunction) (cfg : ControlFlowGraph) (st : LivenessResult)
    (block : BasicBlockId) : Option LivenessResult :=
  match mir.block? block with
  | none => none
  | some bb =>
      let out := newLiveOut cfg st block
      let into := newLiveIn bb out
      if into = st.liveIn block ∧ out = st.liveOut block then none
      else some
        { liveIn := Function.update st.liveIn block into
          liveOut := Function.update st.liveOut block out }

def computeLiveness (fuel : Nat) (mir : MirFunction) (cfg : ControlFlowGraph) :
    Option LivenessResult := do
  let rpo ← cfg.reversePostorder fuel
  Fixpoint.loop (livenessStep mir cfg) rpo.reverse fuel
    { liveIn := fun _ => ∅, liveOut := fun _ => ∅ }

/-! ## Membership rules -/

/-- The slot is the root of one of the operands. -/
def UsedBy (slot : SlotId) (ops : List Operand) : Prop :=
  ∃ op ∈ ops, ∃ place ∈ op.place?, place.rootLocal = slot

theorem mem_foldl_addOperandUses {live : Finset SlotId} {ops : List Operand} {slot : SlotId} :
    slot ∈ ops.foldl addOperandUses live ↔ slot ∈ live ∨ UsedBy slot ops := by
  induction ops generalizing live with
  | nil => simp [UsedBy]
  | cons op ops ih =>
    rw [List.foldl_cons, ih]
    unfold addOperandUses UsedBy
    cases hp : op.place? with
    | none => simp [hp]
    | some place => simp [hp, eq_comm, or_comm, or_assoc]

/-- A statement uses a slot: as the root of an operand, of a borrowed or of a dropped place. -/
def StatementKind.usesSlot (slot : SlotId) : StatementKind → Prop
  | .assign _ (.borrow _ place) => place.rootLocal = slot
  | .drop place => place.rootLocal = slot
  | kind => UsedBy slot kind.operands

/-- A statement defines a slot: it assigns the whole local. -/
def StatementKind.defines (slot : SlotId) : StatementKind → Prop
  | .assign (.localSlot s) _ => s = slot
  | _ => False

/-- **Transfer rule.** Live before: used here, or live after and not redefined here. -/
theorem mem_updateLiveness {live : Finset SlotId} {kind : StatementKind} {slot : SlotId} :
    slot ∈ updateLivenessForStatement live kind ↔
      kind.usesSlot slot ∨ slot ∈ live ∧ ¬ kind.defines slot := by
  cases kind with
  | assign place rvalue =>
    -- an assignment to a place inside a local does not define the local
    have hkill : slot ∈ killAssigned live place ↔
        slot ∈ live ∧ ¬ (StatementKind.assign place rvalue).defines slot := by
      cases place with
      | localSlot s => simp [killAssigned, StatementKind.defines, and_comm, eq_comm]
      | _ => simp [killAssigned, StatementKind.defines]
    rw [updateLivenessForStatement]
    cases rvalue with
    | borrow kind bplace =>
      simp only [addRvalueUses, Finset.mem_insert, StatementKind.usesSlot]
      rw [hkill]
      simp [eq_comm]
    | _ =>
      simp only [addRvalueUses, mem_foldl_addOperandUses]
      rw [hkill, or_comm]
      rfl
  | drop place => simp [updateLivenessForStatement, StatementKind.usesSlot, StatementKind.defines, eq_comm]
  | _ =>
    simp only [updateLivenessForStatement, mem_foldl_addOperandUses]
    rw [or_comm]
    simp [StatementKind.usesSlot, StatementKind.defines]

/-- A terminator uses a slot as the root of one of its operands. -/
def TerminatorKind.usesSlot (slot : SlotId) : TerminatorKind → Prop
  | .switchBool operand _ _ => UsedBy slot [operand]
  | .call func args _ _ => UsedBy slot (func :: args)
  | _ => False

variable {kind : TerminatorKind}

theorem mem_addTerminatorUses {live : Finset SlotId} {slot : SlotId} :
    slot ∈ addTerminatorUses live kind ↔ kind.usesSlot slot ∨ slot ∈ live := by
  cases kind with
  | switchBool operand t f =>
    have h := @mem_foldl_addOperandUses live [operand] slot
    rw [or_comm]
    exact h
  | call func args dest next =>
    have h := @mem_foldl_addOperandUses live (func :: args) slot
    rw [or_comm]
    exact h
  | _ => simp [addTerminatorUses, TerminatorKind.usesSlot]

variable {stmts : List MirStatement}

/-- Adding uses before or after the backward walk: afterwards is never less. -/
theorem mem_liveThrough_terminator {live : Finset SlotId} {slot : SlotId}
    (h : slot ∈ liveThrough (addTerminatorUses live kind) stmts) :
    slot ∈ addTerminatorUses (liveThrough live stmts) kind := by
  rw [mem_addTerminatorUses]
  induction stmts with
  | nil => exact mem_addTerminatorUses.mp h
  | cons s stmts ih =>
    rw [liveThrough, List.foldr_cons, mem_updateLiveness] at h
    rcases h with huse | ⟨hlive, hdef⟩
    · exact Or.inr (mem_updateLiveness.mpr (Or.inl huse))
    · rcases ih hlive with hterm | hlive
      · exact Or.inl hterm
      · exact Or.inr (mem_updateLiveness.mpr (Or.inr ⟨hlive, hdef⟩))

theorem mem_liveThrough_mono {live live' : Finset SlotId} (hsub : live ⊆ live') {slot : SlotId}
    (h : slot ∈ liveThrough live stmts) : slot ∈ liveThrough live' stmts := by
  induction stmts generalizing slot with
  | nil => exact hsub h
  | cons s stmts ih =>
    rcases mem_updateLiveness.mp h with huse | ⟨hlive, hdef⟩
    · exact mem_updateLiveness.mpr (Or.inl huse)
    · exact mem_updateLiveness.mpr (Or.inr ⟨ih hlive, hdef⟩)

/-! ## The equations of a finished run -/

variable {cfg : ControlFlowGraph}

theorem mem_newLiveOut {st : LivenessResult} {block : BasicBlockId} {slot : SlotId} :
    slot ∈ newLiveOut cfg st block ↔ ∃ succ ∈ cfg.successors block, slot ∈ st.liveIn succ := by
  have hfold : ∀ (succs : List BasicBlockId) (live : Finset SlotId),
      slot ∈ succs.foldl (fun live succ => live ∪ st.liveIn succ) live ↔
        slot ∈ live ∨ ∃ succ ∈ succs, slot ∈ st.liveIn succ := by
    intro succs
    induction succs with
    | nil => simp
    | cons s succs ih =>
      intro live
      rw [List.foldl_cons, ih]
      simp [or_assoc]
  rw [newLiveOut, hfold]
  simp

/-- A turn that changes something replaces both sets of its block. -/
theorem livenessStep_cases {mir : MirFunction} {st st' : LivenessResult} {b : BasicBlockId}
    (h : livenessStep mir cfg st b = some st') :
    ∃ bb, mir.block? b = some bb ∧
      ¬ (newLiveIn bb (newLiveOut cfg st b) = st.liveIn b ∧ newLiveOut cfg st b = st.liveOut b) ∧
      st'.liveIn = Function.update st.liveIn b (newLiveIn bb (newLiveOut cfg st b)) ∧
      st'.liveOut = Function.update st.liveOut b (newLiveOut cfg st b) := by
  unfold livenessStep at h
  cases hb : mir.block? b with
  | none =>
    rw [hb] at h
    cases h
  | some bb =>
    simp only [hb] at h
    split at h
    · cases h
    · rename_i hchanged
      obtain rfl := Option.some.inj h
      exact ⟨bb, rfl, hchanged, rfl, rfl⟩

/-- **A finished run is stable.** At every reachable block both equations hold. -/
theorem computeLiveness_stable {fuel : Nat} {mir : MirFunction} {live : LivenessResult}
    (h : computeLiveness fuel mir cfg = some live) {b : BasicBlockId} {bb : BasicBlock}
    (hreach : cfg.Reaches 0 b) (hb : mir.block? b = some bb) :
    live.liveOut b = newLiveOut cfg live b ∧ live.liveIn b = newLiveIn bb (live.liveOut b) := by
  obtain ⟨rpo, hrpo, hloop⟩ := Option.bind_eq_some_iff.mp h
  have hmem : b ∈ rpo.reverse :=
    List.mem_reverse.mpr (ControlFlowGraph.mem_reversePostorder hrpo hreach)
  have hstable := (Fixpoint.loop_stable (P := fun _ => True) (fun _ _ _ _ _ _ => trivial)
    trivial hloop).2 b hmem
  simp only [livenessStep, hb] at hstable
  split at hstable
  · rename_i heq
    rw [← heq.2]
    exact ⟨rfl, heq.1.symm⟩
  · cases hstable

/-! ## Liveness along paths -/

/-- The slots live before the statement or terminator under a cursor. -/
def liveBefore (mir : MirFunction) (live : LivenessResult) (c : Cursor) : Finset SlotId :=
  match mir.block? c.block with
  | some bb => liveThrough (addTerminatorUses (live.liveOut c.block) bb.terminator.kind)
      (bb.statements.drop c.idx)
  | none => ∅

/-- The statement or terminator under a cursor uses the slot. -/
def UsesSlotAt (mir : MirFunction) (slot : SlotId) (c : Cursor) : Prop :=
  (∃ s ∈ stmtAt mir c, s.kind.usesSlot slot) ∨
    (AtTerminator mir c ∧ ∃ bb ∈ mir.block? c.block, bb.terminator.kind.usesSlot slot)

/-- The statement under a cursor, or the call that ends its block, assigns the whole local. -/
def DefinesAt (mir : MirFunction) (slot : SlotId) (c : Cursor) : Prop :=
  (∃ s ∈ stmtAt mir c, s.kind.defines slot) ∨
    (AtTerminator mir c ∧ ∃ bb ∈ mir.block? c.block, ∃ func args next,
      bb.terminator.kind = .call func args (.localSlot slot) next)

section Paths

variable {fuel : Nat} {mir : MirFunction} {live : LivenessResult} {slot : SlotId}

variable {c : Cursor}

theorem liveBefore_of_use (h : UsesSlotAt mir slot c) :
    slot ∈ liveBefore mir live c := by
  rcases h with ⟨s, hs, huse⟩ | ⟨⟨-, hidx⟩, bb, hb, huse⟩
  · obtain ⟨bb, hb, -⟩ := stmtAt_mem hs
    have hs' : stmtAt mir c = some s := hs
    rw [stmtAt, MirFunction.statements_of_block? hb] at hs'
    obtain ⟨hlt, rfl⟩ := List.getElem?_eq_some_iff.mp hs'
    rw [liveBefore, hb]
    simp only
    rw [List.drop_eq_getElem_cons hlt, liveThrough, List.foldr_cons]
    exact mem_updateLiveness.mpr (Or.inl huse)
  · have hb' : mir.block? c.block = some bb := hb
    rw [MirFunction.statements_of_block? hb'] at hidx
    rw [liveBefore, hb']
    simp only
    rw [hidx, List.drop_length]
    exact mem_addTerminatorUses.mpr (Or.inl huse)

/-- Back over a statement that does not assign the slot. -/
theorem liveBefore_of_next {b i : Nat} (hi : i < (mir.statements b).length)
    (hdef : ¬ ∃ s ∈ stmtAt mir ⟨b, i⟩, s.kind.defines slot)
    (hlive : slot ∈ liveBefore mir live ⟨b, i + 1⟩) :
    slot ∈ liveBefore mir live ⟨b, i⟩ := by
  cases hb : mir.block? b with
  | none => simp [MirFunction.statements, hb] at hi
  | some bb =>
    rw [MirFunction.statements_of_block? hb] at hi
    have hs : stmtAt mir ⟨b, i⟩ = some bb.statements[i] := by
      rw [stmtAt, MirFunction.statements_of_block? hb]
      exact List.getElem?_eq_getElem hi
    rw [liveBefore, hb] at hlive ⊢
    simp only at hlive ⊢
    rw [List.drop_eq_getElem_cons hi, liveThrough, List.foldr_cons]
    exact mem_updateLiveness.mpr (Or.inr ⟨hlive, fun hd => hdef ⟨_, hs, hd⟩⟩)

/-- Back over the edge out of a reachable block. -/
theorem liveBefore_of_jump (h : computeLiveness fuel mir (ControlFlowGraph.build mir) = some live)
    {b s : BasicBlockId} (hreach : (ControlFlowGraph.build mir).Reaches 0 b)
    (hsucc : s ∈ (ControlFlowGraph.build mir).successors b)
    (hlive : slot ∈ liveBefore mir live ⟨s, 0⟩) :
    slot ∈ liveBefore mir live ⟨b, (mir.statements b).length⟩ := by
  obtain ⟨bb, hb, -, sb, hsb⟩ := ControlFlowGraph.exists_block?_of_mem_successors hsucc
  have hreach' : (ControlFlowGraph.build mir).Reaches 0 s := hreach.tail hsucc
  -- live before the successor is its `live_in`, which flows into `live_out` here
  have hin : slot ∈ live.liveIn s := by
    rw [(computeLiveness_stable h hreach' hsb).2]
    rw [liveBefore, hsb] at hlive
    exact hlive
  have hout : slot ∈ live.liveOut b := by
    rw [(computeLiveness_stable h hreach hb).1]
    exact mem_newLiveOut.mpr ⟨s, hsucc, hin⟩
  rw [liveBefore, hb]
  simp only
  rw [MirFunction.statements_of_block? hb, List.drop_length]
  exact mem_addTerminatorUses.mpr (Or.inr hout)

/-- One step back: what is live behind a cursor that does not define it is live before it. -/
theorem liveBefore_of_step (h : computeLiveness fuel mir (ControlFlowGraph.build mir) = some live)
    {c' : Cursor} (hreach : (ControlFlowGraph.build mir).Reaches 0 c.block) (hstep : Step mir c c')
    (hdef : ¬ DefinesAt mir slot c) (hlive : slot ∈ liveBefore mir live c') :
    slot ∈ liveBefore mir live c := by
  cases hstep with
  | next hi => exact liveBefore_of_next hi (fun hd => hdef (Or.inl hd)) hlive
  | jump hsucc => exact liveBefore_of_jump h hreach hsucc hlive

theorem reaches_block_of_step {c' : Cursor} (hreach : (ControlFlowGraph.build mir).Reaches 0 c.block)
    (hstep : Step mir c c') :
    (ControlFlowGraph.build mir).Reaches 0 c'.block := by
  cases hstep with
  | next hi => exact hreach
  | jump hsucc => exact hreach.tail hsucc

/-- Every block on a path from a reachable block is reachable. -/
theorem reaches_block_of_path {π : List Cursor} (hreach : (ControlFlowGraph.build mir).Reaches 0 c.block)
    (hpath : IsPath mir (c :: π)) :
    ∀ c' ∈ c :: π, (ControlFlowGraph.build mir).Reaches 0 c'.block := by
  induction π generalizing c with
  | nil =>
    intro c' hc'
    rw [List.mem_singleton.mp hc']
    exact hreach
  | cons d π ih =>
    obtain ⟨hstep, hrest⟩ := List.isChain_cons_cons.mp hpath
    intro c' hc'
    rcases List.mem_cons.mp hc' with rfl | hc'
    · exact hreach
    · exact ih (reaches_block_of_step hreach hstep) hrest c' hc'

/-- **A use ahead makes a slot live.** Along a path from `c` to a use on which no cursor before
the use defines the slot, the slot is live before `c`. -/
theorem live_of_read_ahead (h : computeLiveness fuel mir (ControlFlowGraph.build mir) = some live)
    {u : Cursor} {π : List Cursor} (hreach : (ControlFlowGraph.build mir).Reaches 0 c.block)
    (hpath : IsPath mir (c :: π)) (hlast : (c :: π).getLast? = some u)
    (huse : UsesSlotAt mir slot u) (hdef : ∀ d ∈ (c :: π).dropLast, ¬ DefinesAt mir slot d) :
    slot ∈ liveBefore mir live c := by
  induction π generalizing c with
  | nil =>
    obtain rfl : c = u := by simpa using hlast
    exact liveBefore_of_use huse
  | cons d π ih =>
    obtain ⟨hstep, hrest⟩ := List.isChain_cons_cons.mp hpath
    rw [List.getLast?_cons_cons] at hlast
    rw [List.dropLast_cons_cons] at hdef
    refine liveBefore_of_step h hreach hstep (hdef c List.mem_cons_self) ?_
    exact ih (reaches_block_of_step hreach hstep) hrest hlast
      (fun e he => hdef e (List.mem_cons_of_mem _ he))

end Paths

end ShapeLang.Mir
