import ShapeLang.Mir.Types

/-!
# ShapeLang — the control-flow graph of a MIR function

`ControlFlowGraph::build` (`crates/shape-vm/src/mir/cfg.rs`) and the execution paths the analyses
are judged against.

  * `ControlFlowGraph` — successor and predecessor tables; `build` fills them block by block.
  * `Cursor`, `Step`, `IsPath` — a cursor stands before a statement of a block or, past the last
    one, before its terminator. A step executes the statement under the cursor, or leaves the
    block for one of the terminator's targets. An execution path is a chain of steps: it passes
    through blocks without statements like through any other.
-/

namespace ShapeLang.Mir

/-! ## The graph -/

/-- Successors and predecessors of each block; a block without an entry has none. -/
structure ControlFlowGraph where
  successors : BasicBlockId → List BasicBlockId
  predecessors : BasicBlockId → List BasicBlockId

namespace ControlFlowGraph

/-- `predecessors.entry(succ).or_default().push(block)` for each successor in turn. -/
def pushPredecessors (preds : BasicBlockId → List BasicBlockId) (block : BasicBlockId)
    (succs : List BasicBlockId) : BasicBlockId → List BasicBlockId :=
  succs.foldl (fun preds succ => Function.update preds succ (preds succ ++ [block])) preds

def addBlock (cfg : ControlFlowGraph) (block : BasicBlock) : ControlFlowGraph :=
  let succs := terminatorSuccessors block.terminator.kind
  { successors := Function.update cfg.successors block.id succs
    predecessors := pushPredecessors cfg.predecessors block.id succs }

def build (mir : MirFunction) : ControlFlowGraph :=
  mir.blocks.foldl addBlock { successors := fun _ => [], predecessors := fun _ => [] }

theorem mem_pushPredecessors {preds : BasicBlockId → List BasicBlockId} {block p b : BasicBlockId}
    {succs : List BasicBlockId} :
    p ∈ pushPredecessors preds block succs b ↔ p ∈ preds b ∨ p = block ∧ b ∈ succs := by
  induction succs generalizing preds with
  | nil => simp [pushPredecessors]
  | cons s succs ih =>
    rw [pushPredecessors, List.foldl_cons, ← pushPredecessors, ih]
    by_cases hb : b = s
    · subst hb
      simp only [Function.update_self, List.mem_append, List.mem_cons, true_or, and_true]
      tauto
    · simp [hb]

/-- The tables after entering `blocks` one by one. -/
theorem foldl_addBlock {blocks : List BasicBlock} {cfg : ControlFlowGraph}
    (hnd : (blocks.map (·.id)).Nodup) (id p : BasicBlockId) :
    (∀ b ∈ blocks, b.id = id → (blocks.foldl addBlock cfg).successors id
      = terminatorSuccessors b.terminator.kind) ∧
    ((∀ b ∈ blocks, b.id ≠ id) →
      (blocks.foldl addBlock cfg).successors id = cfg.successors id) ∧
    (p ∈ (blocks.foldl addBlock cfg).predecessors id ↔ p ∈ cfg.predecessors id ∨
      ∃ b ∈ blocks, b.id = p ∧ id ∈ terminatorSuccessors b.terminator.kind) := by
  induction blocks generalizing cfg with
  | nil => simp
  | cons b blocks ih =>
    obtain ⟨hb, hnd⟩ := List.nodup_cons.mp hnd
    obtain ⟨h1, h2, h3⟩ := @ih (addBlock cfg b) hnd
    refine ⟨?_, ?_, ?_⟩
    · intro c hc hid
      rcases List.mem_cons.mp hc with rfl | hc
      · -- the head block: no later block has its id, so its entry survives
        rw [List.foldl_cons, h2 ?_]
        · simp [addBlock, ← hid]
        · intro d hd hdid
          exact hb (List.mem_map.mpr ⟨d, hd, hdid.trans hid.symm⟩)
      · exact h1 c hc hid
    · intro hne
      rw [List.foldl_cons, h2 fun c hc => hne c (List.mem_cons_of_mem _ hc)]
      simp [addBlock, Function.update_of_ne (Ne.symm (hne b List.mem_cons_self))]
    · rw [List.foldl_cons, h3]
      simp only [addBlock, mem_pushPredecessors, List.mem_cons, exists_eq_or_imp, or_assoc,
        @eq_comm _ p b.id]

theorem block_ids_nodup (mir : MirFunction) : (mir.blocks.map (·.id)).Nodup := by
  rw [mir.block_ids]
  exact List.nodup_range

variable {mir : MirFunction} {id : BasicBlockId}

/-- The successors of a block are its terminator's targets. -/
theorem successors_build {b : BasicBlock} (h : mir.block? id = some b) :
    (build mir).successors id = terminatorSuccessors b.terminator.kind :=
  (foldl_addBlock (block_ids_nodup mir) id 0).1 b (MirFunction.block?_mem h)
    (MirFunction.id_of_block? h)

/-- The predecessors of a block are the blocks that jump to it. -/
theorem mem_predecessors_build {p : BasicBlockId} :
    p ∈ (build mir).predecessors id ↔
      ∃ b ∈ mir.blocks, b.id = p ∧ id ∈ terminatorSuccessors b.terminator.kind := by
  have h := (@foldl_addBlock mir.blocks ⟨fun _ => [], fun _ => []⟩ (block_ids_nodup mir) id p).2.2
  simpa [build] using h

theorem successors_build_of_none (h : mir.block? id = none) : (build mir).successors id = [] := by
  refine (@foldl_addBlock mir.blocks ⟨fun _ => [], fun _ => []⟩ (block_ids_nodup mir) id 0).2.1 ?_
  intro b hb hid
  rw [← hid, MirFunction.block?_of_mem hb] at h
  cases h

/-- An edge of the graph starts and ends at blocks of the function. -/
theorem exists_block?_of_mem_successors {b s : BasicBlockId} (h : s ∈ (build mir).successors b) :
    ∃ blk, mir.block? b = some blk ∧ s ∈ terminatorSuccessors blk.terminator.kind
      ∧ ∃ sblk, mir.block? s = some sblk := by
  cases hb : mir.block? b with
  | none => simp [successors_build_of_none hb] at h
  | some blk =>
    rw [successors_build hb] at h
    have hlt := mir.targets_exist blk (MirFunction.block?_mem hb) s h
    exact ⟨blk, rfl, h, MirFunction.block?_isSome hlt⟩

end ControlFlowGraph

/-! ## Execution paths -/

/-- A position in a function: before statement `idx` of `block`, or before its terminator when
`idx` is the number of statements. -/
structure Cursor where
  block : BasicBlockId
  idx : Nat
  deriving DecidableEq, Repr

/-- The statement under a cursor; none before a terminator. -/
def stmtAt (mir : MirFunction) (c : Cursor) : Option MirStatement := (mir.statements c.block)[c.idx]?

def AtTerminator (mir : MirFunction) (c : Cursor) : Prop :=
  (mir.block? c.block).isSome ∧ c.idx = (mir.statements c.block).length

/-- One step of an execution: past the statement under the cursor, or along an edge of the graph. -/
inductive Step (mir : MirFunction) : Cursor → Cursor → Prop
  | next {b i : Nat} (h : i < (mir.statements b).length) : Step mir ⟨b, i⟩ ⟨b, i + 1⟩
  | jump {b s : BasicBlockId} (h : s ∈ (ControlFlowGraph.build mir).successors b) :
      Step mir ⟨b, (mir.statements b).length⟩ ⟨s, 0⟩

variable {mir : MirFunction} {c : Cursor}

theorem step_iff {d : Cursor} :
    Step mir c d ↔ (c.idx < (mir.statements c.block).length ∧ d = ⟨c.block, c.idx + 1⟩) ∨
      (c.idx = (mir.statements c.block).length ∧
        ∃ s ∈ (ControlFlowGraph.build mir).successors c.block, d = ⟨s, 0⟩) := by
  obtain ⟨b, i⟩ := c
  constructor
  · intro h
    cases h with
    | next hi => exact Or.inl ⟨hi, rfl⟩
    | jump hs => exact Or.inr ⟨rfl, _, hs, rfl⟩
  · rintro (⟨hi, rfl⟩ | ⟨hi, s, hs, rfl⟩)
    · exact .next hi
    · simp only at hi
      subst hi
      exact .jump hs

/-- An execution path: consecutive cursors are one step apart. -/
def IsPath (mir : MirFunction) (π : List Cursor) : Prop := π.IsChain (Step mir)

def entryCursor (mir : MirFunction) : Cursor := ⟨mir.entryBlock, 0⟩

theorem stmtAt_mem {s : MirStatement} (h : stmtAt mir c = some s) :
    ∃ b, mir.block? c.block = some b ∧ s ∈ b.statements := by
  cases hb : mir.block? c.block with
  | none => simp [stmtAt, MirFunction.statements, hb] at h
  | some b =>
    rw [stmtAt, MirFunction.statements_of_block? hb] at h
    exact ⟨b, rfl, List.mem_of_getElem? h⟩

/-- Two cursors at statements with the same point are the same cursor. -/
theorem cursor_eq_of_point_eq {c' : Cursor} {s s' : MirStatement} (h : stmtAt mir c = some s)
    (h' : stmtAt mir c' = some s') (hp : s.point = s'.point) :
    c = c' := by
  obtain ⟨b, i⟩ := c
  obtain ⟨b', i'⟩ := c'
  obtain ⟨blk, hb, -⟩ := stmtAt_mem h
  obtain ⟨blk', hb', -⟩ := stmtAt_mem h'
  rw [stmtAt, MirFunction.statements_of_block? hb] at h
  rw [stmtAt, MirFunction.statements_of_block? hb'] at h'
  have hpts : (mir.blocks.flatMap fun b => b.statements.map (·.point)).Nodup := by
    have := mir.points_nodup
    rwa [List.map_flatMap] at this
  obtain ⟨hin, hdisj⟩ := List.nodup_flatMap.mp hpts
  have hpi : (blk.statements.map (·.point))[i]? = some s.point := by
    simp only at h
    simp [h]
  have hpi' : (blk'.statements.map (·.point))[i']? = some s.point := by
    simp only at h'
    simp [h', hp]
  -- the blocks agree, since points of different blocks are disjoint
  have hbb : b = b' := by
    by_contra hne
    have hnot : ∀ x y : Nat, x < y → ∀ bx byy, mir.blocks[x]? = some bx → mir.blocks[y]? = some byy →
        s.point ∈ bx.statements.map (·.point) → s.point ∈ byy.statements.map (·.point) → False := by
      intro x y hxy bx byy hbx hby hmx hmy
      obtain ⟨hx, rfl⟩ := List.getElem?_eq_some_iff.mp hbx
      obtain ⟨hy, rfl⟩ := List.getElem?_eq_some_iff.mp hby
      exact (List.pairwise_iff_getElem.mp hdisj x y hx hy hxy) hmx hmy
    have hm := List.mem_of_getElem? hpi
    have hm' := List.mem_of_getElem? hpi'
    rcases Nat.lt_or_gt_of_ne hne with hlt | hlt
    · exact hnot b b' hlt blk blk' hb hb' hm hm'
    · exact hnot b' b hlt blk' blk hb' hb hm' hm
  subst hbb
  obtain rfl : blk = blk' := Option.some.inj (hb.symm.trans hb')
  have hnd := hin blk (MirFunction.block?_mem hb)
  obtain ⟨hi, hgi⟩ := List.getElem?_eq_some_iff.mp hpi
  obtain ⟨hi', hgi'⟩ := List.getElem?_eq_some_iff.mp hpi'
  rw [(List.Nodup.getElem_inj_iff hnd).mp (hgi.trans hgi'.symm)]

end ShapeLang.Mir
