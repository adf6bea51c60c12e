import ShapeLang.Mir.Facts
import ShapeLang.Mir.Liveness

/-!
# ShapeLang — retain/release elision

`compute_plan` (`crates/shape-vm/src/mir/rc_elision.rs`): the bindings whose single whole-local
read may take the slot's share instead of minting a second one. A slot qualifies when a census of
the function finds one definition and one transferable read of it and nothing else, the definition
dominates the read, the read post-dominates the definition, and the slot is dead after the read.

  * `censusSlotUses` — what the census records for a slot;
  * `postDominators` — the dataflow on the reverse graph, over the blocks that reach an exit;
  * `computePlan` — the plan, as a list of binding names.

As in `Dominators`, bounded loops return `none` when their bound is used up.
-/

namespace ShapeLang.Mir

/-! ## Use census -/

inductive UseSite where
  | statement (block : BasicBlockId) (stmtIdx : Nat)
  | terminator (block : BasicBlockId)
  deriving DecidableEq, Repr

structure SlotUses where
  defs : Nat
  defSite : Option UseSite
  transferableReads : List UseSite
  otherUses : Nat
  deriving DecidableEq, Repr

/-- One entry of the census: a whole-local definition, an ownership-transferring read of a whole
local, or any other appearance. -/
inductive CensusEvent where
  | defn (slot : SlotId)
  | transferable (slot : SlotId)
  | other (slot : SlotId)
  deriving DecidableEq, Repr

def transferableOperand (op : Operand) : List CensusEvent :=
  match op.place? with
  | some (.localSlot slot) => [.transferable slot]
  | some place => [.other place.rootLocal]
  | none => []

def opaqueOperand (op : Operand) : List CensusEvent :=
  match op.place? with
  | some place => [.other place.rootLocal]
  | none => []

def censusDestination : Place → List CensusEvent
  | .localSlot slot => [.defn slot]
  | place => [.other place.rootLocal]

def censusRvalue : Rvalue → List CensusEvent
  | .use op => transferableOperand op
  | .borrow _ place => [.other place.rootLocal]
  | rvalue => rvalue.operands.flatMap opaqueOperand

def censusStatement : StatementKind → List CensusEvent
  | .assign place rvalue => censusDestination place ++ censusRvalue rvalue
  | .drop place => [.other place.rootLocal]
  | kind => kind.operands.flatMap opaqueOperand

def censusTerminator : TerminatorKind → List CensusEvent
  | .call func args destination _ =>
      opaqueOperand func ++ args.flatMap transferableOperand ++ censusDestination destination
  | .switchBool operand _ _ => opaqueOperand operand
  | _ => []

def blockCensus (block : BasicBlock) : List (UseSite × CensusEvent) :=
  (block.statements.zipIdx.flatMap fun (stmt, i) =>
      (censusStatement stmt.kind).map (UseSite.statement block.id i, ·))
    ++ (censusTerminator block.terminator.kind).map (UseSite.terminator block.id, ·)

def censusEvents (mir : MirFunction) : List (UseSite × CensusEvent) :=
  mir.blocks.flatMap blockCensus

/-- The sites at which an event was recorded. -/
def sitesOf (mir : MirFunction) (ev : CensusEvent) : List UseSite :=
  ((censusEvents mir).filter (·.2 = ev)).map Prod.fst

/-- The census entry of a slot; each definition overwrites the recorded site. -/
def censusSlotUses (mir : MirFunction) (slot : SlotId) : SlotUses :=
  { defs := (sitesOf mir (.defn slot)).length
    defSite := (sitesOf mir (.defn slot)).getLast?
    transferableReads := sitesOf mir (.transferable slot)
    otherUses := (sitesOf mir (.other slot)).length }

/-! ## Post-dominators -/

def blockOf : UseSite → BasicBlockId
  | .statement block _ => block
  | .terminator block => block

/-- Add a block one of whose successors reaches an exit. -/
def reachesExitStep (cfg : ControlFlowGraph) (reaches : List BasicBlockId) (block : BasicBlock) :
    Option (List BasicBlockId) :=
  if block.id ∈ reaches then none
  else if (cfg.successors block.id).any (· ∈ reaches) then some (block.id :: reaches)
  else none

def reachesExit (fuel : Nat) (cfg : ControlFlowGraph) (mir : MirFunction)
    (exits : List BasicBlockId) : Option (List BasicBlockId) :=
  Fixpoint.loop (reachesExitStep cfg) mir.blocks fuel exits

/-- `{b} ∪ ⋂ { pdom(s) : s ∈ succ(b) that reaches an exit }`. -/
def nextPdom (cfg : ControlFlowGraph) (reaches : List BasicBlockId)
    (pdom : BasicBlockId → Option (Finset BasicBlockId)) (b : BasicBlockId) : Finset BasicBlockId :=
  let acc := ((cfg.successors b).filter (· ∈ reaches)).foldl (fun acc s =>
    match acc with
    | none => pdom s
    | some cur => some (cur ∩ (pdom s).getD ∅)) none
  insert b (acc.getD ∅)

def pdomStep (cfg : ControlFlowGraph) (reaches : List BasicBlockId)
    (pdom : BasicBlockId → Option (Finset BasicBlockId)) (b : BasicBlockId) :
    Option (BasicBlockId → Option (Finset BasicBlockId)) :=
  if some (nextPdom cfg reaches pdom b) = pdom b then none
  else some (Function.update pdom b (some (nextPdom cfg reaches pdom b)))

def initialPdom (exits reaches : List BasicBlockId) (b : BasicBlockId) :
    Option (Finset BasicBlockId) :=
  if b ∈ reaches then
    if b ∈ exits then some {b} else some reaches.toFinset
  else none

def postDominators (fuel : Nat) (cfg : ControlFlowGraph) (mir : MirFunction)
    (exits : List BasicBlockId) : Option (BasicBlockId → Option (Finset BasicBlockId)) := do
  let reaches ← reachesExit fuel cfg mir exits
  let rpo ← cfg.reversePostorder fuel
  let order := rpo.filter fun b => b ∈ reaches ∧ b ∉ exits
  Fixpoint.loop (pdomStep cfg reaches) order.reverse fuel (initialPdom exits reaches)

def postDominates (pdom : BasicBlockId → Option (Finset BasicBlockId))
    (candidate target : BasicBlockId) : Bool :=
  match pdom target with
  | some set => candidate ∈ set
  | none => false

/-! ## The plan -/

/-- Walk the chain of immediate dominators. -/
def dominates (idom : BasicBlockId → Option BasicBlockId) (candidate : BasicBlockId) :
    Nat → BasicBlockId → Option Bool
  | 0, _ => none
  | fuel + 1, cur =>
      if cur = candidate then some true
      else match idom cur with
        | some next => if next ≠ cur then dominates idom candidate fuel next else some false
        | none => some false

/-- In one block the definition must come first; between blocks the block relations decide. -/
def precedesWithinBlock : UseSite → UseSite → Bool
  | .statement db di, .statement rb ri => if db = rb then di < ri else true
  | .terminator db, .statement rb _ => if db = rb then false else true
  | _, _ => true

def slotShapeQualifies (mir : MirFunction) (slot : SlotId) (uses : SlotUses)
    (borrowed : List SlotId) : Bool :=
  slot ≠ 0
    && !mir.paramSlots.contains slot
    && mir.bindingSlots.contains slot
    && (match mir.localTypes[slot]? with
      | some .copy => false
      | none => false
      | _ => true)
    && !borrowed.contains slot
    && uses.defs == 1 && uses.transferableReads.length == 1 && uses.otherUses == 0

def slotLiveAfter (mir : MirFunction) (liveness : LivenessResult) (site : UseSite)
    (slot : SlotId) : Bool :=
  match site with
  | .statement block stmtIdx => liveness.isLiveAfter block stmtIdx slot mir
  | .terminator block => slot ∈ liveness.liveOut block

/-- The source name of a slot when it names exactly one user binding. -/
def uniqueBindingName (mir : MirFunction) (slot : SlotId) : Option String :=
  match mir.localNames[slot]? with
  | none => none
  | some name =>
      if "__mir_".isPrefixOf name then none
      else
        let occurrences := mir.localNames.zipIdx.countP fun (n, idx) =>
          n == name && mir.bindingSlots.contains idx
        if occurrences = 1 then some name else none

/-- The tests one slot has to pass, after its shape; the name it contributes. -/
def planSlot (fuel : Nat) (mir : MirFunction) (liveness : LivenessResult) (borrowed : List SlotId)
    (idom : BasicBlockId → Option BasicBlockId)
    (pdom : BasicBlockId → Option (Finset BasicBlockId)) (slot : SlotId) : Option (Option String) :=
  let uses := censusSlotUses mir slot
  if !slotShapeQualifies mir slot uses borrowed then some none
  else match uses.transferableReads, uses.defSite with
    | read :: _, some defSite => do
        let dom ← dominates idom (blockOf defSite) fuel (blockOf read)
        if !dom || !precedesWithinBlock defSite read then some none
        else if !postDominates pdom (blockOf read) (blockOf defSite) then some none
        else if slotLiveAfter mir liveness read slot then some none
        else some (uniqueBindingName mir slot)
    | _, _ => some none

structure RcElisionPlan where
  terminalMoveBindings : List String
  deriving DecidableEq, Repr

/-- Keep the ids the search from the entry finds. -/
def keepReachable (fuel : Nat) (cfg : ControlFlowGraph) : List BasicBlockId →
    Option (List BasicBlockId)
  | [] => some []
  | id :: rest => do
      let found ← cfg.isReachable fuel id
      let kept ← keepReachable fuel cfg rest
      some (if found then id :: kept else kept)

def returnBlocks (fuel : Nat) (mir : MirFunction) (cfg : ControlFlowGraph) :
    Option (List BasicBlockId) :=
  keepReachable fuel cfg ((mir.blocks.filter fun b => b.terminator.kind = .ret).map (·.id))

def planSlots (plan : SlotId → Option (Option String)) : List SlotId → Option (List String)
  | [] => some []
  | slot :: rest => do
      let name ← plan slot
      let names ← planSlots plan rest
      some (name.toList ++ names)

/-- The plan of a function. The source runs through the census entries; a slot that qualifies is a
binding slot, so running through those gives the same set of names. -/
def computePlan (fuel : Nat) (mir : MirFunction) (cfg : ControlFlowGraph)
    (liveness : LivenessResult) (loans : List LoanInfo) : Option RcElisionPlan := do
  let exits ← returnBlocks fuel mir cfg
  if exits.isEmpty then some ⟨[]⟩
  else do
    let borrowed := loans.map (·.borrowedPlace.rootLocal)
    let idom ← cfg.dominators fuel
    let pdom ← postDominators fuel cfg mir exits
    let names ← planSlots (planSlot fuel mir liveness borrowed idom pdom) mir.bindingSlots
    some ⟨names⟩

/-! ## What a planned slot has passed -/

/-- The facts behind a name in the plan. -/
structure Planned (fuel : Nat) (mir : MirFunction) (cfg : ControlFlowGraph)
    (liveness : LivenessResult) (slot : SlotId) (defSite read : UseSite) : Prop where
  defs : sitesOf mir (.defn slot) = [defSite]
  reads : sitesOf mir (.transferable slot) = [read]
  others : sitesOf mir (.other slot) = []
  precedes : precedesWithinBlock defSite read = true
  dead : slotLiveAfter mir liveness read slot = false
  postDominated : ∃ exits pdom, returnBlocks fuel mir cfg = some exits ∧
    postDominators fuel cfg mir exits = some pdom ∧
    postDominates pdom (blockOf read) (blockOf defSite) = true

variable {name : String}

theorem mem_planSlots {plan : SlotId → Option (Option String)} {slots : List SlotId} {names : List String}
    (h : planSlots plan slots = some names) (hname : name ∈ names) :
    ∃ slot ∈ slots, plan slot = some (some name) := by
  induction slots generalizing names with
  | nil =>
    obtain rfl : [] = names := by simpa [planSlots] using h
    exact absurd hname List.not_mem_nil
  | cons slot slots ih =>
    rw [planSlots] at h
    obtain ⟨hit, hplan, h⟩ := Option.bind_eq_some_iff.mp h
    obtain ⟨rest, hrest, h⟩ := Option.bind_eq_some_iff.mp h
    obtain rfl : hit.toList ++ rest = names := by simpa using h
    rcases List.mem_append.mp hname with hmem | hmem
    · exact ⟨slot, List.mem_cons_self, by rw [hplan, Option.mem_toList.mp hmem]⟩
    · obtain ⟨s, hs, hp⟩ := ih hrest hmem
      exact ⟨s, List.mem_cons_of_mem _ hs, hp⟩

variable {cfg : ControlFlowGraph} {liveness : LivenessResult}

theorem planned_of_planSlot {fuel : Nat} {mir : MirFunction} {borrowed : List SlotId}
    {idom : BasicBlockId → Option BasicBlockId} {exits : List BasicBlockId}
    {pdom : BasicBlockId → Option (Finset BasicBlockId)} {slot : SlotId}
    (hexits : returnBlocks fuel mir cfg = some exits)
    (hpdom : postDominators fuel cfg mir exits = some pdom)
    (h : planSlot fuel mir liveness borrowed idom pdom slot = some (some name)) :
    uniqueBindingName mir slot = some name ∧
      ∃ defSite read, Planned fuel mir cfg liveness slot defSite read := by
  rw [planSlot] at h
  -- the five tests of the plan, in the order of the code
  split at h
  · simp at h
  rename_i hshape
  split at h
  · rename_i read rest defSite hread hdef
    obtain ⟨dom, -, h⟩ := Option.bind_eq_some_iff.mp h
    split at h
    · simp at h
    rename_i hprec
    split at h
    · simp at h
    rename_i hpost
    split at h
    · simp at h
    rename_i hdead
    simp only [slotShapeQualifies, censusSlotUses, Bool.not_eq_true', Bool.not_eq_false,
      Bool.and_eq_true, beq_iff_eq] at hshape
    obtain ⟨⟨⟨-, hdefs⟩, hreads⟩, hothers⟩ := hshape
    simp only [censusSlotUses] at hread hdef
    refine ⟨by simpa using h, defSite, read, ?_, ?_, ?_, ?_, ?_, exits, pdom, hexits, hpdom, ?_⟩
    · obtain ⟨d, hd⟩ := List.length_eq_one_iff.mp hdefs
      rw [hd] at hdef ⊢
      rw [show d = defSite from by simpa using hdef]
    · rw [hread] at hreads ⊢
      obtain rfl : rest = [] := by simpa using hreads
      rfl
    · exact List.eq_nil_of_length_eq_zero hothers
    · simp only [Bool.or_eq_true, Bool.not_eq_true', not_or, Bool.not_eq_false] at hprec
      exact hprec.2
    · simpa using hdead
    · simpa using hpost
  · simp at h

/-- Every name in the plan stands for a planned slot. -/
theorem planned_of_mem_computePlan {fuel : Nat} {mir : MirFunction} {loans : List LoanInfo}
    {plan : RcElisionPlan} (h : computePlan fuel mir cfg liveness loans = some plan)
    (hname : name ∈ plan.terminalMoveBindings) :
    ∃ slot ∈ mir.bindingSlots, uniqueBindingName mir slot = some name ∧
      ∃ defSite read, Planned fuel mir cfg liveness slot defSite read := by
  obtain ⟨exits, hexits, h⟩ := Option.bind_eq_some_iff.mp h
  split at h
  · obtain rfl : (⟨[]⟩ : RcElisionPlan) = plan := by simpa using h
    exact absurd hname List.not_mem_nil
  · obtain ⟨idom, -, h⟩ := Option.bind_eq_some_iff.mp h
    obtain ⟨pdom, hpdom, h⟩ := Option.bind_eq_some_iff.mp h
    obtain ⟨names, hnames, h⟩ := Option.bind_eq_some_iff.mp h
    obtain rfl : (⟨names⟩ : RcElisionPlan) = plan := by simpa using h
    obtain ⟨slot, hslot, hplan⟩ := mem_planSlots hnames hname
    exact ⟨slot, hslot, planned_of_planSlot hexits hpdom hplan⟩

end ShapeLang.Mir
