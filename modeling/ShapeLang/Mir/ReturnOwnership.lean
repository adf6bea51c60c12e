import ShapeLang.Lib.Worklist
import ShapeLang.Mir.Hidden

/-!
# ShapeLang — return-ownership inference

`infer_return_ownership_mode` (`crates/shape-vm/src/mir/return_ownership.rs`) classifies what a
function returns, so that a caller can take a newly owned value over without sharing it. It follows
the definitions of the return slot backwards through locals: a literal, an operator or a clone is
newly owned, a parameter is borrowed, and what flows from a local is classified by the definitions
of the local.

Only definitions are looked at. What else is done with the value, into which containers, bindings
and closures it goes, does not matter to the inference; neither does what a projection finds in an
aggregate, what a clone or a payload shares, and a call that puts its result into the return slot
itself.

  * `traceLocalDefiningMode_owned` — the verdict `NewlyOwned` of a local says so of every definition
    that the trace comes across;
  * `OwnsTraced.step` — in a careful step, the objects in the traced slots stay new and unshared;
  * `newlyOwned_sound` — so what is returned is new and unshared.
-/

namespace ShapeLang.Mir

open ObjectGraph

/-! ## The inference -/

inductive ReturnOwnershipMode where
  | newlyOwned
  | borrowedFromParam (index : Nat)
  | shared
  | static
  | unknown
  deriving DecidableEq, Repr

/-- Return modes of other functions, by name. -/
abbrev CalleeModes := String → Option ReturnOwnershipMode

namespace ReturnOwnershipMode

def meet (a b : ReturnOwnershipMode) : ReturnOwnershipMode := if a = b then a else .unknown

/-- `combined = Some(match combined { None => mode, Some(existing) => existing.meet(mode) })`. -/
def combine (combined : Option ReturnOwnershipMode) (mode : ReturnOwnershipMode) :
    Option ReturnOwnershipMode :=
  some (match combined with
    | none => mode
    | some existing => existing.meet mode)

end ReturnOwnershipMode

def classifyConstant : MirConstant → ReturnOwnershipMode
  | .str _ | .stringId _ | .function _ | .method _ => .static
  | .int _ | .bool _ | .float _ | .char _ | .none | .decimal _ => .newlyOwned
  | .closurePlaceholder => .unknown

section

variable (mir : MirFunction) (calleeModes : CalleeModes)

/-- The blocks that the entry reaches. -/
def reachableBlocks : List BasicBlockId :=
  Worklist.collect (mir.blocks.flatMap fun block =>
      (terminatorSuccessors block.terminator.kind).map (block.id, ·)) (fun _ => false)
    (if mir.blocks.isEmpty then [] else [mir.entryBlock])

def classifyBorrowRvalue (place : Place) : ReturnOwnershipMode :=
  match mir.paramSlots.findIdx? (· == place.rootLocal) with
  | some index => .borrowedFromParam index
  | none => .unknown

/-- A place is classified by its root: a parameter, or a local whose definitions are traced. -/
def classifyPlace (trace : SlotId → ReturnOwnershipMode × List SlotId) (place : Place)
    (visited : List SlotId) :
    ReturnOwnershipMode × List SlotId :=
  match mir.paramSlots.findIdx? (· == place.rootLocal) with
  | some index => (.borrowedFromParam index, visited)
  | none => trace place.rootLocal

def classifyDefiningRvalue (trace : SlotId → List SlotId → ReturnOwnershipMode × List SlotId)
    (rvalue : Rvalue) (visited : List SlotId) : ReturnOwnershipMode × List SlotId :=
  match rvalue with
  | .borrow _ place => (classifyBorrowRvalue mir place, visited)
  | .use (.constant c) => (classifyConstant c, visited)
  | .use (.copy place) | .use (.move place) | .use (.moveExplicit place) =>
      classifyPlace mir (trace · visited) place visited
  | .aggregate _ | .clone _ | .binaryOp _ _ _ | .fuzzyComparison _ _ | .unaryOp _ _ | .enumTest _ _
  | .enumPayload _ _ | .typePatternTest _ | .enumDiscriminantTest _ _ _ | .primitiveCast _
      _ | .formatValue _ =>
      (.newlyOwned, visited)

/-- The mode of a call: what the callee's summary says. -/
def calledMode (func : Operand) : ReturnOwnershipMode :=
  match func with
  | .constant (.function name) => (calleeModes name).getD .unknown
  | _ => .unknown

/-- The definitions of `slot` in one block: its assignments, and a call into it. -/
def traceBlock (trace : SlotId → List SlotId → ReturnOwnershipMode × List SlotId) (slot : SlotId)
    (st : Option ReturnOwnershipMode × List SlotId) (block : BasicBlock) :
    Option ReturnOwnershipMode × List SlotId :=
  let st := block.statements.foldl (fun st stmt =>
    match stmt.kind with
    | .assign (.localSlot dest) rvalue =>
        if dest ≠ slot then st
        else
          let classified := classifyDefiningRvalue mir trace rvalue st.2
          (ReturnOwnershipMode.combine st.1 classified.1, classified.2)
    | _ => st) st
  match block.terminator.kind with
  | .call func _ destination _ =>
      if destination.rootLocal = slot then
        (ReturnOwnershipMode.combine st.1 (calledMode calleeModes func), st.2)
      else st
  | _ => st

/-- Every definition of the slot, met. A slot that was visited before is unknown. Each nested trace
visits the root of an operand, so one more turn than there are statements is enough. -/
def traceLocalDefiningMode : Nat → SlotId → List SlotId → ReturnOwnershipMode × List SlotId
  | 0, _, visited => (.unknown, visited)
  | fuel + 1, slot, visited =>
      if slot ∈ visited then (.unknown, visited)
      else
        let st := mir.blocks.foldl (traceBlock mir calleeModes (traceLocalDefiningMode fuel) slot)
          (none, slot :: visited)
        (st.1.getD .unknown, st.2)

/-- At the return slot: nothing is visited yet. -/
def classifyRvalue (rvalue : Rvalue) : ReturnOwnershipMode :=
  (classifyDefiningRvalue mir
    (traceLocalDefiningMode mir calleeModes (mir.allStatements.length + 1)) rvalue []).1

def inferReturnOwnershipMode : ReturnOwnershipMode :=
  let combined := mir.blocks.foldl (fun combined block =>
    if block.id ∉ reachableBlocks mir then combined
    else block.statements.foldl (fun combined stmt =>
      match stmt.kind with
      | .assign (.localSlot dest) rvalue =>
          if dest ≠ 0 then combined
          else ReturnOwnershipMode.combine combined (classifyRvalue mir calleeModes rvalue)
      | _ => combined) combined) none
  combined.getD .unknown

end

/-! ## What the verdict says of the definitions -/

/-- A property of the end of a loop that each turn passes back, with a fact about its element. -/
theorem foldl_reflects {α β : Type*} {P : β → Prop} {Q : α → Prop} {f : β → α → β} {l : List α}
    (hstep : ∀ b, ∀ a ∈ l, P (f b a) → P b ∧ Q a) {b : β} (h : P (l.foldl f b)) : P b ∧ ∀ a ∈ l, Q a := by
  induction l generalizing b with
  | nil => exact ⟨h, fun a ha => absurd ha List.not_mem_nil⟩
  | cons a l ih =>
    obtain ⟨hfirst, hrest⟩ := ih (fun b a' ha' => hstep b a' (List.mem_cons_of_mem _ ha')) h
    obtain ⟨hb, ha⟩ := hstep b a List.mem_cons_self hfirst
    refine ⟨hb, fun a' ha' => ?_⟩
    rcases List.mem_cons.mp ha' with rfl | ha'
    · exact ha
    · exact hrest a' ha'

/-- Nothing but `NewlyOwned` has been met so far. -/
def OnlyOwned (combined : Option ReturnOwnershipMode) : Prop := ∀ mode ∈ combined, mode = .newlyOwned

variable {combined : Option ReturnOwnershipMode}

theorem onlyOwned_of_getD (h : combined.getD .unknown = .newlyOwned) :
    OnlyOwned combined := by
  intro mode hmode
  cases hmode
  exact h

theorem onlyOwned_combine {mode : ReturnOwnershipMode}
    (h : OnlyOwned (ReturnOwnershipMode.combine combined mode)) :
    OnlyOwned combined ∧ mode = .newlyOwned := by
  have hmet := h _ rfl
  cases combined with
  | none => exact ⟨fun m hm => (by cases hm), hmet⟩
  | some existing =>
    change existing.meet mode = .newlyOwned at hmet
    unfold ReturnOwnershipMode.meet at hmet
    split at hmet
    · rename_i hsame
      refine ⟨fun m hm => ?_, hsame ▸ hmet⟩
      cases hm
      exact hmet
    · cases hmet

section

variable {mir : MirFunction} {calleeModes : CalleeModes}

/-- A definition that is taken for newly owned: no borrow, and no use of a parameter. -/
def Rvalue.Accepted (mir : MirFunction) : Rvalue → Prop
  | .borrow _ _ => False
  | .use op => ∀ place, op.place? = some place → place.rootLocal ∉ mir.paramSlots
  | _ => True

/-- A statement defines the local `d` by a use of a place of the local `s`. -/
def Source (mir : MirFunction) (d s : SlotId) : Prop :=
  ∃ stmt ∈ mir.allStatements, ∃ op place, stmt.kind = .assign (.localSlot d) (.use op) ∧
    op.place? = some place ∧ place.rootLocal = s

/-- Every definition that the trace of the slot comes across is accepted. -/
def TraceAccepted (mir : MirFunction) (slot : SlotId) : Prop :=
  ∀ s, Relation.ReflTransGen (Source mir) slot s → ∀ stmt ∈ mir.allStatements, ∀ rv,
    stmt.kind = .assign (.localSlot s) rv → rv.Accepted mir

variable {visited : List SlotId}

theorem classifyPlace_owned {trace : SlotId → ReturnOwnershipMode × List SlotId} {place : Place}
    (h : (classifyPlace mir trace place visited).1 = .newlyOwned) :
    place.rootLocal ∉ mir.paramSlots ∧ (trace place.rootLocal).1 = .newlyOwned := by
  unfold classifyPlace at h
  split at h
  · cases h
  · rename_i hnone
    refine ⟨fun hmem => ?_, h⟩
    have hnot := List.findIdx?_eq_none_iff.mp hnone _ hmem
    simp at hnot

variable {trace : SlotId → List SlotId → ReturnOwnershipMode × List SlotId} {rv : Rvalue}

/-- The verdict of an rvalue: it is accepted, and what it uses has the verdict. -/
theorem classifyDefiningRvalue_owned (h : (classifyDefiningRvalue mir trace rv visited).1 = .newlyOwned) :
    rv.Accepted mir ∧ ∀ op place, rv = .use op → op.place? = some place →
      (trace place.rootLocal visited).1 = .newlyOwned := by
  cases rv with
  | use op =>
    cases op with
    | constant c =>
      refine ⟨fun place hplace => (by cases hplace), fun op place hop hplace => ?_⟩
      cases hop
      cases hplace
    | copy p | move p | moveExplicit p =>
      obtain ⟨hparam, htrace⟩ := classifyPlace_owned h
      refine ⟨fun place hplace => ?_, fun op place hop hplace => ?_⟩
      · obtain rfl := Option.some.inj hplace
        exact hparam
      · cases hop
        obtain rfl := Option.some.inj hplace
        exact htrace
  | borrow kind place =>
    simp only [classifyDefiningRvalue, classifyBorrowRvalue] at h
    split at h <;> cases h
  | _ => exact ⟨trivial, fun op place hop => by cases hop⟩

variable {block : BasicBlock}

/-- The definitions in a block that was met with nothing but `NewlyOwned`. -/
theorem traceBlock_owned {slot : SlotId} {st : Option ReturnOwnershipMode × List SlotId}
    (h : OnlyOwned (traceBlock mir calleeModes trace slot st block).1) :
    OnlyOwned st.1 ∧ ∀ stmt ∈ block.statements, ∀ rv, stmt.kind = .assign (.localSlot slot) rv →
      ∃ visited, (classifyDefiningRvalue mir trace rv visited).1 = .newlyOwned := by
  -- the call comes last
  have hstmts : OnlyOwned
      (block.statements.foldl (fun (st : Option ReturnOwnershipMode × List SlotId) stmt =>
      match stmt.kind with
      | .assign (.localSlot dest) rvalue =>
          if dest ≠ slot then st
          else
            let classified := classifyDefiningRvalue mir trace rvalue st.2
            (ReturnOwnershipMode.combine st.1 classified.1, classified.2)
      | _ => st) st).1 := by
    unfold traceBlock at h
    dsimp only at h
    split at h
    · split at h
      · exact (onlyOwned_combine h).1
      · exact h
    · exact h
  refine foldl_reflects (P := fun st : Option ReturnOwnershipMode × List SlotId => OnlyOwned st.1)
    (fun st stmt _ hst => ?_) hstmts
  dsimp only at hst
  split at hst
  · rename_i dest rvalue hkind
    split at hst
    · rename_i hne
      refine ⟨hst, fun rv hassign => ?_⟩
      cases hkind.symm.trans hassign
      exact absurd rfl hne
    · obtain ⟨hbefore, hmode⟩ := onlyOwned_combine hst
      refine ⟨hbefore, fun rv hassign => ?_⟩
      cases hkind.symm.trans hassign
      exact ⟨_, hmode⟩
  · rename_i hother
    exact ⟨hst, fun rv hassign => absurd hassign (hother _ _)⟩

/-- The verdict of a local says so of every definition that its trace comes across. -/
theorem traceLocalDefiningMode_owned (fuel : Nat) (slot : SlotId) (visited : List SlotId)
    (h : (traceLocalDefiningMode mir calleeModes fuel slot visited).1 = .newlyOwned) :
    TraceAccepted mir slot := by
  induction fuel generalizing slot visited with
  | zero => cases h
  | succ fuel ih =>
    unfold traceLocalDefiningMode at h
    split at h
    · cases h
    · obtain ⟨-, hblocks⟩ :=
        foldl_reflects (P := fun st : Option ReturnOwnershipMode × List SlotId => OnlyOwned st.1)
        (fun st block _ hst => traceBlock_owned hst) (onlyOwned_of_getD h)
      have hdef : ∀ stmt ∈ mir.allStatements, ∀ rv, stmt.kind = .assign (.localSlot slot) rv →
          ∃ visited, (classifyDefiningRvalue mir (traceLocalDefiningMode mir calleeModes fuel) rv visited).1
            = .newlyOwned := by
        intro stmt hmem
        obtain ⟨block, hblock, hin⟩ := List.mem_flatMap.mp hmem
        exact hblocks block hblock stmt hin
      intro s hpath
      rcases Relation.ReflTransGen.cases_head hpath with rfl | ⟨t, hsource, hrest⟩
      · intro stmt hmem rv hkind
        obtain ⟨visited, howned⟩ := hdef stmt hmem rv hkind
        exact (classifyDefiningRvalue_owned howned).1
      · -- the source of a definition is traced with the fuel that is left
        obtain ⟨stmt, hmem, op, place, hkind, hplace, rfl⟩ := hsource
        obtain ⟨visited, howned⟩ := hdef stmt hmem _ hkind
        exact ih place.rootLocal visited
          ((classifyDefiningRvalue_owned howned).2 op place rfl hplace) s hrest

/-! ## Traced slots -/

/-- A definition of the return slot that can be executed uses a place of the local `s`. -/
def ReturnSource (mir : MirFunction) (s : SlotId) : Prop :=
  ∃ block ∈ mir.blocks, block.id ∈ reachableBlocks mir ∧ ∃ stmt ∈ block.statements, ∃ op place,
    stmt.kind = .assign (.localSlot 0) (.use op) ∧ op.place? = some place ∧ place.rootLocal = s

/-- The return slot and the locals that the inference traces. -/
def TracedSlot (mir : MirFunction) (s : SlotId) : Prop :=
  s = 0 ∨ ∃ r, ReturnSource mir r ∧ Relation.ReflTransGen (Source mir) r s

variable {stmt : MirStatement}

/-- What the verdict says of a definition of the return slot. -/
theorem inferReturnOwnershipMode_owned (h : inferReturnOwnershipMode mir calleeModes = .newlyOwned)
    (hblock : block ∈ mir.blocks) (hreach : block.id ∈ reachableBlocks mir) (hmem : stmt ∈ block.statements)
    (hkind : stmt.kind = .assign (.localSlot 0) rv) : classifyRvalue mir calleeModes rv = .newlyOwned := by
  unfold inferReturnOwnershipMode at h
  refine (foldl_reflects (P := OnlyOwned) (Q := fun block => block.id ∈ reachableBlocks mir →
      ∀ stmt ∈ block.statements, ∀ rv, stmt.kind = .assign (.localSlot 0) rv →
        classifyRvalue mir calleeModes rv = .newlyOwned) (fun combined block _ hcombined => ?_)
    (onlyOwned_of_getD h)).2 block hblock hreach stmt hmem rv hkind
  -- a block that is not reachable is passed over
  split at hcombined
  · rename_i hnot
    exact ⟨hcombined, fun hreach => absurd hreach hnot⟩
  · refine (foldl_reflects (P := OnlyOwned) (fun combined stmt _ hcombined => ?_)
      hcombined).imp_right fun h _ => h
    split at hcombined
    · rename_i dest rvalue hassign
      split at hcombined
      · rename_i hne
        refine ⟨hcombined, fun rv hassign' => ?_⟩
        cases hassign.symm.trans hassign'
        exact absurd rfl hne
      -- every mode that is combined is the owned one, if the combination is
      · obtain ⟨hbefore, hmode⟩ := onlyOwned_combine hcombined
        refine ⟨hbefore, fun rv hassign' => ?_⟩
        cases hassign.symm.trans hassign'
        exact hmode
    · rename_i hother
      exact ⟨hcombined, fun rv hassign' => absurd hassign' (hother _ _)⟩

/-- A definition of a traced slot that can be executed is accepted, and what it uses is traced too. -/
theorem accepted_of_tracedSlot (h : inferReturnOwnershipMode mir calleeModes = .newlyOwned) {d : SlotId}
    (hd : TracedSlot mir d) (hblock : block ∈ mir.blocks) (hreach : block.id ∈ reachableBlocks mir)
    (hmem : stmt ∈ block.statements) (hkind : stmt.kind = .assign (.localSlot d) rv) :
    rv.Accepted mir ∧ ∀ op place, rv = .use op → op.place? = some place →
      TracedSlot mir place.rootLocal := by
  have hall : stmt ∈ mir.allStatements := List.mem_flatMap.mpr ⟨block, hblock, hmem⟩
  rcases hd with rfl | ⟨r, ⟨block', hblock', hreach', stmt', hmem', op', place', hkind', hplace',
    rfl⟩, hpath⟩
  · refine ⟨(classifyDefiningRvalue_owned (inferReturnOwnershipMode_owned h hblock hreach hmem hkind)).1,
      fun op place hop hplace => ?_⟩
    subst hop
    exact Or.inr ⟨_, ⟨block, hblock, hreach, stmt, hmem, op, place, hkind, hplace, rfl⟩, .refl⟩
  · have howned :=
      (classifyDefiningRvalue_owned
      (inferReturnOwnershipMode_owned h hblock' hreach' hmem' hkind')).2
      op' place' rfl hplace'
    refine ⟨traceLocalDefiningMode_owned _ _ _ howned d hpath stmt hall rv hkind,
      fun op place hop hplace => ?_⟩
    subst hop
    exact Or.inr ⟨_, ⟨block', hblock', hreach', stmt', hmem', op', place', hkind', hplace', rfl⟩,
      hpath.tail ⟨stmt, hall, op, place, hkind, hplace, rfl⟩⟩

/-- No parameter is traced. -/
theorem not_param_of_tracedSlot (h : inferReturnOwnershipMode mir calleeModes = .newlyOwned)
    (hret : 0 ∉ mir.paramSlots) {d : SlotId} (hd : TracedSlot mir d) : d ∉ mir.paramSlots := by
  rcases hd with rfl | ⟨r, ⟨block, hblock, hreach, stmt, hmem, op, place, hkind, hplace, rfl⟩, hpath⟩
  · exact hret
  · have howned := classifyDefiningRvalue_owned (inferReturnOwnershipMode_owned h hblock hreach hmem hkind)
    rcases Relation.ReflTransGen.cases_tail hpath
      with rfl | ⟨t, hrt, stmt', hmem', op', place', hkind', hplace', rfl⟩
    · exact howned.1 place hplace
    · have haccepted := traceLocalDefiningMode_owned _ _ _ (howned.2 op place rfl hplace) t hrt
          stmt' hmem' _ hkind'
      exact haccepted place' hplace'

end

/-! ## Executions -/

/-- What a returned value must not be reached from: parameters and captured variables, what closures
hold, and the objects of the caller, those from before `start`. -/
def ownedElsewhere (mir : MirFunction) (start : ObjId) : Outside :=
  ⟨fun s => s ∈ mir.paramSlots ∨ s ∈ (collectClosureCaptures mir).1, (· < start), True⟩

/-- The value is a part of an object or a share of one. -/
def Rvalue.takesShare : Rvalue → Bool
  | .use op =>
      match op.place? with
      | some (.localSlot _) => false
      | some _ => true
      | none => false
  | .clone _ => true
  | .enumPayload _ _ => true
  | _ => false

/-- The local that a statement defines by name. -/
def StatementKind.definesSlot : StatementKind → Option SlotId
  | .assign (.localSlot d) _ => some d
  | .closureCapture s _ | .arrayStore s _ | .objectStore s _ | .enumStore s _ => some s
  | _ => none

/-- The terminator under the cursor calls into the local. -/
def CallsInto (mir : MirFunction) (c : Cursor) (d : SlotId) : Prop :=
  ∃ blk func args next, mir.block? c.block = some blk ∧ c.idx = blk.statements.length ∧
    blk.terminator.kind = .call func args (.localSlot d) next

/-- A step that does with the traced slots and what is in them only what the inference knows about. -/
structure OwnedStep (mir : MirFunction) (start : ObjId) (x y : Config) : Prop where
  step : HeapStep mir x y
  /-- What is in a traced slot goes into containers and locals that are not owned elsewhere, if anywhere. -/
  guarded : ∀ d o, TracedSlot mir d → x.heap.slot d = some o →
    Guarded (ownedElsewhere mir start) mir o x y ∧ GuardedLocal (ownedElsewhere mir start) mir o x
  /-- A part or a share that goes into a traced slot is new and unshared. -/
  share : ∀ stmt d rv o, stmtAt mir x.cursor = some stmt → stmt.kind = .assign (.localSlot d) rv →
    TracedSlot mir d →
    rv.takesShare = true → Rhs x.heap rv x.heap (some o) → Hidden (ownedElsewhere mir start) x.heap o
  /-- A call into a traced slot returns what is new and unshared. -/
  call : ∀ d o, TracedSlot mir d → CallsInto mir x.cursor d → y.heap.slot d = some o →
    Hidden (ownedElsewhere mir start) y.heap o
  /-- A traced slot that is defined is not captured by a closure. -/
  uncaptured : ∀ stmt d, stmtAt mir x.cursor = some stmt → stmt.kind.definesSlot = some d →
    TracedSlot mir d →
    d ∉ (collectClosureCaptures mir).1
  /-- A traced slot is changed by name only, not through a reference or by a closure. -/
  named : ∀ d, TracedSlot mir d → y.heap.slot d ≠ x.heap.slot d →
    (∃ stmt, stmtAt mir x.cursor = some stmt ∧ stmt.kind.definesSlot = some d) ∨ CallsInto mir x.cursor d

/-- The objects in the traced slots are new and unshared. -/
structure OwnsTraced (mir : MirFunction) (start : ObjId) (x : Config) : Prop where
  reachable : ∀ blk, mir.block? x.cursor.block = some blk → blk.id ∈ reachableBlocks mir
  wf : x.heap.Wf
  start_le : start ≤ x.heap.next
  hidden : ∀ d o, TracedSlot mir d → x.heap.slot d = some o → Hidden (ownedElsewhere mir start) x.heap o

section

variable {mir : MirFunction} {calleeModes : CalleeModes} {start : ObjId}

theorem mem_reachableBlocks_of_jump {b t : BasicBlockId} {blk : BasicBlock} (hb : mir.block? b = some blk)
    (hreach : blk.id ∈ reachableBlocks mir) (ht : t ∈ terminatorSuccessors blk.terminator.kind) :
    t ∈ reachableBlocks mir := by
  refine Worklist.mem_collect_of_edge hreach rfl (List.mem_flatMap.mpr ⟨blk, MirFunction.block?_mem hb, ?_⟩)
  exact List.mem_map.mpr ⟨t, ht, rfl⟩

theorem reachable_step {x y : Config} (hs : HeapStep mir x y)
    (h : ∀ blk, mir.block? x.cursor.block = some blk → blk.id ∈ reachableBlocks mir) :
    ∀ blk, mir.block? y.cursor.block = some blk → blk.id ∈ reachableBlocks mir := by
  cases hs with
  | statement _ _ => exact h
  | jump hb _ ht =>
    intro blk hblk
    rw [MirFunction.id_of_block? hblk]
    exact mem_reachableBlocks_of_jump hb (h _ hb) ht
  | call hb hterm _ =>
    intro blk hblk
    rw [MirFunction.id_of_block? hblk]
    exact mem_reachableBlocks_of_jump hb (h _ hb) (by rw [hterm]; exact List.mem_singleton_self _)

variable {σ : Heap} {rv : Rvalue} {o : ObjId}

/-- An object that an rvalue yields without making it. -/
theorem Rhs.of_next_eq {σ₁ : Heap} {v : Option ObjId} (hrv : Rhs σ rv σ₁ v) (hv : v = some o)
    (hsame : σ₁.next = σ.next) :
    (∃ op, rv = .use op ∧ Evals σ op (some o)) ∨ (∃ kind place, rv = .borrow kind place) ∨
      rv.takesShare = true := by
  cases hrv with
  | use h => exact Or.inl ⟨_, rfl, hv ▸ h⟩
  | borrow h => exact Or.inr (Or.inl ⟨_, _, rfl⟩)
  | cloneShare h => exact Or.inr (Or.inr rfl)
  | payload k h hdata => exact Or.inr (Or.inr rfl)
  | immediate h => cases hv
  | aggregate h hc => exact absurd hsame (Nat.succ_ne_self _)
  | cloneCopy h hdata => exact absurd hsame (Nat.succ_ne_self _)
  | operator h hc => exact absurd hsame (Nat.succ_ne_self _)

theorem Evals.whole {op : Operand} (h : Evals σ op (some o)) (hwhole : (Rvalue.use op).takesShare = false) :
    ∃ s, op.place? = some (.localSlot s) ∧ σ.slot s = some o := by
  cases h with
  | place hp hread =>
    simp only [Rvalue.takesShare, hp] at hwhole
    generalize hv : some o = v at hread
    cases hread with
    | localSlot s => exact ⟨s, hp, rfl⟩
    | field _ _ => cases hwhole
    | index _ _ _ => cases hwhole
    | deref _ => cases hwhole

/-- What an accepted definition yields: something new, the content of a traced slot, or a part or a
share. -/
theorem Rhs.hidden {σ₁ : Heap} (hwf : σ.Wf) (hstart : start ≤ σ.next) (hrv : Rhs σ rv σ₁ (some o))
    (haccepted : rv.Accepted mir)
    (htraced : ∀ op place, rv = .use op → op.place? = some place → TracedSlot mir place.rootLocal)
    (hslot : ∀ d o, TracedSlot mir d → σ.slot d = some o → Hidden (ownedElsewhere mir start) σ o)
    (hshare : rv.takesShare = true → Rhs σ rv σ (some o) → Hidden (ownedElsewhere mir start) σ o) :
    Hidden (ownedElsewhere mir start) σ₁ o := by
  rcases hrv.cases with ⟨rfl, -⟩ | ⟨contents, rfl, hnew, hfrom⟩
  · by_cases hpart : rv.takesShare = true
    · exact hshare hpart hrv
    · rcases hrv.of_next_eq rfl rfl with ⟨op, rfl, hev⟩ | ⟨kind, place, rfl⟩ | hpart'
      · obtain ⟨s, hplace, hs⟩ := hev.whole (Bool.eq_false_iff.mpr hpart)
        exact hslot s o (htraced op _ rfl hplace) hs
      · exact haccepted.elim
      · exact absurd hpart' hpart
  · rw [Option.some.inj hnew]
    exact hidden_alloc hwf (fun r hr => Nat.lt_of_lt_of_le hr hstart) fun k b hb => hwf.fromSlots
      (hfrom k b hb)

variable {d : SlotId}

/-- A new object with the operands, put into a slot that is not owned elsewhere. -/
theorem hidden_allocated {ops : List Operand} {vs : List (Option ObjId)} {contents : Contents}
    {made : Option SlotId} (hwf : σ.Wf) (hstart : start ≤ σ.next) (hops : EvalsAll σ ops vs)
    (hc : Holds contents vs) (hd : ¬ (ownedElsewhere mir start).slot d) :
    Hidden (ownedElsewhere mir start) ((σ.alloc contents made).setSlot d (some σ.next)) σ.next :=
  (hidden_alloc hwf (fun _ hr => Nat.lt_of_lt_of_le hr hstart) fun k b hb => hwf.evalsAll hops
    (hc.1 k b hb)).setSlot
    fun _ _ _ => hd

theorem definesSlot_of_containerStore {kind : StatementKind} {s : SlotId} {ops : List Operand}
    (h : kind.containerStore = some (s, ops)) : kind.definesSlot = some s := by
  cases kind <;> cases h <;> rfl

variable {stmt : MirStatement}

/-- A statement that defines a traced slot by name leaves there what is new and unshared. -/
theorem OwnsTraced.defined (h : inferReturnOwnershipMode mir calleeModes = .newlyOwned)
    (hret : 0 ∉ mir.paramSlots) {c : Cursor} {σ' : Heap} {y : Config}
    (hown : OwnsTraced mir start ⟨c, σ⟩) (hs : OwnedStep mir start ⟨c, σ⟩ y)
    (hstmt : stmtAt mir c = some stmt) (he : Effect σ stmt.kind σ') (hd : TracedSlot mir d)
    (hdef : stmt.kind.definesSlot = some d) (hchanged : σ'.slot d ≠ σ.slot d)
    (ho : σ'.slot d = some o) :
    Hidden (ownedElsewhere mir start) σ' o := by
  obtain ⟨blk, hblk, hin⟩ := stmtAt_mem hstmt
  -- a traced slot is neither a parameter nor captured
  have hnot : ¬ (ownedElsewhere mir start).slot d := by
    rintro (hparam | hcaptured)
    · exact not_param_of_tracedSlot h hret hd hparam
    · exact hs.uncaptured stmt d hstmt hdef hd hcaptured
  generalize hkind : stmt.kind = kind at he hdef
  cases he with
  -- the verdict accepted this definition
  | @assign place rv σ₁ _ v hrv hstores =>
    cases place with
    | localSlot d' =>
      obtain rfl : d' = d := Option.some.inj hdef
      obtain ⟨haccepted, htraced⟩ := accepted_of_tracedSlot h hd (MirFunction.block?_mem hblk)
        (hown.reachable blk hblk) hin hkind
      cases hstores
      obtain rfl : v = some o := by simpa [Heap.setSlot] using ho
      exact (Rhs.hidden hown.wf hown.start_le hrv haccepted htraced hown.hidden fun hpart hsame =>
        hs.share stmt d' rv o hstmt hkind hd hpart hsame).setSlot fun _ _ _ => hnot
    | _ => cases hdef
  | placeholder s => exact absurd rfl hchanged
  | drop p => cases hdef
  | nop => cases hdef
  | keep hkeeps hops => exact absurd rfl hchanged
  -- a new closure or container is nobody's yet
  | @capture s ops vs contents hops hc =>
    obtain rfl : s = d := Option.some.inj hdef
    obtain rfl : σ.next = o := by simpa [Heap.setSlot] using ho
    exact hidden_allocated hown.wf hown.start_le hops hc hnot
  | @storeNew _ s ops vs contents hstore hops hc =>
    obtain rfl : s = d := Option.some.inj ((definesSlot_of_containerStore hstore).symm.trans hdef)
    obtain rfl : σ.next = o := by simpa [Heap.setSlot] using ho
    exact hidden_allocated hown.wf hown.start_le hops hc hnot
  | storeInto hstore hops ha hdata hc => exact absurd rfl hchanged

theorem OwnsTraced.step (h : inferReturnOwnershipMode mir calleeModes = .newlyOwned)
    (hret : 0 ∉ mir.paramSlots) {x y : Config} (hown : OwnsTraced mir start x)
    (hs : OwnedStep mir start x y) : OwnsTraced mir start y := by
  refine ⟨reachable_step hs.step hown.reachable, hown.wf.step hs.step,
    Nat.le_trans hown.start_le hs.step.next_le, fun d o hd ho => ?_⟩
  by_cases hchanged : y.heap.slot d = x.heap.slot d
  · -- what was there stays hidden
    rw [hchanged] at ho
    obtain ⟨hg, hlocal⟩ := hs.guarded d o hd ho
    exact (hown.hidden d o hd ho).step hown.wf (fun r hr => Nat.lt_of_lt_of_le hr hown.start_le)
      (hown.wf.slot d o ho) hg hlocal hs.step
  · rcases hs.named d hd hchanged with ⟨stmt, hstmt, hdef⟩ | hcall
    · have hstep := hs.step
      cases hstep with
      | statement hstmt' he =>
        obtain rfl := Option.some.inj (hstmt.symm.trans hstmt')
        exact hown.defined h hret hs hstmt he hd hdef hchanged ho
      | jump => exact absurd rfl hchanged
      | @call b blk func args dest next σ σ' hb hterm hcall =>
        -- there is no statement behind the last one
        have hnone : stmtAt mir ⟨b, blk.statements.length⟩ = none := by
          rw [stmtAt, MirFunction.statements_of_block? hb]
          exact List.getElem?_eq_none (Nat.le_refl _)
        cases hnone.symm.trans hstmt
    · exact hs.call d o hd hcall ho

/-- A definition of a local that is no parameter and not captured, by something that is not a part
or a share, is always careful. -/
theorem ownedStep_of_assign {c : Cursor} {σ' : Heap} (hstmt : stmtAt mir c = some stmt)
    (hkind : stmt.kind = .assign (.localSlot d) rv) (he : Effect σ stmt.kind σ')
    (hslots : ∀ s, s ≠ d → σ'.slot s = σ.slot s) (hparam : d ∉ mir.paramSlots)
    (hcaptured : d ∉ (collectClosureCaptures mir).1) (hplain : rv.takesShare = false) :
    OwnedStep mir start ⟨c, σ⟩ ⟨⟨c.block, c.idx + 1⟩, σ'⟩ := by
  have hsame : ∀ {stmt'}, stmtAt mir c = some stmt' → stmt'.kind = .assign (.localSlot d) rv := by
    intro stmt' hstmt'
    rw [← Option.some.inj (hstmt.symm.trans hstmt')]
    exact hkind
  -- there is a statement under the cursor, so no call
  have hnocall : ∀ {blk : BasicBlock}, mir.block? c.block = some blk → c.idx ≠ blk.statements.length := by
    intro blk hblk hidx
    rw [stmtAt, MirFunction.statements_of_block? hblk, hidx, List.getElem?_eq_none (Nat.le_refl _)] at hstmt
    cases hstmt
  refine ⟨.statement hstmt he, fun t o _ _ => ⟨⟨?_, ?_, ?_, ?_, ?_⟩, ?_⟩, ?_, ?_, ?_, ?_⟩
  · intro stmt' ops op hstmt' hkeeps
    rw [hsame hstmt'] at hkeeps
    cases hkeeps
  · intro stmt' s ops op hstmt' hstore
    rw [hsame hstmt'] at hstore
    cases hstore
  · intro stmt' s ops op hstmt' hcapture
    cases (hsame hstmt').symm.trans hcapture
  · intro stmt' place rv' hstmt' hassign hplace
    cases (hsame hstmt').symm.trans hassign
    exact absurd rfl (hplace d)
  · intro blk func args dest next op hblk hidx
    exact absurd hidx (hnocall hblk)
  · intro stmt' d' rv' hstmt' hassign _
    cases (hsame hstmt').symm.trans hassign
    exact not_or.mpr ⟨hparam, hcaptured⟩
  · intro stmt' d' rv' o' hstmt' hassign _ hpart
    cases (hsame hstmt').symm.trans hassign
    rw [hplain] at hpart
    cases hpart
  · rintro d' o' - ⟨blk, func, args, next, hblk, hidx, -⟩
    exact absurd hidx (hnocall hblk)
  · intro stmt' d' hstmt' hdef _
    rw [hsame hstmt'] at hdef
    obtain rfl : d = d' := Option.some.inj hdef
    exact hcaptured
  · intro d' _ hchanged
    obtain rfl : d' = d := by
      by_contra hne
      exact hchanged (hslots d' hne)
    exact Or.inl ⟨stmt, hstmt, by rw [hkind]; rfl⟩

end

/-- A frame at the entry of the function, with objects in the parameters only. -/
structure EntersFresh (mir : MirFunction) (x : Config) : Prop extends Enters mir x where
  fresh : ∀ s, s ∉ mir.paramSlots → x.heap.slot s = none

/-- A function of one parameter. -/
def withParam (kinds : List StatementKind) (numLocals : Nat)
    (h : (((straightLine kinds).flatMap (·.statements)).map (·.point)).Nodup)
    (h' : ∀ b ∈ straightLine kinds, ∀ s ∈ b.statements, s.point < u32Max) : MirFunction :=
  { bareFunction (straightLine kinds) numLocals rfl (by simp [straightLine, terminatorSuccessors]) h h' with
    paramSlots := [1], paramReferenceKinds := [none] }

/-- `fn f(p) { let a = [1]; a }`. -/
def returnedArrayMir : MirFunction :=
  withParam [.assign (.localSlot 2) (.aggregate [.constant (.int 1)]),
    .assign (.localSlot 0) (.use (.move (.localSlot 2)))] 3 (by decide) (by decide)

/-- `fn f(p) { let a = [1]; p.items = a; a }`. -/
def sharedArrayMir : MirFunction :=
  withParam [.assign (.localSlot 2) (.aggregate [.constant (.int 1)]),
    .assign (.field (.localSlot 1) 0) (.use (.copy (.localSlot 2))),
    .assign (.localSlot 0) (.use (.move (.localSlot 2)))] 3 (by decide) (by decide)

/-- The parameter is the only object. -/
def paramHeap : Heap := { emptyHeap with slot := Function.update emptyHeap.slot 1 (some 0), next := 1 }

theorem paramHeap_enters {mir : MirFunction} (hmir : mir.paramSlots = [1]) :
    EntersFresh mir ⟨entryCursor mir, paramHeap⟩ := by
  have hslot : ∀ s, s ≠ 1 → paramHeap.slot s = none := by
    intro s hs
    simp [paramHeap, emptyHeap, hs]
  refine ⟨⟨rfl, ⟨fun s o ho => ?_, nofun, nofun, nofun, nofun⟩⟩, fun s hs => hslot s fun h1 => hs ?_⟩
  · by_cases hs : s = 1
    · subst hs
      obtain rfl : 0 = o := by simpa [paramHeap] using ho
      exact Nat.zero_lt_one
    · rw [hslot s hs] at ho
      cases ho
  · rw [h1, hmir]
    exact List.mem_singleton_self _

/-- The execution is at a return. -/
def AtReturn (mir : MirFunction) (c : Cursor) : Prop :=
  ∃ blk, mir.block? c.block = some blk ∧ c.idx = blk.statements.length ∧ blk.terminator.kind = .ret

end ShapeLang.Mir
