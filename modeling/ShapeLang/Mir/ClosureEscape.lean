import ShapeLang.Lib.Fallible
import ShapeLang.Lib.Fixpoint
import ShapeLang.Mir.Objects

/-!
# ShapeLang — closures that do not escape

The part of the storage planner that decides which closures may live on the stack
(`detect_non_escaping_closure_slots` in `crates/shape-vm/src/mir/storage_planning.rs`). A closure
slot escapes when its closure, followed through whole-local assignments, comes to a sink (the return
slot, a container, a module binding, a task, an argument of a call), or when a closure that captures
it escapes.

Captures are followed along the *capture graph*, which has an edge for a captured slot only when the slot is
itself one that a closure was made in. A closure that is first bound to a variable and captured through that
variable leaves no edge.

  * `closureSlotEscapesDirect` — the sinks, for one closure slot;
  * `detectNonEscapingClosureSlots` — the verdict;
  * `CarefulAt` — what the verdict rests on, of one step of an execution;
  * `nonEscaping_sound` — in an execution of such steps no closure with the verdict leaves the frame.
-/

namespace ShapeLang.Mir

open ObjectGraph

/-! ## The analysis -/

inductive BindingStorageClass where
  | deferred | direct | uniqueHeap | sharedCow | reference | localMutablePtr
  deriving DecidableEq, Repr

/-- What the closure analysis reads of the planner's input. -/
structure StoragePlannerInput where
  mir : MirFunction
  /-- The storage class of a slot, where its binding has semantics. -/
  storageClass : SlotId → Option BindingStorageClass
  /-- `closure_param_escapes` of the callees with a borrow summary. -/
  calleeSummaries : Option (String → Option (List Bool))

def operandUsesAnySlot (op : Operand) (slots : List SlotId) : Bool :=
  match op.place? with
  | some place => slots.contains place.rootLocal
  | none => false

def rvalueUsesAnySlot (rvalue : Rvalue) (slots : List SlotId) : Bool :=
  match rvalue with
  | .borrow _ place => slots.contains place.rootLocal
  | rvalue => rvalue.operands.any (operandUsesAnySlot · slots)

def collectClosureSlots (mir : MirFunction) : List SlotId :=
  (mir.allStatements.filterMap fun stmt =>
    match stmt.kind with
    | .closureCapture slot _ => some slot
    | _ => none).dedup

/-- The captured slots that closures were made in, for each closure slot. -/
def buildClosureCaptureGraph (mir : MirFunction) (closureSlots : List SlotId) (slot : SlotId) :
    List SlotId :=
  mir.allStatements.flatMap fun stmt =>
    match stmt.kind with
    | .closureCapture closureSlot operands =>
      if closureSlot = slot then
        (operands.filterMap operandRootSlot).filter (closureSlots.contains ·)
      else []
    | _ => []

section

variable (input : StoragePlannerInput)

/-- `Rvalue::Aggregate` of a tracked slot. -/
def aggregates (tracked : List SlotId) : Rvalue → Bool
  | .aggregate ops => ops.any (operandUsesAnySlot · tracked)
  | _ => false

/-- One statement of the walk: the widened set, or `none` when a sink is found. -/
def trackStatement (tracked : List SlotId) : StatementKind → Option (List SlotId)
  | .assign (.localSlot dest) rvalue =>
    if dest = 0 ∧ rvalueUsesAnySlot rvalue tracked then none
    else
      let tracked := if rvalueUsesAnySlot rvalue tracked then tracked.insert dest else tracked
      if aggregates tracked rvalue then none else some tracked
  | .assign _ rvalue =>
    if rvalueUsesAnySlot rvalue tracked ∨ aggregates tracked rvalue then none else some tracked
  | .arrayStore _ operands | .objectStore _ operands | .enumStore _ operands
  | .moduleBindingStore _ operands | .taskBoundary operands _ =>
    if operands.any (operandUsesAnySlot · tracked) then none else some tracked
  | .closureCapture _ _ | .drop _ | .nop => some tracked

def calleeName : Operand → Option String
  | .constant (.function name) => some name
  | _ => none

def calleeSummary (func : Operand) : Option (List Bool) := do
  let name ← calleeName func
  let summaries ← input.calleeSummaries
  summaries name

/-- The callee's word on one parameter; without it the argument escapes. -/
def argEscapes (tracked : List SlotId) (summary : Option (List Bool)) (arg : Operand) (idx : Nat) : Bool :=
  operandUsesAnySlot arg tracked && ((summary.bind (·[idx]?)).getD true)

def terminatorEscapes (tracked : List SlotId) : TerminatorKind → Bool
  | .call func args _ _ =>
    (calleeName func == some "snapshot" && args.any (operandUsesAnySlot · tracked)) ||
      args.zipIdx.any fun arg => argEscapes tracked (calleeSummary input func) arg.1 arg.2
  | _ => false

def trackBlock (tracked : List SlotId) (block : BasicBlock) : Option (List SlotId) := do
  let tracked ← block.statements.foldlM (fun tracked stmt => trackStatement tracked stmt.kind) tracked
  if terminatorEscapes input tracked block.terminator.kind then none else some tracked

/-- Passes until one widens nothing: does the closure come to a sink? -/
def trackLoop : Nat → List SlotId → Option Bool
  | 0, _ => none
  | fuel + 1, tracked =>
    match input.mir.blocks.foldlM (trackBlock input) tracked with
    | none => some true
    | some widened => if widened = tracked then some false else trackLoop fuel widened

def closureSlotEscapesDirect (fuel : Nat) (c : SlotId) : Option Bool :=
  match input.storageClass c with
  | some .uniqueHeap | some .sharedCow => some true
  | _ => trackLoop input fuel [c]

/-- The slots with a positive verdict. -/
def escapingSlots (verdict : SlotId → Option Bool) : List SlotId → Option (List SlotId)
  | [] => some []
  | c :: slots => do
    let escapes ← verdict c
    let rest ← escapingSlots verdict slots
    some (if escapes then c :: rest else rest)

/-- One closure slot of the propagation: what an escaping closure captures escapes. -/
def propagateFrom (graph : SlotId → List SlotId) (escaping : List SlotId) (a : SlotId) :
    Option (List SlotId) :=
  if a ∈ escaping ∧ ∃ b ∈ graph a, b ∉ escaping then
    some ((graph a).foldl (fun escaping b => escaping.insert b) escaping)
  else none

def mirContainsSnapshotCall (mir : MirFunction) : Bool :=
  mir.blocks.any fun block =>
    match block.terminator.kind with
    | .call func _ _ _ => calleeName func == some "snapshot"
    | _ => false

def detectNonEscapingClosureSlots (fuel : Nat) : Option (List SlotId) :=
  let closureSlots := collectClosureSlots input.mir
  if closureSlots.isEmpty ∨ mirContainsSnapshotCall input.mir then some []
  else do
    let direct ← escapingSlots (closureSlotEscapesDirect input fuel) closureSlots
    let graph := buildClosureCaptureGraph input.mir closureSlots
    let escaping ← Fixpoint.loop (propagateFrom graph) closureSlots fuel direct
    some (closureSlots.filter (!escaping.contains ·))

end

/-! ## A stable set -/

/-- A set of slots that has grown, by slots other than the return slot. -/
structure Widens (t t' : List SlotId) : Prop where
  length_le : t.length ≤ t'.length
  eq_of_length : t.length = t'.length → t = t'
  keeps : ∀ s ∈ t, s ∈ t'
  new : ∀ s ∈ t', s ∈ t ∨ s ≠ 0

namespace Widens

theorem refl (t : List SlotId) :
    Widens t t := ⟨Nat.le_refl _, fun _ => rfl, fun _ hs => hs, fun _ hs => Or.inl hs⟩

theorem cons {t : List SlotId} {dest : SlotId} (hzero : dest ≠ 0) : Widens t (dest :: t) := by
  refine ⟨by simp, by simp, fun s hs => List.mem_cons_of_mem _ hs, fun s hs => ?_⟩
  rcases List.mem_cons.mp hs with rfl | hs
  · exact Or.inr hzero
  · exact Or.inl hs

theorem trans {t t' t'' : List SlotId} (h : Widens t t') (h' : Widens t' t'') : Widens t t'' := by
  refine ⟨h.length_le.trans h'.length_le, fun heq => ?_, fun s hs => h'.keeps s (h.keeps s hs),
    fun s hs => ?_⟩
  · have hle := h.length_le
    have hle' := h'.length_le
    rw [h.eq_of_length (by omega), h'.eq_of_length (by omega)]
  · rcases h'.new s hs with hs | hs
    · exact h.new s hs
    · exact Or.inr hs

end Widens

theorem foldlM_widens {β : Type} {f : List SlotId → β → Option (List SlotId)}
    (hf : ∀ t b t', f t b = some t' → Widens t t') {l : List β} {t t' : List SlotId}
    (h : l.foldlM f t = some t') : Widens t t' := by
  induction l generalizing t with
  | nil =>
    obtain rfl : t = t' := Option.some.inj h
    exact .refl t
  | cons b l ih =>
    obtain ⟨t₁, ht₁, h⟩ := Option.bind_eq_some_iff.mp (List.foldlM_cons.symm.trans h)
    exact (hf t b t₁ ht₁).trans (ih h)

/-- Passes until one changes nothing: the last set stays, and is a widening of the first. -/
theorem exists_fixed_of_loop {pass : List SlotId → Option (List SlotId)}
    {loop : Nat → List SlotId → Option Bool} (hzero : ∀ t, loop 0 t = none)
    (hsucc : ∀ fuel t, loop (fuel + 1) t = match pass t with
      | none => some true
      | some widened => if widened = t then some false else loop fuel widened)
    (hpass : ∀ t t', pass t = some t' → Widens t t') {fuel : Nat} {t : List SlotId}
    (h : loop fuel t = some false) : ∃ T, pass T = some T ∧ Widens t T := by
  induction fuel generalizing t with
  | zero =>
    rw [hzero] at h
    cases h
  | succ fuel ih =>
    rw [hsucc] at h
    split at h
    · cases h
    · rename_i widened hw
      split at h
      · rename_i heq
        subst heq
        exact ⟨widened, hw, .refl widened⟩
      · obtain ⟨T, hT, hwide⟩ := ih h
        exact ⟨T, hT, (hpass t widened hw).trans hwide⟩

/-- A fold whose turns only ever grow the state leaves it alone at each turn when it leaves it alone in the
end. -/
theorem foldlM_eq_self {α β : Type} {f : α → β → Option α} (size : α → Nat)
    (hgrow : ∀ t b t', f t b = some t' → size t ≤ size t' ∧ (size t = size t' → t = t'))
    {l : List β} {t : α} (h : l.foldlM f t = some t) : ∀ b ∈ l, f t b = some t := by
  have hmono : ∀ (l : List β) (t t' : α), l.foldlM f t = some t' → size t ≤ size t' := by
    intro l
    induction l with
    | nil =>
      intro t t' h
      rw [Option.some.inj (h : some t = some t')]
    | cons b l ih =>
      intro t t' h
      obtain ⟨t₁, h₁, h⟩ := Option.bind_eq_some_iff.mp (List.foldlM_cons.symm.trans h)
      exact (hgrow t b t₁ h₁).1.trans (ih t₁ t' h)
  induction l with
  | nil => exact fun b hb => nomatch hb
  | cons b l ih =>
    obtain ⟨t₁, h₁, hrest⟩ := Option.bind_eq_some_iff.mp (List.foldlM_cons.symm.trans h)
    obtain ⟨hle, heq⟩ := hgrow t b t₁ h₁
    obtain rfl : t = t₁ := heq (Nat.le_antisymm hle (hmono l t₁ t hrest))
    intro b' hb'
    rcases List.mem_cons.mp hb' with rfl | hb'
    · exact h₁
    · exact ih hrest b' hb'

section

variable {input : StoragePlannerInput} {tracked tracked' : List SlotId}

variable {kind : StatementKind}

/-- A statement leaves the set alone or adds a slot other than the return slot. -/
theorem trackStatement_cases (h : trackStatement tracked kind = some tracked') :
    tracked' = tracked ∨ ∃ dest, dest ≠ 0 ∧ dest ∉ tracked ∧ tracked' = dest :: tracked := by
  -- the statements that add nothing either refuse or keep the set
  have hsame : ∀ {b : Prop} [Decidable b], (if b then none else some tracked) = some tracked' →
      tracked' = tracked := by
    intro b _ h
    split at h
    · cases h
    · exact (Option.some.inj h).symm
  unfold trackStatement at h
  split at h
  · rename_i dest rvalue
    split at h
    · cases h
    · rename_i hzero
      dsimp only at h
      -- an assignment from a tracked slot tracks its destination
      by_cases huses : rvalueUsesAnySlot rvalue tracked = true
      · rw [if_pos huses] at h
        split at h
        · cases h
        · have h := Option.some.inj h
          by_cases hmem : dest ∈ tracked
          · rw [List.insert_of_mem hmem] at h
            exact Or.inl h.symm
          · rw [List.insert_of_not_mem hmem] at h
            exact Or.inr ⟨dest, fun h0 => hzero ⟨h0, huses⟩, hmem, h.symm⟩
      · rw [if_neg huses] at h
        exact Or.inl (hsame h)
  all_goals first
    | exact Or.inl (hsame h)
    | exact Or.inl (Option.some.inj h).symm

theorem trackStatement_widens (h : trackStatement tracked kind = some tracked') :
    Widens tracked tracked' := by
  rcases trackStatement_cases h with rfl | ⟨dest, hzero, -, rfl⟩
  · exact .refl _
  · exact .cons hzero

variable {block : BasicBlock}

theorem trackBlock_spec (h : trackBlock input tracked block = some tracked') :
    block.statements.foldlM (fun tracked stmt => trackStatement tracked stmt.kind) tracked = some tracked' ∧
      terminatorEscapes input tracked' block.terminator.kind = false := by
  obtain ⟨t, ht, h⟩ := Option.bind_eq_some_iff.mp h
  split at h
  · cases h
  · rename_i hterm
    obtain rfl := Option.some.inj h
    exact ⟨ht, by simpa using hterm⟩

/-- No statement and no terminator finds the set at a sink or widens it. -/
structure Stable (input : StoragePlannerInput) (tracked : List SlotId) : Prop where
  statement : ∀ stmt ∈ input.mir.allStatements, trackStatement tracked stmt.kind = some tracked
  terminator : ∀ block ∈ input.mir.blocks,
    terminatorEscapes input tracked block.terminator.kind = false

theorem trackBlock_widens (h : trackBlock input tracked block = some tracked') :
    Widens tracked tracked' :=
  foldlM_widens (fun _ _ _ h => trackStatement_widens h) (trackBlock_spec h).1

theorem stable_of_pass (h : input.mir.blocks.foldlM (trackBlock input) tracked = some tracked) :
    Stable input tracked := by
  have hblock := foldlM_eq_self List.length
    (fun t b t' h => ⟨(trackBlock_widens h).length_le, (trackBlock_widens h).eq_of_length⟩) h
  refine ⟨fun stmt hstmt => ?_, fun block hb => (trackBlock_spec (hblock block hb)).2⟩
  obtain ⟨block, hb, hmem⟩ := List.mem_flatMap.mp hstmt
  exact foldlM_eq_self List.length
    (fun t s t' h => ⟨(trackStatement_widens h).length_le, (trackStatement_widens h).eq_of_length⟩)
    (trackBlock_spec (hblock block hb)).1 stmt hmem

variable {fuel : Nat}

/-- A negative verdict leaves a stable set around the start, without the return slot unless it was there. -/
theorem trackLoop_false (h : trackLoop input fuel tracked = some false) :
    ∃ T, Stable input T ∧ (∀ s ∈ tracked, s ∈ T) ∧ ∀ s ∈ T, s ∈ tracked ∨ s ≠ 0 := by
  obtain ⟨T, hT, hwide⟩ := exists_fixed_of_loop (fun _ => rfl) (fun _ _ => rfl)
    (fun t t' h => foldlM_widens (fun _ _ _ h => trackBlock_widens h) h) h
  exact ⟨T, stable_of_pass hT, hwide.keeps, hwide.new⟩

variable {escaping : List SlotId}

theorem mem_escapingSlots {verdict : SlotId → Option Bool} {slots : List SlotId}
    (h : escapingSlots verdict slots = some escaping) {c : SlotId} (hc : c ∈ slots) (hnot : c ∉ escaping) :
    verdict c = some false := by
  induction slots generalizing escaping with
  | nil => cases hc
  | cons d slots ih =>
    obtain ⟨e, he, h⟩ := Option.bind_eq_some_iff.mp h
    obtain ⟨rest, hrest, h⟩ := Option.bind_eq_some_iff.mp h
    obtain rfl := Option.some.inj h
    rcases List.mem_cons.mp hc with rfl | hc
    · cases e with
      | false => exact he
      | true => exact absurd List.mem_cons_self hnot
    · refine ih hrest hc fun hmem => hnot ?_
      split
      · exact List.mem_cons_of_mem _ hmem
      · exact hmem

theorem mem_foldl_insert {l : List SlotId} {b : SlotId} (h : b ∈ escaping) :
    b ∈ l.foldl (fun escaping b => escaping.insert b) escaping := by
  induction l generalizing escaping with
  | nil => exact h
  | cons a l ih => exact ih (List.mem_insert_of_mem h)

/-- What the verdict says of the slots that have it. -/
structure Verdict (input : StoragePlannerInput) (N : List SlotId) (T : SlotId → List SlotId) : Prop where
  closure : ∀ c ∈ N, c ∈ collectClosureSlots input.mir
  stable : ∀ c ∈ N, Stable input (T c)
  self : ∀ c ∈ N, c ∈ T c
  zero : ∀ c ∈ N, c ≠ 0 → 0 ∉ T c
  captured : ∀ a ∈ collectClosureSlots input.mir, ∀ c ∈ N,
    c ∈ buildClosureCaptureGraph input.mir (collectClosureSlots input.mir) a → a ∈ N

theorem closureSlotEscapesDirect_false {c : SlotId}
    (h : closureSlotEscapesDirect input fuel c = some false) :
    trackLoop input fuel [c] = some false := by
  unfold closureSlotEscapesDirect at h
  split at h
  · cases h
  · cases h
  · exact h

theorem exists_verdict {N : List SlotId} (h : detectNonEscapingClosureSlots input fuel = some N) :
    ∃ T, Verdict input N T := by
  unfold detectNonEscapingClosureSlots at h
  dsimp only at h
  split at h
  · obtain rfl := Option.some.inj h
    exact ⟨fun _ => [], nofun, nofun, nofun, nofun, fun _ _ _ hc => nomatch hc⟩
  · obtain ⟨direct, hdirect, h⟩ := Option.bind_eq_some_iff.mp h
    obtain ⟨escaping, hloop, h⟩ := Option.bind_eq_some_iff.mp h
    obtain rfl := Option.some.inj h
    have hstep : ∀ s a s', (∀ c ∈ direct, c ∈ s) → a ∈ collectClosureSlots input.mir →
        propagateFrom (buildClosureCaptureGraph input.mir (collectClosureSlots input.mir)) s a = some s' →
        ∀ c ∈ direct, c ∈ s' := by
      intro s a s' hs _ hprop c hc
      unfold propagateFrom at hprop
      split at hprop
      · obtain rfl := Option.some.inj hprop
        exact mem_foldl_insert (hs c hc)
      · cases hprop
    obtain ⟨hsub, hclosed⟩ := Fixpoint.loop_stable hstep (fun c hc => hc) hloop
    have hmem : ∀ c ∈ (collectClosureSlots input.mir).filter (!escaping.contains ·),
        c ∈ collectClosureSlots input.mir ∧ c ∉ escaping := by
      intro c hc
      simpa using hc
    have hT : ∀ c ∈ (collectClosureSlots input.mir).filter (!escaping.contains ·),
        ∃ T, Stable input T ∧ c ∈ T ∧ (c ≠ 0 → 0 ∉ T) := by
      intro c hc
      obtain ⟨hclosure, hnot⟩ := hmem c hc
      have hfalse := mem_escapingSlots hdirect hclosure fun hc => hnot (hsub c hc)
      obtain ⟨T, hT, hself, hnew⟩ := trackLoop_false (closureSlotEscapesDirect_false hfalse)
      refine ⟨T, hT, hself c List.mem_cons_self, fun hzero h0 => ?_⟩
      rcases hnew 0 h0 with h0 | h0
      · exact hzero (List.mem_singleton.mp h0).symm
      · exact h0 rfl
    choose! T hstable hself hzero using hT
    refine ⟨T, fun c hc => (hmem c hc).1, hstable, hself, hzero, fun a ha c hc hedge => ?_⟩
    -- an escaping closure would have carried the slot along
    have hstop := hclosed a ha
    unfold propagateFrom at hstop
    split at hstop
    · cases hstop
    · rename_i hnot
      have hac : a ∉ escaping := fun hae => hnot ⟨hae, c, hedge, (hmem c hc).2⟩
      simpa using ⟨ha, hac⟩

/-! ### What stability says of a statement -/

theorem Stable.assign {T : List SlotId} (h : Stable input T) {stmt : MirStatement}
    (hmem : stmt ∈ input.mir.allStatements) {place : Place} {rv : Rvalue}
    (hkind : stmt.kind = .assign place rv) (huses : rvalueUsesAnySlot rv T = true) :
    ∃ d, place = .localSlot d ∧ d ∈ T ∧ aggregates T rv = false := by
  have hstmt := h.statement stmt hmem
  rw [hkind] at hstmt
  cases place with
  | localSlot d =>
    rw [trackStatement] at hstmt
    split at hstmt
    · cases hstmt
    · dsimp only at hstmt
      split at hstmt
      · cases hstmt
      · rename_i hagg
        have hins := Option.some.inj hstmt
        rw [hins] at hagg
        exact ⟨d, rfl, by rw [← hins]; exact List.mem_insert_self, by simpa using hagg⟩
  | _ =>
    rw [trackStatement, if_pos (Or.inl huses)] at hstmt
    · cases hstmt
    · exact nofun

theorem Stable.operands {T : List SlotId} (h : Stable input T) {stmt : MirStatement}
    (hmem : stmt ∈ input.mir.allStatements) {ops : List Operand}
    (hkind : stmt.kind.keeps = some ops ∨ ∃ s, stmt.kind.containerStore = some (s, ops)) {op : Operand}
    (hop : op ∈ ops) : operandUsesAnySlot op T = false := by
  have hstmt := h.statement stmt hmem
  have hall : ops.any (operandUsesAnySlot · T) = false := by
    generalize stmt.kind = kind at hkind hstmt
    cases kind <;> simp only [StatementKind.keeps, StatementKind.containerStore, reduceCtorEq,
      Option.some.injEq, Prod.mk.injEq, exists_false, or_false, false_or, exists_eq_left'] at hkind
    all_goals
      subst hkind
      rw [trackStatement] at hstmt
      split at hstmt
      · cases hstmt
      · simp_all
  simpa using List.any_eq_false.mp hall op hop

theorem Stable.arg {T : List SlotId} (h : Stable input T) {block : BasicBlock}
    (hmem : block ∈ input.mir.blocks) {func : Operand} {args : List Operand} {dest : Place}
    {next : BasicBlockId} (hkind : block.terminator.kind = .call func args dest next) {i : Nat}
    {arg : Operand} (harg : args[i]? = some arg) (huses : operandUsesAnySlot arg T = true) :
    (calleeSummary input func).bind (·[i]?) = some false := by
  have hterm := h.terminator block hmem
  rw [hkind, terminatorEscapes, Bool.or_eq_false_iff] at hterm
  have hzip := List.any_eq_false.mp hterm.2 (arg, i) (List.mk_mem_zipIdx_iff_getElem?.mpr harg)
  simp only [argEscapes, huses, Bool.true_and] at hzip
  cases hbit : (calleeSummary input func).bind (·[i]?) with
  | none => simp [hbit] at hzip
  | some bit => simpa [hbit] using hzip

end

/-! ## Executions -/

/-- What the verdict rests on, of one step: a closure is captured through the slot it was made in,
no closure is made in the return slot, a closure that is called holds no closure of this frame, and
none is passed in a position where the callee's summary lets it through. -/
structure CarefulAt (input : StoragePlannerInput) (x : Config) : Prop where
  capture : ∀ stmt slot ops, stmtAt input.mir x.cursor = some stmt → stmt.kind = .closureCapture slot ops →
    slot ≠ 0 ∧ ∀ op ∈ ops, ∀ o c, Evals x.heap op (some o) → x.heap.made o = some c →
      operandRootSlot op = some c
  call : ∀ blk func args dest next, input.mir.block? x.cursor.block = some blk →
    x.cursor.idx = blk.statements.length → blk.terminator.kind = .call func args dest next →
    (∀ f k r o, Evals x.heap func (some f) → x.heap.cell f k = some r → Reach x.heap.cell r o →
      x.heap.made o = none) ∧
    ∀ (i : Nat) arg o, args[i]? = some arg → (calleeSummary input func).bind (·[i]?) = some false →
      Evals x.heap arg (some o) → x.heap.made o = none

/-- An object is in reach of what outlives the frame or was handed out of it. -/
def LeavesFrame (σ : Heap) (o : ObjId) : Prop :=
  ∃ r, (σ.slot 0 = some r ∨ r ∈ σ.kept ∨ r ∈ σ.passed) ∧ Reach σ.cell r o

/-- Where closures with the verdict are: in the slots their walk tracked, and in closures that the capture
graph says hold them. -/
structure Confined (input : StoragePlannerInput) (N : List SlotId) (T : SlotId → List SlotId) (σ : Heap) :
    Prop where
  made : ∀ o c, σ.made o = some c → c ∈ collectClosureSlots input.mir ∧ c ≠ 0
  slot : ∀ s o c, σ.slot s = some o → σ.made o = some c → c ∈ N → s ∈ T c
  cell : ∀ a k o c, σ.cell a k = some o → σ.made o = some c → c ∈ N → ∃ b, σ.made a = some b ∧
    c ∈ buildClosureCaptureGraph input.mir (collectClosureSlots input.mir) b
  kept : ∀ o c, o ∈ σ.kept → σ.made o = some c → c ∉ N
  passed : ∀ o c, o ∈ σ.passed → σ.made o = some c → c ∉ N

/-- Not a closure with the verdict. -/
def Free (N : List SlotId) (σ : Heap) (o : ObjId) : Prop := ∀ c, σ.made o = some c → c ∉ N

section

variable {input : StoragePlannerInput} {N : List SlotId} {T : SlotId → List SlotId} {σ σ₁ σ' : Heap}
  {v : Option ObjId} {o : ObjId}

variable {a : ObjId}

/-- Only closures with the verdict hold a closure with the verdict. -/
theorem Confined.holder (h : Confined input N T σ) (hN : Verdict input N T) {k : Key}
    (hcell : σ.cell a k = some o) (ha : Free N σ a) : Free N σ o := by
  intro c hmade hc
  obtain ⟨b, hb, hedge⟩ := h.cell a k o c hcell hmade hc
  exact ha b hb (hN.captured b (h.made a b hb).1 c hc hedge)

theorem Confined.free_of_reach (h : Confined input N T σ) (hN : Verdict input N T) (ha : Free N σ a)
    (hreach : Reach σ.cell a o) : Free N σ o := by
  induction hreach with
  | refl => exact ha
  | tail _ hbc ih =>
    obtain ⟨k, hk⟩ := hbc
    exact h.holder hN hk ih

theorem free_of_none (hmade : σ.made o = none) : Free N σ o := fun c hc => by
  rw [hmade] at hc
  cases hc

variable {c : SlotId}

/-- Reading a place gives a closure with the verdict only from a tracked slot. -/
theorem Confined.reads (h : Confined input N T σ) (hN : Verdict input N T) {p : Place}
    (hr : Reads σ p (some o)) (hmade : σ.made o = some c) (hc : c ∈ N) : p.rootLocal ∈ T c := by
  rcases hr.cases with hroot | ⟨a, k, hdata, hcell⟩
  · exact h.slot _ o c hroot.symm hmade hc
  · exact absurd hc (h.holder hN hcell (free_of_none hdata) c hmade)

theorem Confined.evals (h : Confined input N T σ) (hN : Verdict input N T) {op : Operand}
    (hop : Evals σ op (some o)) (hmade : σ.made o = some c) (hc : c ∈ N) :
    operandUsesAnySlot op (T c) = true := by
  cases hop with
  | place hp hr => simpa [operandUsesAnySlot, hp] using h.reads hN hr hmade hc

variable {stmt : MirStatement}

/-- An rvalue of a statement yields a closure with the verdict only for a tracked local, and puts
none into a new object. -/
theorem Confined.rhs (h : Confined input N T σ) (hN : Verdict input N T) (hwf : σ.Wf)
    (hmem : stmt ∈ input.mir.allStatements) {place : Place} {rv : Rvalue}
    (hkind : stmt.kind = .assign place rv) (hrv : Rhs σ rv σ₁ v) :
    (σ₁ = σ ∧ ∀ o c, v = some o → σ.made o = some c → c ∈ N → ∃ d, place = .localSlot d ∧ d ∈ T c) ∨
      ∃ contents, σ₁ = σ.alloc contents none ∧ v = some σ.next ∧
        ∀ k o, contents k = some o → Free N σ o ∧ o < σ.next := by
  -- an rvalue that uses a tracked slot is the right side of an assignment to a tracked local
  have huse : ∀ c ∈ N, rvalueUsesAnySlot rv (T c) = true → ∃ d, place = .localSlot d ∧ d ∈ T c := by
    intro c hc huses
    obtain ⟨d, hd, hmemd, -⟩ := (hN.stable c hc).assign hmem hkind huses
    exact ⟨d, hd, hmemd⟩
  cases hrv with
  | use hop =>
    refine Or.inl ⟨rfl, fun o c ho hmade hc => huse c hc ?_⟩
    subst ho
    simpa [rvalueUsesAnySlot, Rvalue.operands] using h.evals hN hop hmade hc
  | borrow hr =>
    refine Or.inl ⟨rfl, fun o c ho hmade hc => huse c hc ?_⟩
    subst ho
    simpa [rvalueUsesAnySlot] using h.reads hN hr hmade hc
  -- a closure in an aggregate would have been refused
  | aggregate hops hcont =>
    refine Or.inr ⟨_, rfl, rfl, fun k o ho => ?_⟩
    obtain ⟨op, hop, hev⟩ := hops.fromSlots (hcont.1 k o ho)
    refine ⟨fun c hmade hc => ?_, hwf.evals hev⟩
    have huses := h.evals hN hev hmade hc
    have hany : List.any _ (operandUsesAnySlot · (T c)) = true := List.any_eq_true.mpr ⟨op, hop, huses⟩
    obtain ⟨d, -, -, hagg⟩ := (hN.stable c hc).assign hmem hkind hany
    exact absurd (hany.symm.trans hagg) (by decide)
  | cloneShare hop =>
    refine Or.inl ⟨rfl, fun o c ho hmade hc => huse c hc ?_⟩
    subst ho
    simpa [rvalueUsesAnySlot, Rvalue.operands] using h.evals hN hop hmade hc
  -- what an object holds was put there, and nothing that was put there has the verdict
  | cloneCopy hop hdata =>
    exact Or.inr ⟨_, rfl, rfl, fun k o ho =>
      ⟨h.holder hN ho (free_of_none hdata), (hwf.cell _ k o ho).2⟩⟩
  | payload k hop hdata =>
    exact Or.inl ⟨rfl, fun o c ho hmade hc =>
      absurd hc (h.holder hN ho (free_of_none hdata) c hmade)⟩
  | immediate hi => exact Or.inl ⟨rfl, fun o c ho => nomatch ho⟩
  | operator hi hcont =>
    refine Or.inr ⟨_, rfl, rfl, fun k o ho => ?_⟩
    obtain ⟨op, -, a, k', -, hdata, hcell⟩ := hcont k o ho
    exact ⟨h.holder hN hcell (free_of_none hdata), (hwf.cell _ k' o hcell).2⟩

/-! ### One change of the heap -/

theorem Confined.setSlot (h : Confined input N T σ) {s : SlotId}
    (hv : ∀ o c, v = some o → σ.made o = some c → c ∈ N → s ∈ T c) :
    Confined input N T (σ.setSlot s v) := by
  refine ⟨h.made, fun s' o c ho hmade hc => ?_, h.cell, h.kept, h.passed⟩
  rcases setSlot_eq_some ho with ⟨rfl, hnew⟩ | ⟨-, hold⟩
  · exact hv o c hnew hmade hc
  · exact h.slot s' o c hold hmade hc

theorem Confined.setCell (h : Confined input N T σ) {k : Key} (hv : ∀ o, v = some o → Free N σ o) :
    Confined input N T (σ.setCell a k v) := by
  refine ⟨h.made, h.slot, fun a' k' o c ho hmade hc => ?_, h.kept, h.passed⟩
  rcases setCell_eq_some ho with ⟨-, ho⟩ | ho
  · exact absurd hc (hv o ho c hmade)
  · exact h.cell a' k' o c ho hmade hc

theorem Confined.writesThrough (h : Confined input N T σ) (hv : ∀ o, v = some o → Free N σ o)
    (hw : WritesThrough σ v σ') : Confined input N T σ' := by
  refine ⟨fun o c hmade => ?_, fun s o c ho hmade hc => ?_, fun a k o c ho hmade hc => ?_,
    fun o c ho hmade => ?_, fun o c ho hmade => ?_⟩
  · exact h.made o c (hw.made ▸ hmade)
  · rw [hw.made] at hmade
    rcases hw.slot s with hs | hs
    · exact h.slot s o c (hs ▸ ho) hmade hc
    · exact absurd hc (hv o (hs ▸ ho) c hmade)
  · rw [hw.made] at hmade ⊢
    rcases hw.cell a k with ha | ⟨-, ha⟩
    · exact h.cell a k o c (ha ▸ ho) hmade hc
    · exact absurd hc (hv o (ha ▸ ho) c hmade)
  · exact h.kept o c (hw.kept ▸ ho) (hw.made ▸ hmade)
  · exact h.passed o c (hw.passed ▸ ho) (hw.made ▸ hmade)

theorem Confined.stores (h : Confined input N T σ) {place : Place}
    (hv : ∀ o c, v = some o → σ.made o = some c → c ∈ N → ∃ d, place = .localSlot d ∧ d ∈ T c)
    (hs : Stores σ v place σ') : Confined input N T σ' := by
  cases hs with
  | localSlot s =>
    refine h.setSlot fun o c ho hmade hc => ?_
    obtain ⟨d, hd, hmem⟩ := hv o c ho hmade hc
    rwa [Place.localSlot.inj hd]
  | field hr hdata =>
    refine h.setCell fun o ho c hmade hc => ?_
    obtain ⟨d, hd, -⟩ := hv o c ho hmade hc
    cases hd
  | index n hr hdata =>
    refine h.setCell fun o ho c hmade hc => ?_
    obtain ⟨d, hd, -⟩ := hv o c ho hmade hc
    cases hd
  | deref hw =>
    refine h.writesThrough (fun o ho c hmade hc => ?_) hw
    obtain ⟨d, hd, -⟩ := hv o c ho hmade hc
    cases hd

variable {contents : Contents}

/-- A new object: a closure holds only what the capture graph says, other objects no closure with the
verdict. -/
theorem Confined.alloc (h : Confined input N T σ) (hwf : σ.Wf) {m : Option SlotId}
    (hm : ∀ s, m = some s → s ∈ collectClosureSlots input.mir ∧ s ≠ 0)
    (hcont : ∀ k o, contents k = some o → o < σ.next)
    (hgraph : ∀ k o c, contents k = some o → σ.made o = some c → c ∈ N → ∃ b, m = some b ∧
      c ∈ buildClosureCaptureGraph input.mir (collectClosureSlots input.mir) b) :
    Confined input N T (σ.alloc contents m) := by
  -- what was allocated before keeps its mark
  have hold : ∀ {o c}, o < σ.next → (σ.alloc contents m).made o = some c → σ.made o = some c := by
    intro o c ho hmade
    simpa [Heap.alloc, Nat.ne_of_lt ho] using hmade
  refine ⟨fun o c hmade => ?_, fun s o c ho hmade hc => ?_, fun a k o c ho hmade hc => ?_,
    fun o c ho hmade => ?_, fun o c ho hmade => ?_⟩
  · by_cases hn : o = σ.next
    · subst hn
      exact hm c (by simpa [Heap.alloc] using hmade)
    · exact h.made o c (by simpa [Heap.alloc, hn] using hmade)
  · exact h.slot s o c ho (hold (hwf.slot s o ho) hmade) hc
  · rcases update_eq_some ho with ⟨rfl, hin⟩ | ⟨ha, hin⟩
    · obtain ⟨b, rfl, hedge⟩ := hgraph k o c hin (hold (hcont k o hin) hmade) hc
      exact ⟨b, by simp [Heap.alloc], hedge⟩
    · obtain ⟨b, hb, hedge⟩ := h.cell a k o c hin (hold (hwf.cell a k o hin).2 hmade) hc
      exact ⟨b, by simpa [Heap.alloc, ha] using hb, hedge⟩
  · exact h.kept o c ho (hold (hwf.kept o ho) hmade)
  · exact h.passed o c ho (hold (hwf.passed o ho) hmade)

theorem Confined.keep (h : Confined input N T σ) {vs : List (Option ObjId)}
    (hvs : ∀ o, some o ∈ vs → Free N σ o) : Confined input N T (σ.keep vs) :=
  ⟨h.made, h.slot, h.cell, fun o c ho => ho.elim (h.kept o c) fun ho => hvs o ho c, h.passed⟩

/-- A new object without closures of the verdict, put into a slot. -/
theorem Confined.allocated (h : Confined input N T σ) (hwf : σ.Wf) {s : SlotId}
    (hcont : ∀ k o, contents k = some o → Free N σ o ∧ o < σ.next) :
    Confined input N T ((σ.alloc contents none).setSlot s (some σ.next)) := by
  refine (h.alloc hwf (by intro s hs; cases hs) (fun k o ho => (hcont k o ho).2) fun k o c ho hmade hc =>
    absurd hc ((hcont k o ho).1 c hmade)).setSlot fun o c ho hmade => ?_
  rw [← Option.some.inj ho] at hmade
  simp [Heap.alloc] at hmade

/-! ### One step and a run -/

theorem mem_collectClosureSlots {mir : MirFunction} (hmem : stmt ∈ mir.allStatements)
    {slot : SlotId} {ops : List Operand} (hkind : stmt.kind = .closureCapture slot ops) :
    slot ∈ collectClosureSlots mir :=
  List.mem_dedup.mpr (List.mem_filterMap.mpr ⟨stmt, hmem, by rw [hkind]⟩)

theorem mem_buildClosureCaptureGraph {mir : MirFunction} (hmem : stmt ∈ mir.allStatements) {slot : SlotId}
    {ops : List Operand} (hkind : stmt.kind = .closureCapture slot ops) {op : Operand} (hop : op ∈ ops)
    (hroot : operandRootSlot op = some c) (hc : c ∈ collectClosureSlots mir) :
    c ∈ buildClosureCaptureGraph mir (collectClosureSlots mir) slot := by
  refine List.mem_flatMap.mpr ⟨stmt, hmem, ?_⟩
  rw [hkind]
  simp only [if_true, List.mem_filter]
  exact ⟨List.mem_filterMap.mpr ⟨op, hop, hroot⟩, by simpa using hc⟩

theorem Confined.effect (h : Confined input N T σ) (hN : Verdict input N T) (hwf : σ.Wf) {c : Cursor}
    (hstmt : stmtAt input.mir c = some stmt) (hcareful : CarefulAt input ⟨c, σ⟩)
    (he : Effect σ stmt.kind σ') :
    Confined input N T σ' := by
  have hmem := mem_allStatements hstmt
  -- operands that go to a sink are not closures with the verdict
  have hfree : ∀ {ops vs}, EvalsAll σ ops vs →
      (stmt.kind.keeps = some ops ∨ ∃ s, stmt.kind.containerStore = some (s, ops)) →
      ∀ o, some o ∈ vs → Free N σ o := by
    intro ops vs hops hkind o ho c hmade hc
    obtain ⟨op, hop, hev⟩ := hops.fromSlots ho
    have huses := h.evals hN hev hmade hc
    rw [(hN.stable c hc).operands hmem hkind hop] at huses
    cases huses
  generalize hk : stmt.kind = kind at he hfree
  cases he with
  | assign hrv hs =>
    rcases h.rhs hN hwf hmem hk hrv with ⟨rfl, hv⟩ | ⟨contents, rfl, rfl, hcont⟩
    · exact h.stores hv hs
    · refine (h.alloc hwf (by intro s hs; cases hs) (fun k o ho => (hcont k o ho).2)
        fun k o c ho hmade hc =>
        absurd hc ((hcont k o ho).1 c hmade)).stores (fun o c ho hmade => ?_) hs
      rw [← Option.some.inj ho] at hmade
      simp [Heap.alloc] at hmade
  | placeholder s => exact h
  | drop p => exact h
  | nop => exact h
  | keep hkind hops => exact h.keep (hfree hops (Or.inl hkind))
  | @capture s ops vs contents hops hcont =>
    obtain ⟨hzero, hroot⟩ := hcareful.capture stmt _ _ hstmt hk
    have hslot := mem_collectClosureSlots hmem hk
    refine (h.alloc hwf (fun s hs => Option.some.inj hs ▸ ⟨hslot, hzero⟩)
      (fun k o ho => hwf.evalsAll hops (hcont.1 k o ho)) fun k o c ho hmade hc => ?_).setSlot
      fun o c ho hmade hc => ?_
    · obtain ⟨op, hop, hev⟩ := hops.fromSlots (hcont.1 k o ho)
      exact ⟨_, rfl, mem_buildClosureCaptureGraph hmem hk hop (hroot op hop o c hev hmade)
        (h.made o c hmade).1⟩
    · rw [← Option.some.inj ho] at hmade
      have hcs : some s = some c := by simpa [Heap.alloc] using hmade
      rw [Option.some.inj hcs]
      exact hN.self c hc
  | storeNew hkind hops hcont =>
    exact h.allocated hwf fun k o ho =>
      ⟨hfree hops (Or.inr ⟨_, hkind⟩) o (hcont.1 k o ho), hwf.evalsAll hops (hcont.1 k o ho)⟩
  | storeInto hkind hops ho hdata hcont =>
    refine ⟨h.made, h.slot, fun a k b c hb hmade hc => ?_, h.kept, h.passed⟩
    rcases update_eq_some hb with ⟨rfl, hin⟩ | ⟨-, hold⟩
    · rcases hcont k with hkeep | ⟨w, hw, hkw⟩
      · exact h.cell a k b c (hkeep ▸ hin) hmade hc
      · exact absurd hc (hfree hops (Or.inr ⟨_, hkind⟩) b ((hkw.symm.trans hin) ▸ hw) c hmade)
    · exact h.cell a k b c hold hmade hc

/-- A callee gets at no closure with the verdict. -/
theorem Confined.callEffect (h : Confined input N T σ) (hN : Verdict input N T) (hwf : σ.Wf)
    {b : BasicBlockId} {blk : BasicBlock} (hblk : input.mir.block? b = some blk) {func : Operand}
    {args : List Operand} {dest : Place} {next : BasicBlockId}
    (hterm : blk.terminator.kind = .call func args dest next)
    (hcareful : CarefulAt input ⟨⟨b, blk.statements.length⟩, σ⟩)
    (hcall : CallEffect input.mir σ func args dest σ') : Confined input N T σ' := by
  obtain ⟨hf, hargs, hran, hv, hs⟩ := hcall
  rename_i f vs σ₁ v
  obtain ⟨hfunc, htransparent⟩ := hcareful.call blk func args dest next hblk rfl hterm
  have hargFree : ∀ o, some o ∈ vs → Free N σ o := by
    intro o ho c hmade hc
    obtain ⟨i, hi⟩ := List.mem_iff_getElem?.mp ho
    obtain ⟨arg, harg, hev⟩ := Fallible.forall₂_getElem?_right hargs hi
    have hbit := (hN.stable c hc).arg (MirFunction.block?_mem hblk) hterm harg (h.evals hN hev hmade hc)
    rw [htransparent i arg o harg hbit hev] at hmade
    cases hmade
  have hlt : ∀ o, some o ∈ vs → o < σ.next := fun o ho => hwf.evalsAll hargs ho
  have hacc : ∀ o, Accessible σ f vs o → Free N σ o := by
    rintro o ⟨r, hr, hreach⟩
    rcases hr with hr | hr | ⟨g, k, rfl, hr⟩
    · exact h.free_of_reach hN (hargFree r hr) hreach
    · exact h.free_of_reach hN (h.kept r · hr) hreach
    · exact free_of_none (hfunc g k r o hf hr hreach)
  -- what the callee made is no closure of this frame
  have hprod : ∀ w, Produced σ f vs σ₁.next w → ∀ o, w = some o → Free N σ o := by
    intro w hw o ho c hmade
    rcases hw o ho with ha | hnew
    · exact hacc o ha c hmade
    · exact absurd (hwf.made o c hmade) (Nat.not_lt.mpr hnew.1)
  have h₁ : Confined input N T σ₁ := by
    refine ⟨fun o c hmade => ?_, fun s o c ho hmade hc => ?_, fun a k o c ho hmade hc => ?_,
      fun o c ho hmade hc => ?_, fun o c ho hmade hc => ?_⟩
    · exact h.made o c (hran.made ▸ hmade)
    · rw [hran.made] at hmade
      rcases hran.slot s with hsame | ⟨-, hp⟩
      · exact h.slot s o c (hsame ▸ ho) hmade hc
      · exact absurd hc (hprod _ hp o ho c hmade)
    · rw [hran.made] at hmade ⊢
      rcases hran.cell a k with hsame | ⟨-, hp⟩
      · exact h.cell a k o c (hsame ▸ ho) hmade hc
      · exact absurd hc (hprod _ hp o ho c hmade)
    · rw [hran.made] at hmade
      rcases hran.kept o ho with ho | hp
      · exact h.kept o c ho hmade hc
      · exact hprod _ hp o rfl c hmade hc
    · rw [hran.made] at hmade
      rw [hran.passed] at ho
      rcases ho with ho | ho
      · exact h.passed o c ho hmade hc
      · exact hargFree o ho c hmade hc
  refine h₁.stores (fun o c ho hmade hc => ?_) hs
  rw [hran.made] at hmade
  exact absurd hc (hprod _ hv o ho c hmade)

end

/-- A frame that has not made a closure yet, at the entry of the function. -/
structure Starts (mir : MirFunction) (x : Config) : Prop where
  cursor : x.cursor = entryCursor mir
  wf : x.heap.Wf
  made : ∀ o, x.heap.made o = none

/-- A step of an execution whose start is careful. -/
def CarefulStep (input : StoragePlannerInput) (x y : Config) : Prop :=
  CarefulAt input x ∧ HeapStep input.mir x y

theorem Confined.step {input : StoragePlannerInput} {N : List SlotId} {T : SlotId → List SlotId}
    {x y : Config} (h : Confined input N T x.heap) (hN : Verdict input N T) (hwf : x.heap.Wf)
    (hs : CarefulStep input x y) :
    Confined input N T y.heap := by
  obtain ⟨hcareful, hs⟩ := hs
  cases hs with
  | statement hstmt he => exact h.effect hN hwf hstmt hcareful he
  | jump => exact h
  | call hblk hterm hcall => exact h.callEffect hN hwf hblk hterm hcareful hcall

theorem Confined.run {input : StoragePlannerInput} {N : List SlotId} {T : SlotId → List SlotId}
    {x y : Config} (hN : Verdict input N T) (hx : Starts input.mir x)
    (hrun : Relation.ReflTransGen (CarefulStep input) x y) :
    Confined input N T y.heap ∧ y.heap.Wf := by
  induction hrun with
  | refl =>
    have hnone : ∀ {o c}, x.heap.made o = some c → False := fun hmade => by
      rw [hx.made] at hmade
      cases hmade
    exact ⟨⟨fun _ _ hmade => (hnone hmade).elim, fun _ _ _ _ hmade => (hnone hmade).elim,
      fun _ _ _ _ _ hmade => (hnone hmade).elim, fun _ _ _ hmade => (hnone hmade).elim,
      fun _ _ _ hmade => (hnone hmade).elim⟩, hx.wf⟩
  | tail _ hstep ih => exact ⟨ih.1.step hN ih.2 hstep, ih.2.step hstep.2⟩

/-- **A closure with the verdict stays in the frame**: in every execution of careful steps it is never in
reach of the return slot, of what outlives the frame, or of an argument of a call. -/
theorem nonEscaping_sound (input : StoragePlannerInput) (fuel : Nat) (N : List SlotId)
    (h : detectNonEscapingClosureSlots input fuel = some N) (x y : Config) (hx : Starts input.mir x)
    (hrun : Relation.ReflTransGen (CarefulStep input) x y) (o : ObjId) (c : SlotId)
    (hmade : y.heap.made o = some c) (hc : c ∈ N) : ¬ LeavesFrame y.heap o := by
  obtain ⟨T, hN⟩ := exists_verdict h
  obtain ⟨hconf, -⟩ := Confined.run hN hx hrun
  rintro ⟨r, hr, hreach⟩
  refine hconf.free_of_reach hN (fun c' hmade' hc' => ?_) hreach c hmade hc
  rcases hr with hr | hr | hr
  · exact hN.zero c' hc' (hconf.made r c' hmade').2 (hconf.slot 0 r c' hr hmade' hc')
  · exact hconf.kept r c' hr hmade' hc'
  · exact hconf.passed r c' hr hmade' hc'

/-! ### Two closures -/

theorem emptyHeap_starts (mir : MirFunction) : Starts mir ⟨entryCursor mir, emptyHeap⟩ where
  cursor := rfl
  wf := ⟨nofun, nofun, nofun, nofun, nofun⟩
  made _ := rfl

/-- A planner input without storage classes and callee summaries. -/
def bareInput (mir : MirFunction) : StoragePlannerInput := ⟨mir, fun _ => none, none⟩

/-- `f` captures a variable, `g` captures `f` from where it was made, both stay. -/
def localPairMir : MirFunction :=
  bareFunction (straightLine [.closureCapture 1 [.copy (.localSlot 4)],
    .closureCapture 2 [.copy (.localSlot 1)], .assign (.localSlot 3) (.use (.move (.localSlot 2)))]) 5
    (by decide) (by decide) (by decide) (by decide)

/-- `let f = …; let g = …` where `g` captures the variable `f`, and `g` is returned. -/
def returnedPairMir : MirFunction :=
  bareFunction (straightLine [.closureCapture 1 [.copy (.localSlot 4)],
    .assign (.localSlot 2) (.use (.move (.localSlot 1))), .closureCapture 3 [.copy (.localSlot 2)],
    .assign (.localSlot 0) (.use (.move (.localSlot 3)))]) 5
    (by decide) (by decide) (by decide) (by decide)

theorem localPairMir_run : ∃ y, Relation.ReflTransGen (CarefulStep (bareInput localPairMir))
    ⟨entryCursor localPairMir, emptyHeap⟩ y ∧ y.heap.made 0 = some 1 := by
  let σ₁ := (emptyHeap.alloc (fun _ => none) (some 1)).setSlot 1 (some 0)
  let σ₂ := (σ₁.alloc (holding 0) (some 2)).setSlot 2 (some 1)
  let σ₃ := σ₂.setSlot 3 (some 1)
  -- there are no calls, and the captures read the slot of the closure
  have hcareful : ∀ (σ : Heap) (i : Nat), (∀ stmt slot ops, stmtAt localPairMir ⟨0, i⟩ = some stmt →
      stmt.kind = .closureCapture slot ops → slot ≠ 0 ∧ ∀ op ∈ ops, ∀ o c, Evals σ op (some o) →
        σ.made o = some c → operandRootSlot op = some c) →
      CarefulAt (bareInput localPairMir) ⟨⟨0, i⟩, σ⟩ := by
    refine fun σ i hcap => ⟨hcap, fun blk func args dest next hblk _ hterm => ?_⟩
    obtain rfl := Option.some.inj hblk
    cases hterm
  have h₁ : CarefulStep (bareInput localPairMir) ⟨⟨0, 0⟩, emptyHeap⟩ ⟨⟨0, 1⟩, σ₁⟩ := by
    refine ⟨hcareful _ 0 fun stmt slot ops hstmt hkind => ?_,
      .statement rfl (.capture (.cons (.place rfl (.localSlot 4)) .nil) holds_none)⟩
    obtain rfl := Option.some.inj hstmt
    cases hkind
    exact ⟨by decide, fun op _ o c _ hmade => by cases hmade⟩
  have h₂ : CarefulStep (bareInput localPairMir) ⟨⟨0, 1⟩, σ₁⟩ ⟨⟨0, 2⟩, σ₂⟩ := by
    refine ⟨hcareful _ 1 fun stmt slot ops hstmt hkind => ?_,
      .statement rfl (.capture (.cons (.place rfl (.localSlot 1)) .nil) (holds_holding 0))⟩
    obtain rfl := Option.some.inj hstmt
    cases hkind
    refine ⟨by decide, fun op hop o c hev hmade => ?_⟩
    obtain rfl := List.mem_singleton.mp hop
    have hc : c = 1 := by
      by_cases h0 : o = 0
      · subst h0
        exact (Option.some.inj hmade).symm
      · have hnone : σ₁.made o = none := by simp [σ₁, Heap.alloc, Heap.setSlot, emptyHeap, h0]
        cases hnone.symm.trans hmade
    rw [hc]
    rfl
  have h₃ : CarefulStep (bareInput localPairMir) ⟨⟨0, 2⟩, σ₂⟩ ⟨⟨0, 3⟩, σ₃⟩ := by
    refine ⟨hcareful _ 2 fun stmt slot ops hstmt hkind => ?_,
      .statement rfl (.assign (.use (.place rfl (.localSlot 2))) (.localSlot 3))⟩
    obtain rfl := Option.some.inj hstmt
    cases hkind
  exact ⟨⟨⟨0, 3⟩, σ₃⟩, .tail (.tail (.tail .refl h₁) h₂) h₃, rfl⟩

/-- Both closures have the verdict; neither leaves. -/
theorem nonEscaping_sound_localPair : ∃ y, Relation.ReflTransGen (CarefulStep (bareInput localPairMir))
    ⟨entryCursor localPairMir, emptyHeap⟩ y ∧ y.heap.made 0 = some 1 ∧ ¬ LeavesFrame y.heap 0 := by
  obtain ⟨y, hrun, hmade⟩ := localPairMir_run
  exact ⟨y, hrun, hmade, nonEscaping_sound (bareInput localPairMir) 3 [1, 2] (by decide) _ y
    (emptyHeap_starts localPairMir) hrun 0 1 hmade (by decide)⟩

/-- A closure that is captured through the variable it is bound to gets the verdict, and leaves inside the
closure that is returned. -/
theorem captured_alias_leaves : ¬ ∀ (input : StoragePlannerInput) (fuel : Nat) (N : List SlotId),
    detectNonEscapingClosureSlots input fuel = some N → ∀ x y, Starts input.mir x →
    Relation.ReflTransGen (HeapStep input.mir) x y → ∀ o c, y.heap.made o = some c → c ∈ N →
      ¬ LeavesFrame y.heap o := by
  intro h
  let σ₁ := (emptyHeap.alloc (fun _ => none) (some 1)).setSlot 1 (some 0)
  let σ₂ := σ₁.setSlot 2 (some 0)
  let σ₃ := (σ₂.alloc (holding 0) (some 3)).setSlot 3 (some 1)
  let σ₄ := σ₃.setSlot 0 (some 1)
  have h₁ : HeapStep returnedPairMir ⟨⟨0, 0⟩, emptyHeap⟩ ⟨⟨0, 1⟩, σ₁⟩ :=
    .statement rfl (.capture (.cons (.place rfl (.localSlot 4)) .nil) holds_none)
  have h₂ : HeapStep returnedPairMir ⟨⟨0, 1⟩, σ₁⟩ ⟨⟨0, 2⟩, σ₂⟩ :=
    .statement rfl (.assign (.use (.place rfl (.localSlot 1))) (.localSlot 2))
  have h₃ : HeapStep returnedPairMir ⟨⟨0, 2⟩, σ₂⟩ ⟨⟨0, 3⟩, σ₃⟩ :=
    .statement rfl (.capture (.cons (.place rfl (.localSlot 2)) .nil) (holds_holding 0))
  have h₄ : HeapStep returnedPairMir ⟨⟨0, 3⟩, σ₃⟩ ⟨⟨0, 4⟩, σ₄⟩ :=
    .statement rfl (.assign (.use (.place rfl (.localSlot 3))) (.localSlot 0))
  refine h (bareInput returnedPairMir) 3 [1] (by decide) _ ⟨⟨0, 4⟩, σ₄⟩ (emptyHeap_starts returnedPairMir)
    (.tail (.tail (.tail (.tail .refl h₁) h₂) h₃) h₄) 0 1 rfl (by decide) ⟨1, Or.inl rfl, ?_⟩
  exact reach_of_cell (k := .elem 0) rfl

end ShapeLang.Mir
