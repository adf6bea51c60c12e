import ShapeLang.Mir.ClosureEscape
import ShapeLang.Mir.Hidden

/-!
# ShapeLang — parameters that do not escape

The per-parameter bit of a function's borrow summary (`param_slot_escapes` in
`crates/shape-vm/src/mir/solver.rs`), by which a caller learns that an argument does not outlive the
call. It is the walk for closure slots over again, except that a capture is a sink here and that any
argument of a call is.

The walk follows a value from the slot of its parameter. It says nothing of a value that comes in by
another way as well, through a second parameter or a module binding; and a closure may be *called*
without escaping, also one that has the argument among its captures and hands it back. Nor does it
say anything of these.

  * `paramSlotEscapes` — the bit;
  * `ParamStable` — the set of slots the walk ends with;
  * `OwnArgument`, `DetachedAt` — what the bit rests on, of the entry and of one step;
  * `nonEscaping_argument_stays` — then an argument with a negative bit is never in reach of the
    return slot, of what outlives the frame, of an argument of a call or of what a closure captured.
-/

namespace ShapeLang.Mir

open ObjectGraph

/-! ## The analysis -/

/-- One statement of the walk: the widened set, or `none` when a sink is found. -/
def trackParamStatement (tracked : List SlotId) : StatementKind → Option (List SlotId)
  | .closureCapture _ operands =>
    if operands.any (operandUsesAnySlot · tracked) then none else some tracked
  | kind => trackStatement tracked kind

/-- A callee may store any argument. -/
def callPasses (tracked : List SlotId) : TerminatorKind → Bool
  | .call _ args _ _ => args.any (operandUsesAnySlot · tracked)
  | _ => false

def trackParamBlock (tracked : List SlotId) (block : BasicBlock) : Option (List SlotId) := do
  let tracked ← block.statements.foldlM (fun tracked stmt => trackParamStatement tracked stmt.kind) tracked
  if callPasses tracked block.terminator.kind then none else some tracked

section

variable (mir : MirFunction)

def trackParamLoop : Nat → List SlotId → Option Bool
  | 0, _ => none
  | fuel + 1, tracked =>
    match mir.blocks.foldlM trackParamBlock tracked with
    | none => some true
    | some widened => if widened = tracked then some false else trackParamLoop fuel widened

def paramSlotEscapes (fuel : Nat) (paramSlot : SlotId) : Option Bool := trackParamLoop mir fuel [paramSlot]

end

/-! ## The set the walk ends with -/

/-- No statement and no call finds the set at a sink, and none widens it. -/
structure ParamStable (mir : MirFunction) (tracked : List SlotId) : Prop where
  statement : ∀ stmt ∈ mir.allStatements, trackParamStatement tracked stmt.kind = some tracked
  terminator : ∀ block ∈ mir.blocks, callPasses tracked block.terminator.kind = false

section

variable {mir : MirFunction} {tracked tracked' T : List SlotId}

theorem trackParamStatement_widens {kind : StatementKind}
    (h : trackParamStatement tracked kind = some tracked') : Widens tracked tracked' := by
  unfold trackParamStatement at h
  split at h
  · split at h
    · cases h
    · obtain rfl := Option.some.inj h
      exact .refl _
  · exact trackStatement_widens h

theorem trackParamBlock_spec {block : BasicBlock} (h : trackParamBlock tracked block = some tracked') :
    block.statements.foldlM (fun tracked stmt => trackParamStatement tracked stmt.kind) tracked =
      some tracked' ∧
      callPasses tracked' block.terminator.kind = false := by
  obtain ⟨t, ht, h⟩ := Option.bind_eq_some_iff.mp h
  split at h
  · cases h
  · rename_i hterm
    obtain rfl := Option.some.inj h
    exact ⟨ht, by simpa using hterm⟩

theorem trackParamBlock_widens {block : BasicBlock} (h : trackParamBlock tracked block = some tracked') :
    Widens tracked tracked' :=
  foldlM_widens (fun _ _ _ h => trackParamStatement_widens h) (trackParamBlock_spec h).1

/-- A negative bit leaves a stable set around the parameter, without the return slot. -/
theorem paramSlotEscapes_false {fuel : Nat} {p : SlotId} (h : paramSlotEscapes mir fuel p = some false) :
    ∃ T, ParamStable mir T ∧ p ∈ T ∧ (p ≠ 0 → 0 ∉ T) := by
  obtain ⟨T, hT, hwide⟩ := exists_fixed_of_loop (fun _ => rfl) (fun _ _ => rfl)
    (fun t t' h => foldlM_widens (fun _ _ _ h => trackParamBlock_widens h) h) h
  have hblock := foldlM_eq_self List.length
    (fun t b t' h => ⟨(trackParamBlock_widens h).length_le, (trackParamBlock_widens h).eq_of_length⟩) hT
  refine ⟨T, ⟨fun stmt hstmt => ?_, fun block hb => (trackParamBlock_spec (hblock block hb)).2⟩,
    hwide.keeps p List.mem_cons_self, fun hp h0 => ?_⟩
  · obtain ⟨block, hb, hmem⟩ := List.mem_flatMap.mp hstmt
    exact foldlM_eq_self List.length
      (fun t s t' h => ⟨(trackParamStatement_widens h).length_le,
        (trackParamStatement_widens h).eq_of_length⟩)
      (trackParamBlock_spec (hblock block hb)).1 stmt hmem
  · rcases hwide.new 0 h0 with h0 | h0
    · exact hp (List.mem_singleton.mp h0).symm
    · exact h0 rfl

/-! ### What stability says of a statement -/

theorem operandUsesAnySlot_of_uses {op : Operand} {s : SlotId} (h : operandUsesSlot op s = true)
    (hs : s ∈ T) :
    operandUsesAnySlot op T = true := by
  unfold operandUsesSlot at h
  unfold operandUsesAnySlot
  cases hp : op.place? with
  | none => simp [hp] at h
  | some place =>
    have hroot : place.rootLocal = s := by simpa [hp] using h
    simpa [hroot] using hs

theorem rvalueUsesAnySlot_of_uses {rv : Rvalue} {s : SlotId} (h : rvalueUsesSlot rv s = true) (hs : s ∈ T) :
    rvalueUsesAnySlot rv T = true := by
  have hops : rv.operands.any (operandUsesSlot · s) = true → rv.operands.any
      (operandUsesAnySlot · T) = true := by
    intro hany
    obtain ⟨op, hop, huses⟩ := List.any_eq_true.mp hany
    exact List.any_eq_true.mpr ⟨op, hop, operandUsesAnySlot_of_uses huses hs⟩
  cases rv with
  | borrow kind place =>
    have hroot : place.rootLocal = s := by simpa [rvalueUsesSlot] using h
    simpa [rvalueUsesAnySlot, hroot] using hs
  | _ => exact hops h

theorem ParamStable.assign (h : ParamStable mir T) {stmt : MirStatement} (hmem : stmt ∈ mir.allStatements)
    {place : Place} {rv : Rvalue} (hkind : stmt.kind = .assign place rv)
    (huses : rvalueUsesAnySlot rv T = true) :
    ∃ d, place = .localSlot d ∧ d ∈ T := by
  have hstmt := h.statement stmt hmem
  rw [hkind] at hstmt
  cases place with
  | localSlot d =>
    simp only [trackParamStatement, trackStatement] at hstmt
    split at hstmt
    · cases hstmt
    · split at hstmt
      · cases hstmt
      · exact ⟨d, rfl, by rw [← Option.some.inj hstmt]; exact List.mem_insert_self⟩
  | _ => simp [trackParamStatement, trackStatement, huses] at hstmt

/-- Operands that go into an object or out of the frame are not tracked. -/
theorem ParamStable.operands (h : ParamStable mir T) {stmt : MirStatement} (hmem : stmt ∈ mir.allStatements)
    {ops : List Operand}
    (hkind : stmt.kind.keeps = some ops ∨ (∃ s, stmt.kind.containerStore = some (s, ops)) ∨
      ∃ s, stmt.kind = .closureCapture s ops) {op : Operand} (hop : op ∈ ops) :
    operandUsesAnySlot op T = false := by
  have hstmt := h.statement stmt hmem
  have hall : ops.any (operandUsesAnySlot · T) = false := by
    generalize stmt.kind = kind at hkind hstmt
    cases kind <;> simp only [StatementKind.keeps, StatementKind.containerStore, reduceCtorEq,
      Option.some.injEq, Prod.mk.injEq, StatementKind.closureCapture.injEq, exists_false, or_false,
        false_or,
      exists_eq_left'] at hkind
    all_goals
      subst hkind
      simp only [trackParamStatement, trackStatement] at hstmt
      split at hstmt
      · cases hstmt
      · simp_all
  simpa using List.any_eq_false.mp hall op hop

theorem ParamStable.arg (h : ParamStable mir T) {block : BasicBlock} (hmem : block ∈ mir.blocks)
    {func : Operand} {args : List Operand} {dest : Place} {next : BasicBlockId}
    (hkind : block.terminator.kind = .call func args dest next) {arg : Operand}
    (harg : arg ∈ args) :
    operandUsesAnySlot arg T = false := by
  have hterm := h.terminator block hmem
  rw [hkind] at hterm
  simpa using List.any_eq_false.mp hterm arg harg

end

/-! ## Executions -/

/-- A frame at the entry of the function, with `o` as the argument of the parameter. The return slot
belongs to no parameter. -/
structure EntersWith (mir : MirFunction) (p : SlotId) (o : ObjId) (x : Config) : Prop where
  cursor : x.cursor = entryCursor mir
  wf : x.heap.Wf
  param : p ∈ mir.paramSlots
  nonzero : p ≠ 0
  argument : x.heap.slot p = some o
  locals : ∀ s, s ∉ mir.paramSlots → x.heap.slot s = none
  made : ∀ a, x.heap.made a = none
  passed : x.heap.passed = ∅

/-- The argument comes in through its parameter only. -/
structure OwnArgument (σ : Heap) (p : SlotId) (o : ObjId) : Prop where
  slot : ∀ s r, σ.slot s = some r → Reach σ.cell r o → s = p
  kept : ∀ r ∈ σ.kept, ¬ Reach σ.cell r o

/-- A closure that is called holds nothing that leads to the object. -/
def DetachedAt (mir : MirFunction) (o : ObjId) (x : Config) : Prop :=
  ∀ blk func args dest next, mir.block? x.cursor.block = some blk → x.cursor.idx = blk.statements.length →
    blk.terminator.kind = .call func args dest next → ∀ f k r, Evals x.heap func (some f) →
      x.heap.cell f k = some r → ¬ Reach x.heap.cell r o

def DetachedStep (mir : MirFunction) (o : ObjId) (x y : Config) : Prop :=
  DetachedAt mir o x ∧ HeapStep mir x y

/-- The object is in reach of the return slot, of a module binding or a task, of an argument of a
call, or of what a closure of this frame captured. -/
def ArgumentEscapes (σ : Heap) (o : ObjId) : Prop :=
  ∃ r, (σ.slot 0 = some r ∨ r ∈ σ.kept ∨ r ∈ σ.passed ∨ ∃ f k s, σ.made f = some s ∧ σ.cell f k = some r) ∧
    Reach σ.cell r o

/-- Everything but the tracked slots. -/
def outsideTracked (T : List SlotId) (passed : Set ObjId) : Outside :=
  ⟨fun s => s ∉ T, fun r => r ∈ passed, True⟩

section

variable {mir : MirFunction} {T : List SlotId} {passed : Set ObjId} {σ σ₁ σ' : Heap}
  {v : Option ObjId} {o : ObjId}

/-- What leads to the object is read from a tracked slot. -/
theorem Hidden.tracked (h : Hidden (outsideTracked T passed) σ o) {uses : SlotId → Bool}
    (hfrom : FromSlots σ uses o) : ∃ s ∈ T, uses s = true := by
  obtain ⟨s, r, hs, hr, hreach⟩ := hfrom
  by_cases hT : s ∈ T
  · exact ⟨s, hT, hs⟩
  · exact absurd hreach (h r (.slot hT hr))

theorem Hidden.operand_tracked (h : Hidden (outsideTracked T passed) σ o) {op : Operand}
    (hfrom : FromSlots σ (operandUsesSlot op) o) : operandUsesAnySlot op T = true := by
  obtain ⟨s, hT, hs⟩ := h.tracked hfrom
  exact operandUsesAnySlot_of_uses hs hT

theorem Hidden.rvalue_tracked (h : Hidden (outsideTracked T passed) σ o) {rv : Rvalue}
    (hfrom : FromSlots σ (rvalueUsesSlot rv) o) : rvalueUsesAnySlot rv T = true := by
  obtain ⟨s, hT, hs⟩ := h.tracked hfrom
  exact rvalueUsesAnySlot_of_uses hs hT

theorem Rhs.passed_eq {rv : Rvalue} (h : Rhs σ rv σ₁ v) : σ₁.passed = σ.passed := by
  rcases h.cases with ⟨rfl, -⟩ | ⟨contents, rfl, -, -⟩
  · rfl
  · rfl

theorem Effect.passed_eq (hwf : σ.Wf) {kind : StatementKind} (h : Effect σ kind σ') :
    σ'.passed = σ.passed := by
  cases h with
  | assign hrv hs => exact (hs.writesThrough (hwf.rhs hrv).1).passed.trans hrv.passed_eq
  | _ => rfl

/-- A call adds no reference to an object that it is not given and that the closure it calls does
not hold. -/
theorem Hidden.call (h : Hidden (outsideTracked T passed) σ o) (hT : ParamStable mir T) (hwf : σ.Wf)
    (ho : o < σ.next) {b : BasicBlockId} {blk : BasicBlock} (hblk : mir.block? b = some blk)
    {func : Operand} {args : List Operand} {dest : Place} {next : BasicBlockId}
    (hterm : blk.terminator.kind = .call func args dest next)
    (hdetached : DetachedAt mir o ⟨⟨b, blk.statements.length⟩, σ⟩)
    (hcall : CallEffect mir σ func args dest σ') :
    AddsNoReference σ σ' o := by
  refine hcall.addsNoReference_of_accessible hwf ho fun f vs hf hargs a hacc hao => ?_
  obtain ⟨r, hr, hra⟩ := hacc
  rcases hr with hr | hr | ⟨g, k, rfl, hr⟩
  · obtain ⟨op, hop, hev⟩ := hargs.fromSlots hr
    have huses := h.operand_tracked (hev.fromSlots.reach (hra.trans hao))
    rw [hT.arg (MirFunction.block?_mem hblk) hterm hop] at huses
    cases huses
  · exact h r (.kept hr) (hra.trans hao)
  · exact hdetached blk func args dest next hblk rfl hterm g k r hf hr (hra.trans hao)

/-- The walk's sinks guard the object. -/
theorem Hidden.guarded {x y : Config} (h : Hidden (outsideTracked T passed) x.heap o)
    (hT : ParamStable mir T) (hwf : x.heap.Wf) (ho : o < x.heap.next)
    (hs : DetachedStep mir o x y) :
    Guarded (outsideTracked T passed) mir o x y ∧ GuardedLocal (outsideTracked T passed) mir o x := by
  have hoperand : ∀ {stmt ops op}, stmtAt mir x.cursor = some stmt →
      (stmt.kind.keeps = some ops ∨ (∃ s, stmt.kind.containerStore = some (s, ops)) ∨
        ∃ s, stmt.kind = .closureCapture s ops) → op ∈ ops → ¬ FromSlots x.heap (operandUsesSlot op) o := by
    intro stmt ops op hstmt hkind hop hfrom
    have huses := h.operand_tracked hfrom
    rw [hT.operands (mem_allStatements hstmt) hkind hop] at huses
    cases huses
  have hassign : ∀ {stmt place rv}, stmtAt mir x.cursor = some stmt → stmt.kind = .assign place rv →
      FromSlots x.heap (rvalueUsesSlot rv) o → ∃ d, place = .localSlot d ∧ d ∈ T :=
    fun hstmt hkind hfrom => hT.assign (mem_allStatements hstmt) hkind (h.rvalue_tracked hfrom)
  refine ⟨⟨?_, ?_, ?_, ?_, ?_⟩, ?_⟩
  · exact fun stmt ops op hstmt hkind hop => hoperand hstmt (Or.inl hkind) hop
  · exact fun stmt s ops op hstmt hkind hop hfrom =>
      absurd hfrom (hoperand hstmt (Or.inr (Or.inl ⟨s, hkind⟩)) hop)
  · exact fun stmt s ops op hstmt hkind hop hfrom =>
      absurd hfrom (hoperand hstmt (Or.inr (Or.inr ⟨s, hkind⟩)) hop)
  · intro stmt place rv hstmt hkind hplace hfrom
    obtain ⟨d, hd, -⟩ := hassign hstmt hkind hfrom
    exact absurd hd (hplace d)
  · intro blk func args dest next op hblk hidx hterm _ _
    obtain ⟨hdetached, hstep⟩ := hs
    cases hstep with
    | statement hstmt _ =>
      -- the cursor is behind the last statement
      rw [stmtAt, MirFunction.statements_of_block? hblk] at hstmt
      exact absurd hidx (Nat.ne_of_lt (List.getElem?_eq_some_iff.mp hstmt).1)
    | jump hblk' hno _ =>
      obtain rfl := Option.some.inj (hblk.symm.trans hblk')
      exact absurd hterm (hno func args dest next)
    | call hblk' hterm' hcall => exact h.call hT hwf ho hblk' hterm' hdetached hcall
  · intro stmt d rv hstmt hkind hfrom hout
    obtain ⟨d', hd, hmem⟩ := hassign hstmt hkind hfrom
    rw [← Place.localSlot.inj hd] at hmem
    exact hout hmem

end

/-- One step keeps the argument out of reach of everything but the tracked slots. -/
theorem Hidden.detachedStep {mir : MirFunction} {T : List SlotId} {o : ObjId} {x y : Config}
    (h : Hidden (outsideTracked T x.heap.passed) x.heap o) (hT : ParamStable mir T) (hwf : x.heap.Wf)
    (ho : o < x.heap.next) (hs : DetachedStep mir o x y) :
    Hidden (outsideTracked T y.heap.passed) y.heap o := by
  obtain ⟨hg, hlocal⟩ := h.guarded hT hwf ho hs
  have hy := h.step hwf (fun r hr => hwf.passed r hr) ho hg hlocal hs.2
  -- only a call passes more objects, and none of them leads to the argument
  have hpassed : ∀ r ∈ y.heap.passed, ¬ Reach y.heap.cell r o := by
    intro r hr
    obtain ⟨hdetached, hstep⟩ := hs
    cases hstep with
    | statement hstmt he => exact hy r (.object (he.passed_eq hwf ▸ hr))
    | jump => exact hy r (.object hr)
    | @call b blk func args dest next σ σ' hblk hterm hcall =>
      have hadd := h.call hT hwf ho hblk hterm hdetached hcall
      intro hreach
      have hold : Reach σ.cell r o := by
        rcases reach_of_added (W := {b | ¬ Reach σ.cell b o}) hadd.cell hreach with hold | ⟨w, hw, hwo⟩
        · exact hold
        · exact absurd hwo hw
      obtain ⟨hf, hargs, hran, -, hst⟩ := hcall
      rw [(hst.writesThrough (hwf.ran (fun o ho => hwf.evalsAll hargs ho) hran)).passed, hran.passed] at hr
      rcases hr with hr | hr
      · exact h r (.object hr) hold
      · obtain ⟨op, hop, hev⟩ := hargs.fromSlots hr
        have huses := h.operand_tracked (hev.fromSlots.reach hold)
        rw [hT.arg (MirFunction.block?_mem hblk) hterm hop] at huses
        cases huses
  intro r hroot
  cases hroot with
  | object hr => exact hpassed r hr
  | kept hr => exact hy r (.kept hr)
  | slot hs hr => exact hy r (.slot hs hr)
  | captured hc hf hr => exact hy r (.captured hc hf hr)

/-- **An argument with a negative bit stays.** If it comes in through its parameter only, then along
every run in which no closure is called that holds it, it is never in reach of the return slot, of a
module binding or a task, of an argument of a call, or of what a closure of the frame captured. -/
theorem nonEscaping_argument_stays (mir : MirFunction) (fuel : Nat) (p : SlotId)
    (h : paramSlotEscapes mir fuel p = some false) (o : ObjId) (x y : Config) (hx : EntersWith mir p o x)
    (hown : OwnArgument x.heap p o) (hrun : Relation.ReflTransGen (DetachedStep mir o) x y) :
    ¬ ArgumentEscapes y.heap o := by
  obtain ⟨T, hT, hp, hzero⟩ := paramSlotEscapes_false h
  -- the argument stays hidden: only tracked slots lead to it, and these are not roots
  have hinv : Hidden (outsideTracked T y.heap.passed) y.heap o ∧ y.heap.Wf ∧ o < y.heap.next := by
    induction hrun with
    | refl =>
      -- at the entry it is in its parameter and in nothing that outlives the frame
      refine ⟨fun r hroot hreach => ?_, hx.wf, hx.wf.slot p o hx.argument⟩
      cases hroot with
      | object hr =>
        have hr' : r ∈ x.heap.passed := hr
        rw [hx.passed] at hr'
        exact hr'
      | kept hr => exact hown.kept r hr hreach
      | @slot s hs hr => exact hs (hown.slot s r hr hreach ▸ hp)
      | captured _ hf _ =>
        rw [hx.made] at hf
        cases hf
    | tail _ hstep ih =>
      obtain ⟨hhidden, hwf, ho⟩ := ih
      exact ⟨hhidden.detachedStep hT hwf ho hstep, hwf.step hstep.2, Nat.lt_of_lt_of_le ho hstep.2.next_le⟩
  -- the four ways out are roots of what it is hidden from
  rintro ⟨r, hr | hr | hr | ⟨f, k, s, hf, hr⟩, hreach⟩
  · exact hinv.1 r (.slot (hzero hx.nonzero) hr) hreach
  · exact hinv.1 r (.kept hr) hreach
  · exact hinv.1 r (.object hr) hreach
  · exact hinv.1 r (.captured trivial hf hr) hreach

/-! ## Three functions -/

/-- `fn f(a) { let b = a }` -/
def copyParamMir : MirFunction :=
  { bareFunction (straightLine [.assign (.localSlot 2) (.use (.copy (.localSlot 1)))]) 3
      (by decide) (by decide) (by decide) (by decide) with paramSlots := [1] }

/-- `fn f(a, b) { b }` -/
def secondParamMir : MirFunction :=
  { bareFunction (straightLine [.assign (.localSlot 0) (.use (.copy (.localSlot 2)))]) 3
      (by decide) (by decide) (by decide) (by decide) with paramSlots := [1, 2] }

/-- `fn f(a) { a() }` -/
def callParamMir : MirFunction :=
  { bareFunction [⟨0, [], ⟨.call (.copy (.localSlot 1)) [] (.localSlot 0) 1, ⟨0, 0⟩⟩⟩,
    ⟨1, [], ⟨.ret, ⟨0, 0⟩⟩⟩] 2
      (by decide) (by decide) (by decide) (by decide) with paramSlots := [1] }

/-- One object, in the given slots. -/
def oneObject (slots : List SlotId) : Heap :=
  { emptyHeap with slot := fun s => if s ∈ slots then some 0 else none, next := 1 }

theorem oneObject_slot {slots : List SlotId} {s : SlotId} {r : ObjId}
    (h : (oneObject slots).slot s = some r) :
    s ∈ slots ∧ r = 0 := by
  simp only [oneObject] at h
  split at h
  · rename_i hs
    exact ⟨hs, (Option.some.inj h).symm⟩
  · cases h

theorem oneObject_enters {mir : MirFunction} {p : SlotId} (hp : p ∈ mir.paramSlots) (h0 : p ≠ 0) :
    EntersWith mir p 0 ⟨entryCursor mir, oneObject mir.paramSlots⟩ where
  cursor := rfl
  wf := by
    refine ⟨fun s o h => ?_, nofun, nofun, nofun, nofun⟩
    rw [(oneObject_slot h).2]
    exact Nat.zero_lt_one
  param := hp
  nonzero := h0
  argument := by simp [oneObject, hp]
  locals := fun s hs => by simp [oneObject, hs]
  made _ := rfl
  passed := rfl

/-- The argument of `a` stays in the frame. -/
theorem nonEscaping_argument_stays_copyParam :
    ∃ y, Relation.ReflTransGen (DetachedStep copyParamMir 0) ⟨entryCursor copyParamMir, oneObject [1]⟩ y ∧
      y.heap.slot 2 = some 0 ∧ ¬ ArgumentEscapes y.heap 0 := by
  have hstep : DetachedStep copyParamMir 0 ⟨⟨0, 0⟩, oneObject [1]⟩
      ⟨⟨0, 1⟩, (oneObject [1]).setSlot 2 (some 0)⟩ := by
    refine ⟨fun blk func args dest next hblk hidx _ => ?_,
      .statement rfl (.assign (.use (.place rfl (.localSlot 1))) (.localSlot 2))⟩
    obtain rfl := Option.some.inj hblk
    cases hidx
  have hrun := Relation.ReflTransGen.tail .refl hstep
  refine ⟨_, hrun, rfl, nonEscaping_argument_stays copyParamMir 3 1 (by decide) 0 _ _
    (oneObject_enters (by decide) (by decide)) ⟨fun s r hr _ => ?_, nofun⟩ hrun⟩
  exact List.mem_singleton.mp (oneObject_slot hr).1

/-- A closure that holds an object that holds the closure. -/
def selfHolding : Heap :=
  { emptyHeap with
    slot := fun s => if s = 1 then some 0 else none
    cell := fun a => if a = 0 then holding 1 else if a = 1 then holding 0 else fun _ => none
    next := 2 }

theorem selfHolding_wf : selfHolding.Wf := by
  refine ⟨fun s o h => ?_, fun a k b h => ?_, nofun, nofun, nofun⟩
  · simp only [selfHolding] at h
    split at h
    · rw [← Option.some.inj h]
      decide
    · cases h
  · have hheld : ∀ {o : ObjId}, holding o k = some b → b = o := fun h' =>
      Option.some.inj (List.mem_singleton.mp ((holds_holding _).1 k b h'))
    simp only [selfHolding] at h
    split at h
    · rename_i ha
      rw [ha, hheld h]
      decide
    · split at h
      · rename_i ha
        rw [ha, hheld h]
        decide
      · cases h

/-- **The bit is about the flow from the parameter.** `fn f(a, b) { b }` has a negative bit for `a`,
and returns the argument of `a` when it is that of `b` as well; `fn f(a) { a() }` has one, and
returns an object with the argument in it when the closure hands out what it captured. -/
theorem nonEscaping_argument_returned :
    (∃ x y, paramSlotEscapes secondParamMir 3 1 = some false ∧ EntersWith secondParamMir 1 0 x ∧
      Relation.ReflTransGen (DetachedStep secondParamMir 0) x y ∧ ArgumentEscapes y.heap 0) ∧
    ∃ x y, paramSlotEscapes callParamMir 3 1 = some false ∧ EntersWith callParamMir 1 0 x ∧
      OwnArgument x.heap 1 0 ∧
      Relation.ReflTransGen (HeapStep callParamMir) x y ∧ ArgumentEscapes y.heap 0 := by
  constructor
  -- the second parameter is returned, and it holds the same object
  · have hstep : DetachedStep secondParamMir 0 ⟨⟨0, 0⟩, oneObject [1, 2]⟩
        ⟨⟨0, 1⟩, (oneObject [1, 2]).setSlot 0 (some 0)⟩ := by
      refine ⟨fun blk func args dest next hblk hidx _ => ?_,
        .statement rfl (.assign (.use (.place rfl (.localSlot 2))) (.localSlot 0))⟩
      obtain rfl := Option.some.inj hblk
      cases hidx
    exact ⟨_, _, by decide, oneObject_enters (by decide) (by decide), .tail .refl hstep,
      0, Or.inl rfl, .refl 0⟩
  -- the closure runs and hands out an object that holds what it captured
  · have hran : Ran callParamMir selfHolding (some 0) []
        { selfHolding with passed := ∅ ∪ {o | some o ∈ []} } :=
      ⟨fun s => Or.inl rfl, fun a k => Or.inl rfl, le_rfl, rfl, fun o ho => Or.inl ho, fun o ho => ho, rfl⟩
    have hresult : Produced selfHolding (some 0) [] 2 (some 1) := by
      intro a ha
      obtain rfl := Option.some.inj ha
      exact Or.inl ⟨1, Or.inr (Or.inr ⟨0, .elem 0, rfl, rfl⟩), .refl 1⟩
    have hblk : callParamMir.block? 0 =
        some ⟨0, [], ⟨.call (.copy (.localSlot 1)) [] (.localSlot 0) 1, ⟨0, 0⟩⟩⟩ := rfl
    have hstep : HeapStep callParamMir ⟨⟨0, 0⟩, selfHolding⟩
        ⟨⟨1, 0⟩, { selfHolding with passed := ∅ ∪ {o | some o ∈ []} }.setSlot 0 (some 1)⟩ :=
      .call hblk rfl (.mk (.place rfl (.localSlot 1)) .nil hran hresult (.localSlot 0))
    refine ⟨⟨⟨0, 0⟩, selfHolding⟩, _, by decide,
      ⟨rfl, selfHolding_wf, by decide, by decide, rfl, fun s hs => ?_, fun _ => rfl, rfl⟩,
      ⟨fun s r hr _ => ?_, fun r hr => hr.elim⟩, .tail .refl hstep, 1, Or.inl rfl, reach_of_cell
        (k := .elem 0) rfl⟩
    · have hne : s ≠ 1 := fun h => hs (by simp [h, callParamMir])
      simp [selfHolding, hne]
    · by_contra hne
      simp [selfHolding, hne] at hr

end ShapeLang.Mir
