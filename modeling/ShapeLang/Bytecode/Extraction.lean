import ShapeLang.Bytecode.LinkOrder
import ShapeLang.Bytecode.PermissionClosure
import ShapeLang.Lib.Intern

/-!
# ShapeLang — from the program's pools to blobs and back

While it compiles, the compiler fills one pool of constants and one of strings for the whole program.
When a function is finished (`FunctionBlobBuilder::finalize`, `crates/shape-vm/src/compiler/mod.rs`),
the entries its code uses are copied into pools of its own, and the operands are changed to match. The
linker later concatenates the pools of all blobs and changes the operands again.

  * `Pools`, `scanOperand` — the first pass: what a function uses, in the order of first use;
  * `localOperand`, `foreignPass` — the second and third pass: the operands, moved;
  * `extract` — a function's blob before its dependencies are looked up;
  * `Env.entity` — what an operand stands for, in the program, in a blob and in the linked program;
  * `extract_denotes`, `Layout.remapOperand_entity` — each half keeps it;
  * `operands_preserved` — so both together do, as long as indices fit in the operands.

Indices are narrowed to sixteen bits without a check in both halves: a string id when a name is entered
in the blob's pool, and string and function indices when the linker has added its bases.
-/

namespace ShapeLang.Bytecode

open Value (NativeKind)
open Intern (Pool firstUses)

variable {κ η : Type}

/-! ## The program being compiled -/

/-- The pools that all functions share. Of a function's own record, its name. -/
structure CompilerProgram (κ : Type) where
  instructions : List Instruction
  constants : List (Constant κ)
  strings : List String
  functions : List String
  foreignFunctions : List ForeignFunctionEntry

/-- The metadata of a function that goes into its blob. -/
structure Function where
  arity : UInt16
  paramNames : List String
  localsCount : UInt16
  isClosure : Bool
  capturesCount : UInt16
  isAsync : Bool
  refParams : List Bool
  refMutates : List Bool
  mutableCaptures : List Bool
  frameDescriptor : Option FrameDescriptor

/-- What is known of a function when its code is finished: the range of its code, and what was recorded
while it was compiled. -/
structure FinishedFunction where
  name : String
  instrStart : Nat
  instrEnd : Nat
  calledFunctions : List String
  typeSchemas : List String
  requiredPermissions : PermissionSet
  func : Function
  captureKinds : List NativeKind

/-! ## First pass -/

/-- The blob's pools and the remap tables. -/
structure Pools (κ : Type) where
  constants : Pool UInt16 (Constant κ)
  strings : Pool UInt16 String
  funcRemap : UInt16 → Option UInt16
  calledFunctions : List String

/-- The dependency index of a callee, which is added if it is new. -/
def ensureCalled (called : List String) (callee : String) : List String × UInt16 :=
  match called.findIdx? (· = callee) with
  | some depIdx => (called, .ofNat depIdx)
  | none => (called ++ [callee], .ofNat called.length)

section Extract

variable (program : CompilerProgram κ)

/-- A function constant becomes a dependency index. -/
def localConstant (called : List String) (constant : Constant κ) : List String × Constant κ :=
  match constant with
  | .function fid =>
    match program.functions[fid.toNat]? with
    | some callee =>
      let (called, depIdx) := ensureCalled called callee
      (called, .function depIdx)
    | none => (called, constant)
  | .other _ => (called, constant)

/-- An index that is out of bounds stops the compiler. -/
def internConstant (st : Pools κ) (idx : UInt16) : Option (Pools κ) :=
  if (st.constants.index idx).isSome then some st
  else
    match program.constants[idx.toNat]? with
    | none => none
    | some constant =>
      let (called, constant) := localConstant program st.calledFunctions constant
      some { st with constants := st.constants.intern idx constant, calledFunctions := called }

def internString (st : Pools κ) (idx : UInt16) : Option (Pools κ) :=
  if (st.strings.index idx).isSome then some st
  else
    match program.strings[idx.toNat]? with
    | none => none
    | some text => some { st with strings := st.strings.intern idx text }

def internFunction (st : Pools κ) (fid : UInt16) : Pools κ :=
  if (st.funcRemap fid).isSome then st
  else
    match program.functions[fid.toNat]? with
    | some callee =>
      let (called, depIdx) := ensureCalled st.calledFunctions callee
      { st with funcRemap := Function.update st.funcRemap fid (some depIdx), calledFunctions := called }
    | none => st

def scanOperand (st : Pools κ) : Operand → Option (Pools κ)
  | .const idx => internConstant program st idx
  | .property idx => internString program st idx
  -- the id has thirty-two bits, the table's key sixteen
  | .name sid => internString program st sid.toUInt16
  | .typedMethodCall _ _ stringId _ => internString program st stringId
  | .function fid => some (internFunction program st fid)
  | .closureAlloc fid _ => some (internFunction program st fid)
  | _ => some st

/-- The operands of some code, one after the other. -/
def operands (instrs : List Instruction) : List Operand := instrs.filterMap (·.operand)

def scan (st : Pools κ) (ops : List Operand) : Option (Pools κ) :=
  ops.foldlM (scanOperand program) st

/-! ## Second and third pass -/

def localOperand (st : Pools κ) : Operand → Operand
  | .const idx => .const ((st.constants.index idx).getD idx)
  | .property idx => .property ((st.strings.index idx).getD idx)
  | .name sid =>
    match st.strings.index sid.toUInt16 with
    | some loc => .name loc.toUInt32
    | none => .name sid
  | .typedMethodCall methodId argCount stringId tag =>
    .typedMethodCall methodId argCount ((st.strings.index stringId).getD stringId) tag
  | .function fid => .function ((st.funcRemap fid).getD fid)
  | .closureAlloc fid escapes => .closureAlloc ((st.funcRemap fid).getD fid) escapes
  | operand => operand

def localInstruction (st : Pools κ) (instr : Instruction) : Instruction :=
  { instr with operand := instr.operand.map (localOperand st) }

/-- A foreign call's table index becomes the ordinal of the entry's hash among those of the blob. A
missing entry and a missing hash stop the compiler. -/
def foreignOperand (deps : Pool ForeignHash ForeignHash) (instr : Instruction) :
    Option (Instruction × Pool ForeignHash ForeignHash) :=
  if instr.opcode.isForeignCall then
    match instr.operand with
    | some (.foreignFunction progIdx) =>
      match program.foreignFunctions[progIdx.toNat]? with
      | none => none
      | some entry =>
        match entry.contentHash with
        | none => none
        | some hash =>
          let deps := deps.intern hash hash
          some ({ instr with operand := some (.foreignFunction ((deps.index hash).getD 0)) }, deps)
    | _ => some (instr, deps)
  else some (instr, deps)

def foreignPass : Pool ForeignHash ForeignHash → List Instruction →
    Option (List Instruction × Pool ForeignHash ForeignHash)
  | deps, [] => some ([], deps)
  | deps, instr :: instrs => do
    let (instr, deps) ← foreignOperand program deps instr
    let (instrs, deps) ← foreignPass deps instrs
    some (instr :: instrs, deps)

/-! ## The blob -/

/-- The code of a function. A range outside the program stops the compiler. -/
def globalInstructions (f : FinishedFunction) : Option (List Instruction) :=
  if f.instrStart ≤ f.instrEnd ∧ f.instrEnd ≤ program.instructions.length then
    some ((program.instructions.take f.instrEnd).drop f.instrStart)
  else none

def localBody (f : FinishedFunction) (instrs : List Instruction) (st : Pools κ)
    (deps : Pool ForeignHash ForeignHash) : Body κ where
  arity := f.func.arity
  paramNames := f.func.paramNames
  localsCount := f.func.localsCount
  isClosure := f.func.isClosure
  capturesCount := f.func.capturesCount
  isAsync := f.func.isAsync
  refParams := f.func.refParams
  refMutates := f.func.refMutates
  mutableCaptures := f.func.mutableCaptures
  frameDescriptor := f.func.frameDescriptor
  captureKinds := f.captureKinds
  instructions := instrs
  constants := st.constants.values
  strings := st.strings.values
  typeSchemas := f.typeSchemas
  foreignDependencies := deps.values

/-- Everything of the blob but the hashes of its dependencies. -/
def extract (f : FinishedFunction) : Option (FunctionBlobBuilder (Body κ)) := do
  let instrs ← globalInstructions program f
  let st ← scan program ⟨.empty, .empty, fun _ => none, f.calledFunctions⟩ (operands instrs)
  let (instrs, deps) ← foreignPass program .empty (instrs.map (localInstruction st))
  some ⟨f.name, st.calledFunctions, f.requiredPermissions, localBody f instrs st deps⟩

end Extract

/-! ## What operands stand for -/

inductive Entity (κ : Type) where
  | constant (value : κ)
  | functionConstant (name : String)
  | property (text : String)
  | name (text : String)
  | typedMethodCall (methodId argCount : UInt16) (text : String) (receiverTypeTag : UInt8)
  | function (name : String)
  | closureAlloc (name : String) (escapes : Bool)
  | foreignFunction (hash : ForeignHash)
  | immediate (operand : Operand)
  deriving DecidableEq

/-- The tables that operands are looked up in. -/
structure Env (κ : Type) where
  constants : List (Constant κ)
  strings : List String
  functions : List String
  foreignHashes : List (Option ForeignHash)

namespace Env

/-- A function constant stands for the function, under any numbering. -/
def constant (functions : List String) : Constant κ → Option (Entity κ)
  | .function fid => functions[fid.toNat]?.map .functionConstant
  | .other value => some (.constant value)

def entity (env : Env κ) : Operand → Option (Entity κ)
  | .const idx => env.constants[idx.toNat]?.bind (constant env.functions)
  | .property idx => env.strings[idx.toNat]?.map .property
  | .name sid => env.strings[sid.toNat]?.map .name
  | .typedMethodCall methodId argCount stringId tag =>
    env.strings[stringId.toNat]?.map fun text => .typedMethodCall methodId argCount text tag
  | .function fid => env.functions[fid.toNat]?.map .function
  | .closureAlloc fid escapes => env.functions[fid.toNat]?.map fun name => .closureAlloc name escapes
  | .foreignFunction idx => env.foreignHashes[idx.toNat]?.join.map .foreignFunction
  | operand => some (.immediate operand)

end Env

def CompilerProgram.env (program : CompilerProgram κ) : Env κ :=
  ⟨program.constants, program.strings, program.functions, program.foreignFunctions.map (·.contentHash)⟩

def FunctionBlobBuilder.env (x : FunctionBlobBuilder (Body κ)) : Env κ :=
  ⟨x.body.constants, x.body.strings, x.calledFunctions, x.body.foreignDependencies.map some⟩

def LinkedProgram.env (lp : LinkedProgram κ η) : Env κ :=
  ⟨lp.constants, lp.strings, lp.functions.map (·.name), lp.foreignFunctions.map (·.contentHash)⟩

/-! ## Programs the compiler works on -/

/-- The string id that an operand enters in the blob's pool. -/
def Operand.stringId : Operand → Option UInt16
  | .property idx => some idx
  | .name sid => some sid.toUInt16
  | .typedMethodCall _ _ stringId _ => some stringId
  | _ => none

/-- Function ids are ids of functions, and a foreign index is the operand of a foreign call. -/
structure CompilerProgram.WellFormed (program : CompilerProgram κ) : Prop where
  functions : ∀ instr ∈ program.instructions, ∀ fid, instr.callee = some fid →
    fid.toNat < program.functions.length
  constants : ∀ c ∈ program.constants, ∀ fid, c.callee = some fid →
    fid.toNat < program.functions.length
  foreign : ∀ instr ∈ program.instructions, ∀ idx, instr.operand = some (.foreignFunction idx) →
    instr.opcode.isForeignCall = true

/-- The recorded callees of a function, each once, are functions with ids of sixteen bits. -/
structure CalleesOk (program : CompilerProgram κ) (called : List String) : Prop where
  nodup : called.Nodup
  known : ∀ c ∈ called, c ∈ program.functions.take 65536

theorem CalleesOk.length_le {program : CompilerProgram κ} {called : List String}
    (h : CalleesOk program called) : called.length ≤ 65536 := by
  have hlen := (h.nodup.subperm h.known).length_le
  rw [List.length_take] at hlen
  omega

/-! ## Extraction keeps what operands stand for -/

section Scan

variable {program : CompilerProgram κ}

variable {called : List String}

/-- The callee is found at the index that is returned, and earlier entries stay. -/
theorem ensureCalled_spec (h : CalleesOk program called) {fid : UInt16} {callee : String}
    (hfid : program.functions[fid.toNat]? = some callee) :
    CalleesOk program (ensureCalled called callee).1 ∧ called <+: (ensureCalled called callee).1 ∧
      (ensureCalled called callee).1[(ensureCalled called callee).2.toNat]? = some callee := by
  unfold ensureCalled
  cases hfind : called.findIdx? (· = callee) with
  -- already listed, at an index that fits because the callees are distinct functions of the program
  | some i =>
    obtain ⟨hi, heq, -⟩ := List.findIdx?_eq_some_iff_getElem.mp hfind
    have hlen := h.length_le
    refine ⟨h, List.prefix_refl _, ?_⟩
    show called[(UInt16.ofNat i).toNat]? = some callee
    rw [UInt16.toNat_ofNat', Nat.mod_eq_of_lt (by omega), List.getElem?_eq_getElem hi,
      of_decide_eq_true heq]
  | none =>
    have hnot : callee ∉ called := by
      intro hmem
      have hne := List.findIdx?_eq_none_iff.mp hfind callee hmem
      simp at hne
    -- appended behind at most 65535 others: the program has no more functions that an operand can
    -- name
    have hknown : callee ∈ program.functions.take 65536 := by
      refine List.mem_iff_getElem?.mpr ⟨fid.toNat, ?_⟩
      rw [List.getElem?_take, if_pos fid.toNat_lt]
      exact hfid
    have hok : CalleesOk program (called ++ [callee]) := by
      refine ⟨?_, fun c hc => ?_⟩
      · rw [List.nodup_append]
        refine ⟨h.nodup, List.nodup_singleton _, fun a ha b hb => ?_⟩
        rw [List.mem_singleton.mp hb]
        exact fun heq => hnot (heq ▸ ha)
      · rcases List.mem_append.mp hc with hc | hc
        · exact h.known c hc
        · rw [List.mem_singleton.mp hc]
          exact hknown
    have hlen := hok.length_le
    rw [List.length_append, List.length_singleton] at hlen
    refine ⟨hok, List.prefix_append _ _, ?_⟩
    show (called ++ [callee])[(UInt16.ofNat called.length).toNat]? = some callee
    rw [UInt16.toNat_ofNat', Nat.mod_eq_of_lt (by omega), List.getElem?_append_right (Nat.le_refl _),
      Nat.sub_self]
    rfl

theorem getElem?_of_prefix {α : Type} {l l' : List α} (h : l <+: l') {i : Nat} {a : α}
    (hi : l[i]? = some a) : l'[i]? = some a := by
  obtain ⟨t, rfl⟩ := h
  rw [List.getElem?_append_left (List.getElem?_eq_some_iff.mp hi).1]
  exact hi

/-- `v` is the constant with index `k`, a function by its place among the callees. -/
def ConstantIs (program : CompilerProgram κ) (called : List String) (k : UInt16) (v : Constant κ) :
    Prop :=
  ∃ c e, program.constants[k.toNat]? = some c ∧ Env.constant program.functions c = some e ∧
    Env.constant called v = some e

theorem ConstantIs.mono {called' : List String} (h : called <+: called') {k : UInt16} {v : Constant κ}
    (hv : ConstantIs program called k v) : ConstantIs program called' k v := by
  obtain ⟨c, e, hc, he, hve⟩ := hv
  refine ⟨c, e, hc, he, ?_⟩
  cases v with
  | other value => exact hve
  | function d =>
    obtain ⟨name, hname, rfl⟩ := Option.map_eq_some_iff.mp hve
    exact Option.map_eq_some_iff.mpr ⟨name, getElem?_of_prefix h hname, rfl⟩

/-- What is known after scanning the operands `done`. -/
structure Scanned (program : CompilerProgram κ) (done : List Operand) (st : Pools κ) : Prop where
  callees : CalleesOk program st.calledFunctions
  constants : ∃ keys, Pool.Ok (ConstantIs program st.calledFunctions) st.constants keys ∧
    ∀ k, k ∈ keys ↔ Operand.const k ∈ done
  strings : Pool.Ok (fun k text => program.strings[k.toNat]? = some text) st.strings
    (firstUses (done.filterMap Operand.stringId))
  functions : ∀ fid l, st.funcRemap fid = some l → ∃ name,
    program.functions[fid.toNat]? = some name ∧ st.calledFunctions[l.toNat]? = some name
  functions_isSome : ∀ op ∈ done, ∀ fid, op.callee = some fid → (st.funcRemap fid).isSome

theorem scanned_nil (program : CompilerProgram κ) (h : CalleesOk program called) :
    Scanned program [] ⟨.empty, .empty, fun _ => none, called⟩ :=
  ⟨h, ⟨[], .empty, by simp⟩, .empty, nofun, by simp⟩

variable {done : List Operand} {st : Pools κ}

/-- More callees change nothing about what is there. -/
theorem Scanned.extend (h : Scanned program done st) (hok : CalleesOk program called)
    (hpre : st.calledFunctions <+: called) :
    Scanned program done { st with calledFunctions := called } := by
  obtain ⟨keys, hkeys, hmem⟩ := h.constants
  refine ⟨hok, ⟨keys, hkeys.mono fun k v hv => hv.mono hpre, hmem⟩, h.strings, fun fid l hl => ?_,
    h.functions_isSome⟩
  obtain ⟨name, hname, hat⟩ := h.functions fid l hl
  exact ⟨name, hname, getElem?_of_prefix hpre hat⟩

/-- A constant enters its pool. -/
theorem Scanned.constant {done : List Operand} {st st' : Pools κ} (hwf : program.WellFormed)
    (h : Scanned program done st) {idx : UInt16} (hst : internConstant program st idx = some st') :
    Scanned program (done ++ [.const idx]) st' := by
  have hstrings : (done ++ [Operand.const idx]).filterMap Operand.stringId
      = done.filterMap Operand.stringId := by
    rw [List.filterMap_append]
    simp [Operand.stringId]
  have hcallee : ∀ op ∈ done ++ [Operand.const idx], ∀ fid, op.callee = some fid → op ∈ done := by
    intro op hop fid hfid
    rcases List.mem_append.mp hop with hop | hop
    · exact hop
    · rw [List.mem_singleton.mp hop] at hfid
      cases hfid
  unfold internConstant at hst
  split at hst
  · rename_i hsome
    obtain rfl := Option.some.inj hst
    obtain ⟨keys, hkeys, hmem⟩ := h.constants
    have hidx : Operand.const idx ∈ done := (hmem idx).mp (hkeys.index_isSome.mp hsome)
    refine ⟨h.callees, ⟨keys, hkeys, fun k => ?_⟩, hstrings ▸ h.strings, h.functions,
      fun op hop fid hfid => h.functions_isSome op (hcallee op hop fid hfid) fid hfid⟩
    rw [hmem, List.mem_append, List.mem_singleton]
    constructor
    · exact Or.inl
    · rintro (hk | hk)
      · exact hk
      · exact hk ▸ hidx
  · split at hst
    · cases hst
    · rename_i c hc
      obtain rfl := Option.some.inj hst
      have hin : c ∈ program.constants := List.mem_of_getElem? hc
      -- the localised constant stands for the same, among more callees
      obtain ⟨hok, hpre, hent⟩ : CalleesOk program (localConstant program st.calledFunctions c).1 ∧
          st.calledFunctions <+: (localConstant program st.calledFunctions c).1 ∧
          ConstantIs program (localConstant program st.calledFunctions c).1 idx
            (localConstant program st.calledFunctions c).2 := by
        cases c with
        | other value =>
          exact ⟨h.callees, List.prefix_refl _, .other value, .constant value, hc, rfl, rfl⟩
        | function fid =>
          have hlt := hwf.constants _ hin fid rfl
          have hname := List.getElem?_eq_getElem hlt
          obtain ⟨hok, hpre, hat⟩ := ensureCalled_spec h.callees hname
          simp only [localConstant, hname]
          refine ⟨hok, hpre, .function fid, .functionConstant program.functions[fid.toNat], hc, ?_, ?_⟩
          · rw [Env.constant, hname]
            rfl
          · rw [Env.constant, hat]
            rfl
      have hext := h.extend hok hpre
      obtain ⟨keys, hkeys, hmem⟩ := hext.constants
      refine ⟨hok, ⟨Intern.addKey keys idx, hkeys.intern fun _ => hent, fun k => ?_⟩,
        hstrings ▸ hext.strings, hext.functions,
        fun op hop fid hfid => h.functions_isSome op (hcallee op hop fid hfid) fid hfid⟩
      rw [Intern.mem_addKey, hmem, List.mem_append, List.mem_singleton, Operand.const.injEq]

variable {st' : Pools κ} {op : Operand}

/-- A string enters its pool. -/
theorem Scanned.string (h : Scanned program done st) {idx : UInt16} (hop : op.stringId = some idx)
    (hst : internString program st idx = some st') : Scanned program (done ++ [op]) st' := by
  -- a string is no constant and no callee, so those pools do not see it
  have hconst : ∀ k, Operand.const k ∈ done ++ [op] ↔ Operand.const k ∈ done := by
    intro k
    rw [List.mem_append, List.mem_singleton]
    constructor
    · rintro (hk | rfl)
      · exact hk
      · cases hop
    · exact Or.inl
  have hcallee : ∀ op' ∈ done ++ [op], ∀ fid, op'.callee = some fid → op' ∈ done := by
    intro op' hop' fid hfid
    rcases List.mem_append.mp hop' with hop' | hop'
    · exact hop'
    · rw [List.mem_singleton.mp hop'] at hfid
      cases op <;> cases hop <;> cases hfid
  have hstrings : firstUses ((done ++ [op]).filterMap Operand.stringId)
      = Intern.addKey (firstUses (done.filterMap Operand.stringId)) idx := by
    rw [← Intern.firstUses_concat, List.filterMap_append]
    simp [hop]
  obtain ⟨keys, hkeys, hmem⟩ := h.constants
  unfold internString at hst
  -- seen before, or entered now at the end of the pool
  split at hst
  · rename_i hsome
    obtain rfl := Option.some.inj hst
    refine ⟨h.callees, ⟨keys, hkeys, fun k => (hmem k).trans (hconst k).symm⟩, ?_, h.functions,
      fun op' hop' fid hfid => h.functions_isSome op' (hcallee op' hop' fid hfid) fid hfid⟩
    rw [hstrings, Intern.addKey, if_pos (h.strings.index_isSome.mp hsome)]
    exact h.strings
  · split at hst
    · cases hst
    · rename_i text htext
      obtain rfl := Option.some.inj hst
      refine ⟨h.callees, ⟨keys, hkeys, fun k => (hmem k).trans (hconst k).symm⟩, ?_, h.functions,
        fun op' hop' fid hfid => h.functions_isSome op' (hcallee op' hop' fid hfid) fid hfid⟩
      rw [hstrings]
      exact h.strings.intern fun _ => htext

/-- A function is among the callees. -/
theorem Scanned.function (h : Scanned program done st) {fid : UInt16} (hop : op.callee = some fid)
    (hfid : fid.toNat < program.functions.length) :
    Scanned program (done ++ [op]) (internFunction program st fid) := by
  have hconst : ∀ k, Operand.const k ∈ done ++ [op] ↔ Operand.const k ∈ done := by
    intro k
    rw [List.mem_append, List.mem_singleton]
    constructor
    · rintro (hk | rfl)
      · exact hk
      · cases hop
    · exact Or.inl
  have hstrings : (done ++ [op]).filterMap Operand.stringId = done.filterMap Operand.stringId := by
    rw [List.filterMap_append]
    cases op <;> cases hop <;> simp [Operand.stringId]
  -- the remapping is a map, so a function is entered once, under its first operand
  unfold internFunction
  split
  · rename_i hsome
    obtain ⟨keys, hkeys, hmem⟩ := h.constants
    refine ⟨h.callees, ⟨keys, hkeys, fun k => (hmem k).trans (hconst k).symm⟩, ?_, h.functions,
      fun op' hop' fid' hfid' => ?_⟩
    · rw [hstrings]
      exact h.strings
    · rcases List.mem_append.mp hop' with hop' | hop'
      · exact h.functions_isSome op' hop' fid' hfid'
      · rw [List.mem_singleton.mp hop', hop] at hfid'
        exact Option.some.inj hfid' ▸ hsome
  · have hname := List.getElem?_eq_getElem hfid
    simp only [hname]
    obtain ⟨hok, hpre, hat⟩ := ensureCalled_spec h.callees hname
    have hext := h.extend hok hpre
    obtain ⟨keys, hkeys, hmem⟩ := hext.constants
    refine ⟨hok, ⟨keys, hkeys, fun k => (hmem k).trans (hconst k).symm⟩, ?_, fun fid' l hl => ?_,
      fun op' hop' fid' hfid' => ?_⟩
    · rw [hstrings]
      exact hext.strings
    · have hl' : Function.update st.funcRemap fid _ fid' = some l := hl
      -- the entry that was just made, and those from before with their list of callees extended
      by_cases heq : fid' = fid
      · subst heq
        rw [Function.update_self] at hl'
        obtain rfl := Option.some.inj hl'
        exact ⟨_, hname, hat⟩
      · rw [Function.update_of_ne heq] at hl'
        exact hext.functions fid' l hl'
    · show (Function.update st.funcRemap fid _ fid').isSome
      by_cases heq : fid' = fid
      · rw [heq, Function.update_self]
        rfl
      · rw [Function.update_of_ne heq]
        rcases List.mem_append.mp hop' with hop' | hop'
        · exact h.functions_isSome op' hop' fid' hfid'
        · rw [List.mem_singleton.mp hop', hop] at hfid'
          exact absurd (Option.some.inj hfid').symm heq

/-- An operand that is no index. -/
theorem Scanned.other (h : Scanned program done st) (hconst : ∀ k, op ≠ .const k)
    (hstring : op.stringId = none) (hcallee : op.callee = none) :
    Scanned program (done ++ [op]) st := by
  obtain ⟨keys, hkeys, hmem⟩ := h.constants
  refine ⟨h.callees, ⟨keys, hkeys, fun k => ?_⟩, ?_, h.functions, fun op' hop' fid hfid => ?_⟩
  · rw [hmem, List.mem_append, List.mem_singleton]
    constructor
    · exact Or.inl
    · rintro (hk | hk)
      · exact hk
      · exact absurd hk.symm (hconst k)
  · have hsame : (done ++ [op]).filterMap Operand.stringId = done.filterMap Operand.stringId := by
      rw [List.filterMap_append]
      simp [hstring]
    rw [hsame]
    exact h.strings
  · rcases List.mem_append.mp hop' with hop' | hop'
    · exact h.functions_isSome op' hop' fid hfid
    · rw [List.mem_singleton.mp hop', hcallee] at hfid
      cases hfid

/-- **One operand of the first pass.** -/
theorem scanOperand_scanned (hwf : program.WellFormed) (h : Scanned program done st)
    (hop : ∀ fid, op.callee = some fid → fid.toNat < program.functions.length)
    (hst : scanOperand program st op = some st') :
    Scanned program (done ++ [op]) st' := by
  cases op with
  | const idx => exact h.constant hwf hst
  | property idx => exact h.string rfl hst
  | name sid => exact h.string rfl hst
  | typedMethodCall methodId argCount stringId tag => exact h.string rfl hst
  | function fid =>
    obtain rfl := Option.some.inj hst
    exact h.function rfl (hop fid rfl)
  | closureAlloc fid escapes =>
    obtain rfl := Option.some.inj hst
    exact h.function rfl (hop fid rfl)
  | _ =>
    obtain rfl := Option.some.inj hst
    exact h.other (fun _ => nofun) rfl rfl

theorem scan_scanned (hwf : program.WellFormed) {ops : List Operand} (h : Scanned program done st)
    (hops : ∀ op ∈ ops, ∀ fid, op.callee = some fid → fid.toNat < program.functions.length)
    (hst : scan program st ops = some st') : Scanned program (done ++ ops) st' := by
  induction ops generalizing done st with
  | nil =>
    obtain rfl := Option.some.inj hst
    rw [List.append_nil]
    exact h
  | cons op ops ih =>
    unfold scan at hst
    rw [List.foldlM_cons] at hst
    obtain ⟨st₁, hst₁, hrest⟩ := Option.bind_eq_some_iff.mp hst
    have hstep := scanOperand_scanned hwf h (hops op List.mem_cons_self) hst₁
    have hrun := ih hstep (fun op' hop' => hops op' (List.mem_cons_of_mem _ hop')) hrest
    rwa [List.append_assoc, List.singleton_append] at hrun

/-- The tables of the blob that the second pass leads into. -/
def Pools.env (st : Pools κ) (foreignHashes : List (Option ForeignHash)) : Env κ :=
  ⟨st.constants.values, st.strings.values, st.calledFunctions, foreignHashes⟩

/-- A name fits the key of the string table. -/
def Operand.NameFits : Operand → Prop
  | .name sid => sid.toNat < 65536
  | _ => True

/-- **The second pass keeps what an operand stands for**, foreign functions apart. -/
theorem localOperand_entity (h : Scanned program done st) (hop : op ∈ done)
    (hforeign : ∀ idx, op ≠ .foreignFunction idx) (hname : op.NameFits)
    (hashes : List (Option ForeignHash)) :
    ∃ e, program.env.entity op = some e ∧ (st.env hashes).entity (localOperand st op) = some e := by
  obtain ⟨ckeys, hckeys, hcmem⟩ := h.constants
  -- every operand of the function was scanned, so its string is in the pool under its local index
  have hstring : ∀ idx, op.stringId = some idx → ∃ l text, st.strings.index idx = some l ∧
      st.strings.values[l.toNat]? = some text ∧ program.strings[idx.toNat]? = some text := by
    intro idx hidx
    exact h.strings.lookup (Intern.length_le_of_nodup h.strings.nodup)
      (Intern.mem_firstUses.mpr (List.mem_filterMap.mpr ⟨op, hop, hidx⟩))
  have hfunction : ∀ fid, op.callee = some fid → ∃ l name, st.funcRemap fid = some l ∧
      program.functions[fid.toNat]? = some name ∧ st.calledFunctions[l.toNat]? = some name := by
    intro fid hfid
    obtain ⟨l, hl⟩ := Option.isSome_iff_exists.mp (h.functions_isSome op hop fid hfid)
    obtain ⟨name, hn, hat⟩ := h.functions fid l hl
    exact ⟨l, name, hl, hn, hat⟩
  cases op with
  | const idx =>
    obtain ⟨l, v, hl, hv, c, e, hc, hce, hve⟩ := hckeys.lookup
      (Intern.length_le_of_nodup hckeys.nodup) ((hcmem idx).mpr hop)
    refine ⟨e, ?_, ?_⟩
    · show program.constants[idx.toNat]?.bind _ = _
      rw [hc]
      exact hce
    · show st.constants.values[((st.constants.index idx).getD idx).toNat]?.bind _ = _
      rw [hl, Option.getD_some, hv]
      exact hve
  | property idx =>
    obtain ⟨l, text, hl, htext, hglobal⟩ := hstring idx rfl
    refine ⟨.property text, ?_, ?_⟩
    · show program.strings[idx.toNat]?.map _ = _
      rw [hglobal]
      rfl
    · show st.strings.values[((st.strings.index idx).getD idx).toNat]?.map _ = _
      rw [hl, Option.getD_some, htext]
      rfl
  -- the scan looked the string up under the low 16 bits; the name fits, so these are the name
  | name sid =>
    obtain ⟨l, text, hl, htext, hglobal⟩ := hstring sid.toUInt16 rfl
    refine ⟨.name text, ?_, ?_⟩
    · show program.strings[sid.toNat]?.map _ = _
      have hsid : sid.toUInt16.toNat = sid.toNat := by
        rw [UInt32.toNat_toUInt16]
        exact Nat.mod_eq_of_lt hname
      rw [← hsid, hglobal]
      rfl
    · show (st.env hashes).entity (match st.strings.index sid.toUInt16 with
        | some loc => .name loc.toUInt32 | none => .name sid) = _
      rw [hl]
      show st.strings.values[l.toUInt32.toNat]?.map _ = _
      rw [UInt16.toNat_toUInt32, htext]
      rfl
  | typedMethodCall methodId argCount stringId tag =>
    obtain ⟨l, text, hl, htext, hglobal⟩ := hstring stringId rfl
    refine ⟨.typedMethodCall methodId argCount text tag, ?_, ?_⟩
    · show program.strings[stringId.toNat]?.map _ = _
      rw [hglobal]
      rfl
    · show st.strings.values[((st.strings.index stringId).getD stringId).toNat]?.map _ = _
      rw [hl, Option.getD_some, htext]
      rfl
  | function fid =>
    obtain ⟨l, name, hl, hglobal, hat⟩ := hfunction fid rfl
    refine ⟨.function name, ?_, ?_⟩
    · show program.functions[fid.toNat]?.map _ = _
      rw [hglobal]
      rfl
    · show st.calledFunctions[((st.funcRemap fid).getD fid).toNat]?.map _ = _
      rw [hl, Option.getD_some, hat]
      rfl
  | closureAlloc fid escapes =>
    obtain ⟨l, name, hl, hglobal, hat⟩ := hfunction fid rfl
    refine ⟨.closureAlloc name escapes, ?_, ?_⟩
    · show program.functions[fid.toNat]?.map _ = _
      rw [hglobal]
      rfl
    · show st.calledFunctions[((st.funcRemap fid).getD fid).toNat]?.map _ = _
      rw [hl, Option.getD_some, hat]
      rfl
  | foreignFunction idx => exact absurd rfl (hforeign idx)
  | _ => exact ⟨_, rfl, rfl⟩

/-- The string of an operand that has sixteen bits for it. -/
def Operand.narrowString : Operand → Option UInt16
  | .property idx => some idx
  | .typedMethodCall _ _ stringId _ => some stringId
  | _ => none

/-- A string that operands have sixteen bits for is moved to the place of its first use. -/
def NarrowMoved (ids : List UInt16) (op op' : Operand) : Prop :=
  Option.Rel (fun s l => l.toNat = (firstUses ids).idxOf s) op.narrowString op'.narrowString

theorem localOperand_narrow (h : Scanned program done st) (hop : op ∈ done) :
    NarrowMoved (done.filterMap Operand.stringId) op (localOperand st op) := by
  have hplace : ∀ s, op.stringId = some s → ((st.strings.index s).getD s).toNat
      = (firstUses (done.filterMap Operand.stringId)).idxOf s := by
    intro s hs
    have hmem : s ∈ firstUses (done.filterMap Operand.stringId) :=
      Intern.mem_firstUses.mpr (List.mem_filterMap.mpr ⟨op, hop, hs⟩)
    rw [h.strings.index_idxOf hmem, Option.getD_some]
    exact index_fits ((List.idxOf_lt_length_of_mem hmem).trans_le
      (Intern.length_le_of_nodup h.strings.nodup))
  cases op with
  | property idx => exact .some (hplace idx rfl)
  | typedMethodCall methodId argCount stringId tag => exact .some (hplace stringId rfl)
  | name sid =>
    show Option.Rel _ none (localOperand st (.name sid)).narrowString
    rw [localOperand]
    split
    · exact .none
    · exact .none
  | _ => exact .none

/-! ## Foreign calls -/

/-- The hashes of a blob, each once, are those of entries with indices of sixteen bits. -/
def ForeignKeysOk (program : CompilerProgram κ) (deps : Pool ForeignHash ForeignHash) : Prop :=
  ∃ keys, Pool.Ok (fun k v => k = v) deps keys ∧
    ∀ k ∈ keys, k ∈ (program.foreignFunctions.take 65536).filterMap (·.contentHash)

variable {deps : Pool ForeignHash ForeignHash}

theorem ForeignKeysOk.intern (h : ForeignKeysOk program deps) {idx : UInt16} {entry : ForeignFunctionEntry}
    (hentry : program.foreignFunctions[idx.toNat]? = some entry) {hash : ForeignHash}
    (hhash : entry.contentHash = some hash) :
    ForeignKeysOk program (deps.intern hash hash) ∧ deps.values <+: (deps.intern hash hash).values ∧
      ∃ o, (deps.intern hash hash).index hash = some o ∧
        (deps.intern hash hash).values[o.toNat]? = some hash := by
  obtain ⟨keys, hkeys, hmem⟩ := h
  -- only hashes of entries that an operand can name enter the list
  have hknown : hash ∈ (program.foreignFunctions.take 65536).filterMap (·.contentHash) := by
    refine List.mem_filterMap.mpr ⟨entry, List.mem_iff_getElem?.mpr ⟨idx.toNat, ?_⟩, hhash⟩
    rw [List.getElem?_take, if_pos idx.toNat_lt]
    exact hentry
  have hkeys' := hkeys.intern (k := hash) (v := hash) fun _ => rfl
  have hmem' : ∀ k ∈ Intern.addKey keys hash,
      k ∈ (program.foreignFunctions.take 65536).filterMap (·.contentHash) := by
    intro k hk
    rcases Intern.mem_addKey.mp hk with hk | rfl
    · exact hmem k hk
    · exact hknown
  -- they are distinct, so the 16-bit index of the last one is right
  have hfits : (Intern.addKey keys hash).length ≤ 65536 := by
    have hlen := (hkeys'.nodup.subperm hmem').length_le
    have hfilter := List.length_filterMap_le (fun e : ForeignFunctionEntry => e.contentHash)
      (program.foreignFunctions.take 65536)
    rw [List.length_take] at hfilter
    omega
  obtain ⟨o, v, ho, hv, rfl⟩ := hkeys'.lookup hfits (Intern.mem_addKey.mpr (Or.inr rfl))
  refine ⟨⟨_, hkeys', hmem'⟩, ?_, o, ho, hv⟩
  unfold Pool.intern
  split
  · exact List.prefix_refl _
  · exact List.prefix_append _ _

/-- What the third pass makes of an instruction, when the blob's hashes are `values`. -/
def ForeignMoved (program : CompilerProgram κ) (values : List ForeignHash) (instr instr' : Instruction) :
    Prop :=
  instr'.opcode = instr.opcode ∧
    ((∃ idx hash o, instr.opcode.isForeignCall = true ∧ instr.operand = some (.foreignFunction idx) ∧
        program.env.entity (.foreignFunction idx) = some (.foreignFunction hash) ∧
        instr'.operand = some (.foreignFunction o) ∧ values[o.toNat]? = some hash) ∨
      (instr' = instr ∧ ∀ idx, instr.opcode.isForeignCall = true →
        instr.operand ≠ some (.foreignFunction idx)))

variable {values : List ForeignHash} {instr instr' : Instruction}

theorem ForeignMoved.mono {values' : List ForeignHash} (hpre : values <+: values')
    (h : ForeignMoved program values instr instr') :
    ForeignMoved program values' instr instr' := by
  obtain ⟨hop, ⟨idx, hash, o, hcall, hoperand, hent, hoperand', hat⟩ | hother⟩ := h
  · exact ⟨hop, Or.inl ⟨idx, hash, o, hcall, hoperand, hent, hoperand', getElem?_of_prefix hpre hat⟩⟩
  · exact ⟨hop, Or.inr hother⟩

variable {deps' : Pool ForeignHash ForeignHash}

theorem foreignOperand_spec (h : ForeignKeysOk program deps)
    (hst : foreignOperand program deps instr = some (instr', deps')) :
    ForeignKeysOk program deps' ∧ deps.values <+: deps'.values ∧
      ForeignMoved program deps'.values instr instr' := by
  -- the pass leaves alone what is not a call of a foreign function by index
  have hkeep : some (instr, deps) = some (instr', deps') →
      (∀ idx, instr.opcode.isForeignCall = true → instr.operand ≠ some (.foreignFunction idx)) →
      ForeignKeysOk program deps' ∧ deps.values <+: deps'.values ∧
        ForeignMoved program deps'.values instr instr' := by
    intro heq hnot
    obtain ⟨rfl, rfl⟩ := Prod.mk.injEq .. ▸ Option.some.inj heq
    exact ⟨h, List.prefix_refl _, rfl, Or.inr ⟨rfl, hnot⟩⟩
  unfold foreignOperand at hst
  split at hst
  · rename_i hcall
    split at hst
    · rename_i progIdx hoperand
      split at hst
      · cases hst
      · rename_i entry hentry
        split at hst
        · cases hst
        · rename_i hash hhash
          obtain ⟨hok, hpre, o, ho, hat⟩ := h.intern hentry hhash
          obtain ⟨rfl, rfl⟩ := Prod.mk.injEq .. ▸ Option.some.inj hst
          refine ⟨hok, hpre, rfl, Or.inl ⟨progIdx, hash, o, hcall, hoperand, ?_, ?_, hat⟩⟩
          · show (program.foreignFunctions.map (·.contentHash))[progIdx.toNat]?.join.map _ = _
            rw [List.getElem?_map, hentry, Option.map_some, hhash]
            rfl
          · show some (Operand.foreignFunction (((deps.intern hash hash).index hash).getD 0)) = _
            rw [ho]
            rfl
    · rename_i hnot
      exact hkeep hst fun idx _ => hnot idx
  · rename_i hcall
    exact hkeep hst fun idx hcall' => absurd hcall' hcall

variable {instrs : List Instruction}

theorem foreignPass_spec (h : ForeignKeysOk program deps) {instrs' : List Instruction}
    (hst : foreignPass program deps instrs = some (instrs', deps')) :
    ForeignKeysOk program deps' ∧ deps.values <+: deps'.values ∧
      List.Forall₂ (ForeignMoved program deps'.values) instrs instrs' := by
  induction instrs generalizing deps instrs' with
  | nil =>
    obtain ⟨rfl, rfl⟩ := Prod.mk.injEq .. ▸ Option.some.inj hst
    exact ⟨h, List.prefix_refl _, .nil⟩
  | cons instr instrs ih =>
    obtain ⟨⟨i₁, d₁⟩, h₁, hrest⟩ := Option.bind_eq_some_iff.mp hst
    obtain ⟨⟨i₂, d₂⟩, h₂, heq⟩ := Option.bind_eq_some_iff.mp hrest
    obtain ⟨rfl, rfl⟩ := Prod.mk.injEq .. ▸ Option.some.inj heq
    obtain ⟨hok, hpre, hmoved⟩ := foreignOperand_spec h h₁
    obtain ⟨hok', hpre', hall⟩ := ih hok h₂
    exact ⟨hok', hpre.trans hpre', .cons (hmoved.mono hpre') hall⟩

/-! ## A whole function -/

/-- Both operands stand for the same, or there is none. -/
def SameEntity (env env' : Env κ) (instr instr' : Instruction) : Prop :=
  Option.Rel (fun op op' => ∃ e, env.entity op = some e ∧ env'.entity op' = some e) instr.operand
    instr'.operand

/-- The code of a function. -/
def code (program : CompilerProgram κ) (f : FinishedFunction) : List Instruction :=
  (program.instructions.take f.instrEnd).drop f.instrStart

/-- The string ids in a function's code. -/
def stringIds (program : CompilerProgram κ) (f : FinishedFunction) : List UInt16 :=
  (operands (code program f)).filterMap Operand.stringId

/-- How extraction changes an operand. -/
def OperandMoved (env env' : Env κ) (ids : List UInt16) (op op' : Operand) : Prop :=
  (∃ e, env.entity op = some e ∧ env'.entity op' = some e) ∧ NarrowMoved ids op op'

/-- What extraction makes of a function. -/
structure Extracted (program : CompilerProgram κ) (f : FinishedFunction)
    (x : FunctionBlobBuilder (Body κ)) : Prop where
  name : x.name = f.name
  callees : CalleesOk program x.calledFunctions
  strings : List.Forall₂ (fun k text => program.strings[k.toNat]? = some text)
    (firstUses (stringIds program f)) x.body.strings
  foreign : ∀ hash ∈ x.body.foreignDependencies,
    hash ∈ (program.foreignFunctions.take 65536).filterMap (·.contentHash)
  code : List.Forall₂ (fun instr instr' => instr'.opcode = instr.opcode ∧
    Option.Rel (OperandMoved program.env x.env (stringIds program f)) instr.operand instr'.operand)
      (code program f) x.body.instructions
  range : f.instrStart ≤ f.instrEnd ∧ f.instrEnd ≤ program.instructions.length

theorem mem_operands (hinstr : instr ∈ instrs) (hop : instr.operand = some op) : op ∈ operands instrs :=
  List.mem_filterMap.mpr ⟨instr, hinstr, hop⟩

/-- The second and the third pass together, for one instruction. -/
theorem moved_operand (h : Scanned program (operands instrs) st) (hin : instr ∈ instrs)
    (hforeign : ∀ idx, instr.operand = some (.foreignFunction idx) → instr.opcode.isForeignCall = true)
    (hname : ∀ op, instr.operand = some op → op.NameFits)
    (hmoved : ForeignMoved program values (localInstruction st instr) instr') :
    instr'.opcode = instr.opcode ∧ Option.Rel (OperandMoved program.env (st.env (values.map some))
      ((operands instrs).filterMap Operand.stringId)) instr.operand instr'.operand := by
  obtain ⟨hopcode, hcases⟩ := hmoved
  refine ⟨hopcode, ?_⟩
  cases hop : instr.operand with
  | none =>
    have hlocal : (localInstruction st instr).operand = none := by
      rw [localInstruction, hop]
      rfl
    rcases hcases with ⟨idx, hash, o, -, hoperand, -⟩ | ⟨rfl, -⟩
    · rw [hlocal] at hoperand
      cases hoperand
    · rw [hlocal]
      exact .none
  | some op =>
    have hlocal : (localInstruction st instr).operand = some (localOperand st op) := by
      rw [localInstruction, hop]
      rfl
    by_cases hff : ∃ idx, op = .foreignFunction idx
    · obtain ⟨idx, rfl⟩ := hff
      rcases hcases with ⟨idx', hash, o, -, hoperand, hent, hoperand', hat⟩ | ⟨-, hnot⟩
      · obtain rfl : idx = idx' := by
          rw [hlocal] at hoperand
          exact Operand.foreignFunction.inj (Option.some.inj hoperand)
        rw [hoperand']
        refine .some ⟨⟨_, hent, ?_⟩, .none⟩
        show (values.map some)[o.toNat]?.join.map _ = _
        rw [List.getElem?_map, hat]
        rfl
      · exact absurd hlocal (hnot idx (hforeign idx hop))
    · obtain ⟨e, he, he'⟩ := localOperand_entity h (mem_operands hin hop)
        (fun idx heq => hff ⟨idx, heq⟩) (hname op hop) (values.map some)
      rcases hcases with ⟨idx, -, -, -, hoperand, -⟩ | ⟨rfl, -⟩
      · -- an operand that was no foreign index does not become one
        rw [hlocal] at hoperand
        cases op with
        | name sid =>
          rw [localOperand] at hoperand
          split at hoperand
          · cases hoperand
          · cases hoperand
        | foreignFunction idx' => exact absurd ⟨idx', rfl⟩ hff
        | _ => cases hoperand
      · rw [hlocal]
        exact .some ⟨⟨e, he, he'⟩, localOperand_narrow h (mem_operands hin hop)⟩

/-- **Extraction keeps what the operands of a function stand for**, if its names fit. -/
theorem extract_denotes (hwf : program.WellFormed) {f : FinishedFunction}
    (hcallees : CalleesOk program f.calledFunctions)
    (hnames : ∀ op ∈ operands (code program f), op.NameFits)
    {x : FunctionBlobBuilder (Body κ)} (hx : extract program f = some x) : Extracted program f x := by
  -- the range check, the scan of the operands, the pass over the foreign calls
  unfold extract at hx
  obtain ⟨instrs, hinstrs, hx⟩ := Option.bind_eq_some_iff.mp hx
  obtain ⟨st, hscan, hx⟩ := Option.bind_eq_some_iff.mp hx
  obtain ⟨⟨instrs', deps⟩, hpass, hx⟩ := Option.bind_eq_some_iff.mp hx
  obtain rfl := Option.some.inj hx
  unfold globalInstructions at hinstrs
  split at hinstrs
  case isFalse => cases hinstrs
  rename_i hrange
  obtain rfl := Option.some.inj hinstrs
  have hsub : ∀ instr ∈ code program f,
      instr ∈ program.instructions := fun instr hin => List.mem_of_mem_take (List.mem_of_mem_drop hin)
  -- the scan starts from the callees that were recorded while the function was compiled
  have hscanned := scan_scanned hwf (scanned_nil program hcallees) (fun op hop fid hfid => by
    obtain ⟨instr, hin, hop⟩ := List.mem_filterMap.mp hop
    refine hwf.functions instr (hsub instr hin) fid ?_
    rw [Instruction.callee, hop]
    exact hfid) hscan
  rw [List.nil_append] at hscanned
  obtain ⟨⟨fkeys, hfkeys, hfmem⟩, -, hall⟩ := foreignPass_spec ⟨[], .empty, by simp⟩ hpass
  refine ⟨rfl, hscanned.callees, hscanned.strings.related, fun hash hmem => ?_, ?_, hrange⟩
  · have hrel : List.Forall₂ (· = ·) fkeys deps.values := hfkeys.related
    rw [List.forall₂_eq_eq_eq] at hrel
    exact hfmem hash (hrel ▸ hmem)
  -- instruction by instruction: the second pass, then the foreign one
  · rw [List.forall₂_map_left_iff] at hall
    refine ((List.forall₂_and_left _ _).mpr ⟨fun instr hin => hin, hall⟩).imp ?_
    rintro instr instr' ⟨hin, hmoved⟩
    exact moved_operand hscanned hin (hwf.foreign instr (hsub instr hin))
      (fun op hop => hnames op (mem_operands hin hop)) hmoved

end Scan

/-! ## Linking keeps what operands stand for -/

section Link

variable [DecidableEq η] {H : Sha256 (Body κ) η} {unit : Compilation (Body κ)} {ca : Program κ η}
  {lp : LinkedProgram κ η} {blobs : List (Blob κ η)}

variable {placed : (Blob κ η × BlobOffsets) × Nat}

/-- A reference leads to the function with the callee's name. -/
theorem Layout.reference_name (h : Layout H unit ca lp blobs) (hplaced : placed ∈ placedBlobs blobs)
    {idx : UInt16} {m : String} (hm : placed.1.1.calleeNames[idx.toNat]? = some m)
    (hmn : m ∈ unit.names) (hfits : ∀ j c, blobs[j]? = some c → c.name = m → j < 65536) :
    (lp.functions.map (·.name))[(reference H.zero blobs placed idx).toNat]? = some m := by
  have ht := build_tracks H unit
  have hat := getElem?_of_mem_placedBlobs hplaced
  have hb := (h.sorted.blob? _).mp (List.mem_of_getElem? hat)
  have hlt := (List.getElem?_eq_some_iff.mp hm).1
  rw [← (ht.linked.ok _ _ hb).aligned] at hlt
  have hd := List.getElem?_eq_getElem hlt
  rw [h.linked.functions_name, List.getElem?_map]
  -- a ZERO digest is resolved by name, any other one by the blob it is the digest of
  by_cases hz : placed.1.1.dependencies[idx.toNat] = H.zero
  · rw [hz] at hd
    rw [reference_of_zero hd hm]
    -- the function itself, or the first blob with the callee's name
    by_cases hself : m = placed.1.1.name
    · rw [if_neg (not_not.mpr hself), index_fits (hfits _ _ hat hself.symm), hat, hself]
      rfl
    · obtain ⟨j, c, hj, hc, hcn⟩ := h.sorted.exists_index hmn
      rw [if_pos hself, hj, Option.getD_some, index_fits (hfits _ _ hc hcn), hc, ← hcn]
      rfl
  · obtain ⟨c, hmem, hcd, -⟩ := h.sorted.dependency _ (List.mem_of_getElem? hat) _
      (List.mem_of_getElem? hd) hz
    obtain ⟨j, hj⟩ := List.mem_iff_getElem?.mp hmem
    have hcb := (h.sorted.blob? c).mp hmem
    -- the digest of a dependency is that of the blob with the callee's name
    obtain ⟨callee, hcallee, hname⟩ := (ht.linked.ok _ _ hb).callee_of_digest hd
      (hcd.symm.trans (ht.linked.coherent.blob?_finalized hcb).1)
    have hcm : c.name = m := hname.trans (Option.some.inj (hcallee.symm.trans hm))
    rw [← hcd] at hd hz
    rw [h.sorted.reference_eq hj hd hz, index_fits (hfits j c hj hcm), hj, Option.map_some, hcm]

/-- The function that an operand stands for, under any numbering. -/
def Entity.functionName : Entity κ → Option String
  | .functionConstant callee => some callee
  | .function callee => some callee
  | .closureAlloc callee _ => some callee
  | _ => none

/-- What must fit for an operand of a blob: where its string and its function come to lie. -/
structure LinkFits (blobs : List (Blob κ η)) (off : BlobOffsets) (op : Operand) (e : Entity κ) :
    Prop where
  strings : ∀ l, op.narrowString = some l → off.stringBase + l.toNat < 65536
  functions : ∀ m, e.functionName = some m → ∀ j c, blobs[j]? = some c → c.name = m → j < 65536

theorem Layout.const_fits (h : Layout H unit ca lp blobs) (hplaced : placed ∈ placedBlobs blobs)
    {idx : UInt16} (hidx : idx.toNat < placed.1.1.body.constants.length) :
    (UInt16.ofNat (placed.1.2.constBase + idx.toNat)).toNat = placed.1.2.constBase + idx.toNat := by
  have hsize : (blobs.map (·.body.constants.length))[placed.2]? =
      some placed.1.1.body.constants.length := by
    rw [List.getElem?_map, getElem?_of_mem_placedBlobs hplaced]
    rfl
  have hlt := take_sum_add_lt hsize hidx
  have hmax := h.linkable.constants
  rw [placed_offsets hplaced, UInt16.toNat_ofNat']
  refine Nat.mod_eq_of_lt (Nat.lt_of_lt_of_le hlt ?_)
  exact hmax

omit [DecidableEq η] in
theorem string_lt (hplaced : placed ∈ placedBlobs blobs) {i : Nat}
    (hi : i < placed.1.1.body.strings.length) :
    placed.1.2.stringBase + i < (blobs.map (·.body.strings.length)).sum := by
  have hsize : (blobs.map (·.body.strings.length))[placed.2]? = some placed.1.1.body.strings.length := by
    rw [List.getElem?_map, getElem?_of_mem_placedBlobs hplaced]
    rfl
  rw [placed_offsets hplaced]
  exact take_sum_add_lt hsize hi

variable {op : Operand} {e : Entity κ}

/-- **The linker keeps what an operand of a blob stands for**, if its indices fit. -/
theorem Layout.remapOperand_entity (h : Layout H unit ca lp blobs) (hplaced : placed ∈ placedBlobs blobs)
    {x : FunctionBlobBuilder (Body κ)} (hbody : placed.1.1.body = x.body)
    (hcallees : placed.1.1.calleeNames = x.calledFunctions)
    (hclosed : ∀ c ∈ x.calledFunctions, c ∈ unit.names)
    (hforeign : ∀ hash ∈ x.body.foreignDependencies,
      hash ∈ (ca.foreignFunctions.take 65536).filterMap (·.contentHash))
    {op' : Operand} (hfits : LinkFits blobs placed.1.2 op e) (he : x.env.entity op = some e)
    (hop : remapOperand H.zero op placed.1.2 placed.1.1 placed.2 (indexBy (·.contentHash) blobs)
      (indexBy (·.name) blobs) (foreignHashToIdx ca.foreignFunctions) = .ok op') :
    lp.env.entity op' = some e := by
  have hname : ∀ (idx : UInt16) m, e.functionName = some m → x.calledFunctions[idx.toNat]? = some m →
      (lp.functions.map (·.name))[(reference H.zero blobs placed idx).toNat]? = some m := by
    intro idx m hem hm
    exact h.reference_name hplaced (hcallees ▸ hm) (hclosed m (List.mem_of_getElem? hm))
      (hfits.functions m hem)
  have hstring : ∀ (i : Nat) text, x.body.strings[i]? = some text →
      lp.strings[placed.1.2.stringBase + i]? = some text ∧
        placed.1.2.stringBase + i < (blobs.map (·.body.strings.length)).sum := by
    intro i text hi
    rw [← hbody] at hi
    exact ⟨h.linked.getElem?_strings hplaced hi,
      string_lt hplaced (List.getElem?_eq_some_iff.mp hi).1⟩
  cases op with
  | const idx =>
    obtain rfl := Except.ok.inj hop
    obtain ⟨c, hc, hce⟩ := Option.bind_eq_some_iff.mp he
    have hc' : placed.1.1.body.constants[idx.toNat]? = some c := by
      rw [hbody]
      exact hc
    show lp.constants[(UInt16.ofNat _).toNat]?.bind _ = _
    rw [h.const_fits hplaced (List.getElem?_eq_some_iff.mp hc').1,
      h.linked.getElem?_constants hplaced hc', Option.bind_some]
    cases c with
    | other value => exact hce
    | function d =>
      obtain ⟨m, hm, rfl⟩ := Option.map_eq_some_iff.mp hce
      exact Option.map_eq_some_iff.mpr ⟨m, hname d m rfl hm, rfl⟩
  | property idx =>
    obtain rfl := Except.ok.inj hop
    obtain ⟨text, htext, rfl⟩ := Option.map_eq_some_iff.mp he
    obtain ⟨hat, -⟩ := hstring idx.toNat text htext
    show lp.strings[(UInt16.ofNat _).toNat]?.map _ = _
    rw [index_fits (hfits.strings idx rfl), hat]
    rfl
  | name sid =>
    obtain rfl := Except.ok.inj hop
    obtain ⟨text, htext, rfl⟩ := Option.map_eq_some_iff.mp he
    obtain ⟨hat, hlt⟩ := hstring sid.toNat text htext
    -- the linker has bounded the pool
    have hsum : (blobs.map (·.body.strings.length)).sum ≤ 2 ^ 32 := h.linkable.strings
    show lp.strings[(UInt32.ofNat _).toNat]?.map _ = _
    rw [UInt32.toNat_ofNat', Nat.mod_eq_of_lt (Nat.lt_of_lt_of_le hlt hsum), hat]
    rfl
  | typedMethodCall methodId argCount stringId tag =>
    obtain rfl := Except.ok.inj hop
    obtain ⟨text, htext, rfl⟩ := Option.map_eq_some_iff.mp he
    obtain ⟨hat, -⟩ := hstring stringId.toNat text htext
    show lp.strings[(UInt16.ofNat _).toNat]?.map _ = _
    rw [index_fits (hfits.strings stringId rfl), hat]
    rfl
  | function fid =>
    obtain rfl := Except.ok.inj hop
    obtain ⟨m, hm, rfl⟩ := Option.map_eq_some_iff.mp he
    exact Option.map_eq_some_iff.mpr ⟨m, hname fid m rfl hm, rfl⟩
  | closureAlloc fid escapes =>
    obtain rfl := Except.ok.inj hop
    obtain ⟨m, hm, rfl⟩ := Option.map_eq_some_iff.mp he
    exact Option.map_eq_some_iff.mpr ⟨m, hname fid m rfl hm, rfl⟩
  | foreignFunction ordinal =>
    obtain ⟨hash, hhash, rfl⟩ := Option.map_eq_some_iff.mp he
    have hat : x.body.foreignDependencies[ordinal.toNat]? = some hash := by
      have hjoin : (x.body.foreignDependencies.map some)[ordinal.toNat]?.join = some hash := hhash
      rw [List.getElem?_map] at hjoin
      cases hdep : x.body.foreignDependencies[ordinal.toNat]? with
      | none =>
        rw [hdep] at hjoin
        cases hjoin
      | some hash' =>
        rw [hdep] at hjoin
        exact hjoin
    rw [remapOperand, hbody, hat] at hop
    cases hfind : foreignHashToIdx ca.foreignFunctions hash with
    | none =>
      simp only [hfind] at hop
      cases hop
    | some i =>
      simp only [hfind] at hop
      obtain rfl := Except.ok.inj hop
      obtain ⟨hi, hihash, hfirst⟩ := List.findIdx?_eq_some_iff_getElem.mp hfind
      -- the first entry with the hash is no later than the one the compiler saw
      have hsmall : i < 65536 := by
        obtain ⟨entry, hentry, hentryHash⟩ := List.mem_filterMap.mp
          (hforeign hash (List.mem_of_getElem? hat))
        obtain ⟨j, hj⟩ := List.mem_iff_getElem?.mp hentry
        rw [List.getElem?_take] at hj
        split at hj
        · rename_i hjlt
          obtain ⟨hjlen, rfl⟩ := List.getElem?_eq_some_iff.mp hj
          by_contra hge
          exact hfirst j (by omega) (decide_eq_true hentryHash)
        · cases hj
      show (lp.foreignFunctions.map (·.contentHash))[(UInt16.ofNat i).toNat]?.join.map _ = _
      rw [h.linked.foreignFunctions, UInt16.toNat_ofNat', Nat.mod_eq_of_lt hsmall, List.getElem?_map,
        List.getElem?_eq_getElem hi, Option.map_some, of_decide_eq_true hihash]
      rfl
  | _ =>
    obtain rfl := Except.ok.inj hop
    exact he

theorem remapInstruction_cases {zero : η} {instr r : Instruction} {off : BlobOffsets} {b : Blob κ η}
    {id : Nat} {hashToId : η → Option Nat} {nameToId : String → Option Nat}
    {foreignIdx : ForeignHash → Option Nat}
    (h : remapInstruction zero instr off b id hashToId nameToId foreignIdx = .ok r) :
    r.opcode = instr.opcode ∧ Option.Rel (fun op op' =>
      remapOperand zero op off b id hashToId nameToId foreignIdx = .ok op') instr.operand r.operand := by
  unfold remapInstruction at h
  cases hop : instr.operand with
  | none =>
    rw [hop] at h
    obtain rfl := Except.ok.inj h
    rw [hop]
    exact ⟨rfl, .none⟩
  | some op =>
    rw [hop] at h
    obtain ⟨op', hop', hr⟩ := Fallible.bind_eq_ok.mp h
    obtain rfl := Except.ok.inj hr
    exact ⟨rfl, .some hop'⟩

/-! ## Both halves -/

/-- A program split into blobs and linked. -/
structure SplitAndLinked (H : Sha256 (Body κ) η) (program : CompilerProgram κ)
    (functions : List FinishedFunction) (unit : Compilation (Body κ)) (ca : Program κ η)
    (lp : LinkedProgram κ η) : Prop where
  builders : functions.mapM (extract program) = some unit.builders
  store : ca.functionStore = (buildContentAddressedProgram H unit).functionStore
  entry : (buildContentAddressedProgram H unit).blobNameToHash "__main__" = some ca.entry
  foreignFunctions : ca.foreignFunctions = program.foreignFunctions
  links : link H.zero ca = .ok lp

/-- What the compiler leaves behind: function ids are ids of functions, recorded callees are functions
of the program, and every function of the program is among the finished ones. -/
structure Compiled (program : CompilerProgram κ) (functions : List FinishedFunction) : Prop where
  wellFormed : program.WellFormed
  callees : ∀ f ∈ functions, CalleesOk program f.calledFunctions
  complete : ∀ n ∈ program.functions, n ∈ functions.map (·.name)

/-- Every operand of every function stands for the same in the linked program. -/
def OperandsPreserved (program : CompilerProgram κ) (functions : List FinishedFunction)
    (lp : LinkedProgram κ η) : Prop :=
  ∀ f ∈ functions, ∃ g ∈ lp.functions, g.name = f.name ∧ g.bodyLength = f.instrEnd - f.instrStart ∧
    ∀ k < g.bodyLength, ∃ instr instr', program.instructions[f.instrStart + k]? = some instr ∧
      lp.instructions[g.entryPoint + k]? = some instr' ∧ instr'.opcode = instr.opcode ∧
        SameEntity program.env lp.env instr instr'

/-- The strings of the functions that come before `f` in the order. -/
def stringsBefore (program : CompilerProgram κ) (functions : List FinishedFunction)
    (order : List String) (f : FinishedFunction) : Nat :=
  (functions.map fun g => if order.idxOf g.name < order.idxOf f.name then
    (firstUses (stringIds program g)).length else 0).sum

/-- Indices fit in sixteen bits, in every order in which the linker may lay the functions out: the id
of a name; the place in the linked pool of a string that an operand has sixteen bits for; and the place
of a function that an operand or a constant refers to. -/
structure IndicesFit (program : CompilerProgram κ) (functions : List FinishedFunction)
    (unit : Compilation (Body κ)) : Prop where
  names : ∀ f ∈ functions, ∀ op ∈ operands (code program f), op.NameFits
  strings : ∀ order, LinkOrder unit order → ∀ f ∈ functions, ∀ op ∈ operands (code program f),
    ∀ s, op.narrowString = some s →
      stringsBefore program functions order f + (firstUses (stringIds program f)).idxOf s < 65536
  functions : ∀ order, LinkOrder unit order → ∀ f ∈ functions, ∀ op ∈ operands (code program f),
    ∀ e, program.env.entity op = some e → ∀ m, e.functionName = some m → order.idxOf m < 65536

variable {α : Type}

theorem mapM_some_forall₂ {γ : Type} {f : α → Option γ} {l : List α} {r : List γ} (h : l.mapM f = some r) :
    List.Forall₂ (fun a c => f a = some c) l r := by
  induction l generalizing r with
  | nil =>
    rw [List.mapM_nil] at h
    obtain rfl := Option.some.inj h
    exact .nil
  | cons a l ih =>
    rw [List.mapM_cons] at h
    obtain ⟨c, hc, hrest⟩ := Option.bind_eq_some_iff.mp h
    obtain ⟨cs, hcs, heq⟩ := Option.bind_eq_some_iff.mp hrest
    obtain rfl := Option.some.inj heq
    exact .cons hc (ih hcs)

theorem forall₂_map_eq {γ δ : Type} {R : α → γ → Prop} {f : α → δ} {g : γ → δ} {l : List α} {l' : List γ}
    (h : List.Forall₂ R l l') (hfg : ∀ a c, R a c → g c = f a) : l'.map g = l.map f := by
  induction h with
  | nil => rfl
  | cons hac _ ih => rw [List.map_cons, List.map_cons, hfg _ _ hac, ih]

/-- Two steps on an optional operand. -/
theorem optionRel_trans {P Q S : α → α → Prop} {o o₁ o₂ : Option α} (hP : Option.Rel P o o₁)
    (hQ : Option.Rel Q o₁ o₂) (h : ∀ a b c, o = some a → P a b → Q b c → S a c) :
    Option.Rel S o o₂ := by
  cases hP with
  | none =>
    cases hQ
    exact .none
  | some hab =>
    cases hQ with
    | some hbc => exact .some (h _ _ _ rfl hab hbc)

/-- The strings of a blob start where those of the blobs before it end. -/
theorem Layout.stringBase_eq (h : Layout H unit ca lp blobs) {program : CompilerProgram κ}
    {functions : List FinishedFunction}
    (hextracted : List.Forall₂ (Extracted program) functions unit.builders)
    (hplaced : placed ∈ placedBlobs blobs) {f : FinishedFunction} (hname : placed.1.1.name = f.name) :
    placed.1.2.stringBase = stringsBefore program functions (blobs.map (·.name)) f := by
  have hplace := h.sorted.idxOf_name (getElem?_of_mem_placedBlobs hplaced)
  rw [hname] at hplace
  rw [placed_offsets hplaced, stringsBefore, hplace]
  show ((blobs.map (·.body.strings.length)).take placed.2).sum = _
  rw [sum_take_eq (fun b : Blob κ η => b.name) (fun b => b.body.strings.length) h.sorted.names_nodup]
  rw [h.sorted.sum_eq fun name body =>
    if (blobs.map (·.name)).idxOf name < placed.2 then body.strings.length else 0]
  refine congrArg List.sum (forall₂_map_eq hextracted fun g y hy => ?_)
  rw [hy.name, hy.strings.length_eq]

/-- Few strings and few functions always fit. -/
theorem indicesFit_of_total {program : CompilerProgram κ} {functions : List FinishedFunction}
    (hnames : ∀ f ∈ functions, ∀ op ∈ operands (code program f), op.NameFits)
    (hstrings : (functions.map fun f => (firstUses (stringIds program f)).length).sum ≤ 65536)
    (hlength : unit.names.length < 65536) : IndicesFit program functions unit := by
  refine ⟨hnames, fun order horder f hf op hop s hs => ?_, fun order horder f hf op hop e he m hm => ?_⟩
  · have hmem : s ∈ firstUses (stringIds program f) := by
      refine Intern.mem_firstUses.mpr (List.mem_filterMap.mpr ⟨op, hop, ?_⟩)
      cases op <;> first | exact hs | cases hs
    have hlt := List.idxOf_lt_length_of_mem hmem
    have hle : ∀ l : List FinishedFunction, (l.map fun g => if order.idxOf g.name < order.idxOf f.name
        then (firstUses (stringIds program g)).length else 0).sum
          ≤ (l.map fun g => (firstUses (stringIds program g)).length).sum := by
      intro l
      refine List.sum_le_sum fun g _ => ?_
      split <;> omega
    -- `f` itself is not counted among what comes before it
    obtain ⟨l, l', rfl⟩ := List.append_of_mem hf
    have hbefore := hle l
    have hafter := hle l'
    unfold stringsBefore
    simp only [List.map_append, List.map_cons, List.sum_append, List.sum_cons, Nat.lt_irrefl,
      if_false] at hstrings ⊢
    omega
  · have hle := List.idxOf_le_length (a := m) (l := order)
    have hshort := horder.length_le
    omega

end Link

/-! ## A small program, and one with many strings -/

/-- A finished function without parameters and recorded callees. -/
def finished (name : String) (instrStart instrEnd : Nat) : FinishedFunction where
  name := name
  instrStart := instrStart
  instrEnd := instrEnd
  calledFunctions := []
  typeSchemas := []
  requiredPermissions := ∅
  func := ⟨0, [], 0, false, 0, false, [], [], [], none⟩
  captureKinds := []

theorem link_of_isOk (unit : Compilation (Body Unit))
    (hok : (link .zero (compiledProgram unit)).isOk = true) :
    ∃ lp, link .zero (compiledProgram unit) = .ok lp := by
  cases hlink : link .zero (compiledProgram unit) with
  | ok lp => exact ⟨lp, rfl⟩
  | error e =>
    rw [hlink] at hok
    cases hok

/-- `a` uses a constant and a string, `__main__` a function and the other string. -/
def smallProgram : CompilerProgram Unit where
  instructions := [⟨.other 0, some (.const 0)⟩, ⟨.other 0, some (.property 1)⟩,
    ⟨.other 0, some (.function 0)⟩, ⟨.other 0, some (.name 0)⟩]
  constants := [.other ()]
  strings := ["x", "y"]
  functions := ["a"]
  foreignFunctions := []

def smallUnit : Compilation (Body Unit) where
  builders := [⟨"a", [], ∅, { emptyBody Unit with
      instructions := [⟨.other 0, some (.const 0)⟩, ⟨.other 0, some (.property 0)⟩]
      constants := [.other ()]
      strings := ["y"] }⟩,
    ⟨"__main__", ["a"], ∅, { emptyBody Unit with
      instructions := [⟨.other 0, some (.function 0)⟩, ⟨.other 0, some (.name 0)⟩]
      strings := ["x"] }⟩]
  names_nodup := by decide

section ManyStrings

variable {program : CompilerProgram κ}

/-- The first pass over code that uses strings only. -/
theorem exists_scan {ops : List Operand} (st : Pools κ)
    (hops : ∀ op ∈ ops, ∃ idx, op.stringId = some idx ∧ idx.toNat < program.strings.length) :
    ∃ strings, scan program st ops = some { st with strings := strings } := by
  induction ops generalizing st with
  | nil => exact ⟨st.strings, rfl⟩
  | cons op ops ih =>
    obtain ⟨idx, hidx, hlt⟩ := hops op List.mem_cons_self
    have hop : scanOperand program st op = internString program st idx := by
      cases op <;> cases hidx <;> rfl
    have hstep : ∃ strings, scanOperand program st op = some { st with strings := strings } := by
      rw [hop, internString]
      split
      · exact ⟨st.strings, rfl⟩
      · rw [List.getElem?_eq_getElem hlt]
        exact ⟨_, rfl⟩
    obtain ⟨strings, hfirst⟩ := hstep
    obtain ⟨strings', hrest⟩ := ih { st with strings := strings }
      fun op' hop' => hops op' (List.mem_cons_of_mem _ hop')
    refine ⟨strings', ?_⟩
    unfold scan at hrest ⊢
    rw [List.foldlM_cons, hfirst]
    exact hrest

theorem foreignPass_eq_self {instrs : List Instruction} (deps : Pool ForeignHash ForeignHash)
    (h : ∀ instr ∈ instrs, instr.opcode.isForeignCall = false) :
    foreignPass program deps instrs = some (instrs, deps) := by
  induction instrs with
  | nil => rfl
  | cons instr instrs ih =>
    have hfirst : foreignOperand program deps instr = some (instr, deps) := by
      rw [foreignOperand, if_neg]
      simp [h instr List.mem_cons_self]
    rw [foreignPass, hfirst]
    simp [ih fun instr' hin => h instr' (List.mem_cons_of_mem _ hin)]

theorem extract_eq {f : FinishedFunction} {instrs instrs' : List Instruction} {st : Pools κ}
    {deps : Pool ForeignHash ForeignHash} (hrange : globalInstructions program f = some instrs)
    (hscan : scan program ⟨.empty, .empty, fun _ => none, f.calledFunctions⟩ (operands instrs) = some st)
    (hpass : foreignPass program .empty (instrs.map (localInstruction st)) = some (instrs', deps)) :
    extract program f
      = some ⟨f.name, st.calledFunctions, f.requiredPermissions, localBody f instrs' st deps⟩ := by
  simp only [extract, hrange, hscan, hpass, Option.bind_eq_bind, Option.bind_some]

/-- A compilation whose hashes settle is linked, if its pools are small and it has no closures and no
foreign calls. -/
theorem exists_link {unit : Compilation (Body Unit)} (hsettle : HashesSettle unit)
    (hmain : "__main__" ∈ unit.names)
    (hconstants : (unit.builders.map (·.body.constants.length)).sum ≤ maxConstants)
    (hstrings : (unit.builders.map (·.body.strings.length)).sum ≤ maxStrings)
    (hclosures : ∀ x ∈ unit.builders, x.body.isClosure = false)
    (hforeign : ∀ x ∈ unit.builders, ∀ instr ∈ x.body.instructions, ∀ o,
      instr.operand ≠ some (.foreignFunction o)) :
    (buildContentAddressedProgram (contentSha256 (Body Unit)) unit).blobNameToHash "__main__"
        = some (compiledProgram unit).entry ∧
      ∃ lp, link .zero (compiledProgram unit) = .ok lp := by
  have hlinked := build_linked (contentSha256 (Body Unit)) unit
  -- the entry digest is the one under the name `__main__`
  obtain ⟨main, hblob⟩ := hlinked.exists_blob hmain
  have hentry : (buildContentAddressedProgram (contentSha256 (Body Unit)) unit).blobNameToHash
      "__main__" = some (compiledProgram unit).entry := by
    rw [compiledProgram, hlinked.coherent.blobNameToHash_eq, hblob]
    rfl
  refine ⟨hentry, ?_⟩
  obtain ⟨order, horder⟩ := topoSort_of_pointersGood (contentSha256 (Body Unit)) unit
    ((pointersGood_iff _ unit).mpr hsettle) hentry
  obtain ⟨blobs, hblobs⟩ : ∃ blobs, sortedBlobs .zero (compiledProgram unit) = .ok blobs :=
    sortedBlobs_ok_of_topoSort horder
  have hsorted : SortedBlobs (contentSha256 (Body Unit)).zero
      (buildContentAddressedProgram (contentSha256 (Body Unit)) unit).functionStore blobs :=
    sortedBlobs_spec hlinked.coherent.wellKeyed hblobs
  -- linking keeps the bodies, so the bounds on the builders are bounds on the blobs
  have hsource : ∀ b ∈ blobs, ∃ x ∈ unit.builders, b.body = x.body := by
    intro b hb
    obtain ⟨x, hx, -, hbody, -⟩ := build_fromBuilder _ unit _ b ((hsorted.blob? b).mp hb)
    exact ⟨x, hx, hbody⟩
  have hlinkable : Linkable (compiledProgram unit) blobs := by
    refine ⟨?_, ?_, fun b hb => ?_, fun b hb instr hinstr o ho => ?_⟩
    · rw [hsorted.sum_eq fun _ body => body.constants.length]
      exact hconstants
    · rw [hsorted.sum_eq fun _ body => body.strings.length]
      exact hstrings
    · obtain ⟨x, hx, hbody⟩ := hsource b hb
      exact Or.inr (Or.inl (hbody ▸ hclosures x hx))
    · obtain ⟨x, hx, hbody⟩ := hsource b hb
      exact absurd ho (hforeign x hx instr (hbody ▸ hinstr) o)
  obtain ⟨lp, hlp⟩ := exists_linkBlobs .zero hlinkable
  refine ⟨lp, ?_⟩
  unfold link
  rw [hblobs]
  exact hlp

end ManyStrings

/-- `a` reads the properties `""`, `"x"`, `"xx"`, … ; `__main__` calls `a` and reads `"x"`. -/
def propertyProgram (n : Nat) : CompilerProgram Unit where
  instructions := ⟨.other 0, some (.function 0)⟩ :: ⟨.other 0, some (.property 1)⟩ ::
    (List.range n).map fun i => ⟨.other 0, some (.property (.ofNat i))⟩
  constants := []
  strings := (List.range n).map fun i => String.ofList (List.replicate i 'x')
  functions := ["a"]
  foreignFunctions := []


section Property

variable {n : Nat}

theorem code_a : code (propertyProgram n) (finished "a" 2 (n + 2))
    = (List.range n).map fun i => ⟨.other 0, some (.property (.ofNat i))⟩ := by
  simp [code, finished, propertyProgram]

theorem stringIds_a : stringIds (propertyProgram n) (finished "a" 2 (n + 2))
    = (List.range n).map UInt16.ofNat := by
  rw [stringIds, code_a, operands, List.filterMap_map, List.filterMap_filterMap]
  exact congrFun List.filterMap_eq_map _

theorem nodup_ofNat (hn : n ≤ 65536) : ((List.range n).map UInt16.ofNat).Nodup := by
  refine List.Nodup.map_on (fun i hi j hj hij => ?_) List.nodup_range
  have hi' := List.mem_range.mp hi
  have hj' := List.mem_range.mp hj
  rw [← index_fits (j := i) (by omega), ← index_fits (j := j) (by omega), hij]

/-- The blob of `a`. -/
theorem exists_extract_a (hn : n ≤ 65536) :
    ∃ x, extract (propertyProgram n) (finished "a" 2 (n + 2)) = some x ∧ x.calledFunctions = [] ∧
      x.body.constants = [] ∧ x.body.isClosure = false ∧
      ∀ instr ∈ x.body.instructions, ∀ o, instr.operand ≠ some (.foreignFunction o) := by
  have hrange : globalInstructions (propertyProgram n) (finished "a" 2 (n + 2))
      = some (code (propertyProgram n) (finished "a" 2 (n + 2))) := by
    rw [globalInstructions, if_pos]
    · rfl
    · simp [finished, propertyProgram]
  rw [code_a] at hrange
  -- every operand is a property, and all of them have an index below 65536
  have hops : ∀ op ∈ operands ((List.range n).map fun i =>
      (⟨.other 0, some (.property (.ofNat i))⟩ : Instruction)),
      ∃ idx, op.stringId = some idx ∧ idx.toNat < (propertyProgram n).strings.length := by
    intro op hop
    obtain ⟨instr, hinstr, hop⟩ := List.mem_filterMap.mp hop
    obtain ⟨i, hi, rfl⟩ := List.mem_map.mp hinstr
    obtain rfl := Option.some.inj hop
    have hi' := List.mem_range.mp hi
    refine ⟨_, rfl, ?_⟩
    rw [index_fits (by omega), propertyProgram, List.length_map, List.length_range]
    exact hi'
  obtain ⟨strings, hscan⟩ := exists_scan ⟨.empty, .empty, fun _ => none, []⟩ hops
  have hlocal : ∀ instr ∈ ((List.range n).map fun i =>
      (⟨.other 0, some (.property (.ofNat i))⟩ : Instruction)).map
        (localInstruction (⟨.empty, strings, fun _ => none, []⟩ : Pools Unit)),
      ∃ i, instr = ⟨.other 0, some (.property i)⟩ := by
    intro instr hinstr
    rw [List.map_map] at hinstr
    obtain ⟨i, -, rfl⟩ := List.mem_map.mp hinstr
    exact ⟨_, rfl⟩
  have hplain : ∀ instr ∈ ((List.range n).map fun i =>
      (⟨.other 0, some (.property (.ofNat i))⟩ : Instruction)).map
        (localInstruction (⟨.empty, strings, fun _ => none, []⟩ : Pools Unit)),
      instr.opcode.isForeignCall = false := by
    intro instr hinstr
    obtain ⟨i, rfl⟩ := hlocal instr hinstr
    rfl
  refine ⟨_, extract_eq hrange hscan (foreignPass_eq_self .empty hplain), rfl, rfl, rfl, ?_⟩
  intro instr hinstr o ho
  obtain ⟨i, rfl⟩ := hlocal instr hinstr
  cases ho

/-- The blob of `__main__`. -/
def mainBlob : FunctionBlobBuilder (Body Unit) where
  name := "__main__"
  calledFunctions := ["a"]
  requiredPermissions := ∅
  body := { emptyBody Unit with
    instructions := [⟨.other 0, some (.function 0)⟩, ⟨.other 0, some (.property 0)⟩]
    strings := ["x"] }

theorem extract_main : extract (propertyProgram (n + 2)) (finished "__main__" 0 2) = some mainBlob := by
  have hrange : globalInstructions (propertyProgram (n + 2)) (finished "__main__" 0 2)
      = some [⟨.other 0, some (.function 0)⟩, ⟨.other 0, some (.property 1)⟩] := by
    rw [globalInstructions, if_pos]
    · rfl
    · simp [finished, propertyProgram]
  have htext : (propertyProgram (n + 2)).strings[1]? = some "x" := by
    simp [propertyProgram]
  have hfunction : scanOperand (propertyProgram (n + 2)) ⟨.empty, .empty, fun _ => none, []⟩ (.function 0)
      = some ⟨.empty, .empty, Function.update (fun _ => none) 0 (some 0), ["a"]⟩ := rfl
  have hstring : scanOperand (propertyProgram (n + 2))
      ⟨.empty, .empty, Function.update (fun _ => none) 0 (some 0), ["a"]⟩ (.property 1)
        = some ⟨.empty, Pool.intern .empty 1 "x", Function.update (fun _ => none) 0 (some 0), ["a"]⟩ := by
    rw [scanOperand, internString, show (1 : UInt16).toNat = 1 from rfl, htext]
    rfl
  have hscan : scan (propertyProgram (n + 2)) ⟨.empty, .empty, fun _ => none, []⟩ [.function 0, .property 1]
      = some ⟨.empty, Pool.intern .empty 1 "x", Function.update (fun _ => none) 0 (some 0), ["a"]⟩ := by
    rw [scan, List.foldlM_cons, hfunction, Option.bind_eq_bind, Option.bind_some, List.foldlM_cons,
      hstring]
    rfl
  exact extract_eq hrange hscan rfl

theorem wellFormed_propertyProgram : (propertyProgram n).WellFormed := by
  have hcases : ∀ instr ∈ (propertyProgram n).instructions, instr.operand = some (.function 0) ∨
      ∃ i, instr.operand = some (.property i) := by
    intro instr hinstr
    rcases List.mem_cons.mp hinstr with rfl | hinstr
    · exact Or.inl rfl
    rcases List.mem_cons.mp hinstr with rfl | hinstr
    · exact Or.inr ⟨_, rfl⟩
    · obtain ⟨i, -, rfl⟩ := List.mem_map.mp hinstr
      exact Or.inr ⟨_, rfl⟩
  refine ⟨fun instr hinstr fid hfid => ?_, fun c hc => absurd hc List.not_mem_nil,
    fun instr hinstr idx hidx => ?_⟩
  · rw [Instruction.callee] at hfid
    rcases hcases instr hinstr with hop | ⟨i, hop⟩
    · rw [hop] at hfid
      obtain rfl := Option.some.inj hfid
      exact Nat.one_pos
    · rw [hop] at hfid
      cases hfid
  · rcases hcases instr hinstr with hop | ⟨i, hop⟩
    · rw [hop] at hidx
      cases hidx
    · rw [hop] at hidx
      cases hidx

theorem extracted_propertyProgram {f : FinishedFunction} (hcalled : f.calledFunctions = [])
    {x : FunctionBlobBuilder (Body Unit)} (hx : extract (propertyProgram n) f = some x) :
    Extracted (propertyProgram n) f x := by
  refine extract_denotes wellFormed_propertyProgram ?_ (fun op hop => ?_) hx
  · rw [hcalled]
    exact ⟨List.nodup_nil, fun c hc => absurd hc List.not_mem_nil⟩
  · obtain ⟨instr, hinstr, hop⟩ := List.mem_filterMap.mp hop
    have hinstr' := List.mem_of_mem_take (List.mem_of_mem_drop hinstr)
    rcases List.mem_cons.mp hinstr' with rfl | hinstr'
    · obtain rfl := Option.some.inj hop
      trivial
    rcases List.mem_cons.mp hinstr' with rfl | hinstr'
    · obtain rfl := Option.some.inj hop
      trivial
    · obtain ⟨i, -, rfl⟩ := List.mem_map.mp hinstr'
      obtain rfl := Option.some.inj hop
      trivial

/-- The two blobs, `a` finished first. -/
def propertyUnit (a : FunctionBlobBuilder (Body Unit)) (ha : a.name = "a") : Compilation (Body Unit) where
  builders := [a, mainBlob]
  names_nodup := by simp [ha, mainBlob]

section Unit

variable {a : FunctionBlobBuilder (Body Unit)} {ha : a.name = "a"} (hcalled : a.calledFunctions = [])
include hcalled

theorem calls_propertyUnit {x y : String} (h : Calls (propertyUnit a ha) x y) :
    x = "__main__" ∧ y = "a" := by
  obtain ⟨z, hz, rfl, hy, -⟩ := h
  rcases List.mem_cons.mp hz with rfl | hz
  · rw [hcalled] at hy
    cases hy
  · obtain rfl := List.mem_singleton.mp hz
    exact ⟨rfl, List.mem_singleton.mp hy⟩

theorem plainCall_propertyUnit : PlainCall (propertyUnit a ha) "__main__" "a" := by
  refine ⟨⟨mainBlob, List.mem_cons_of_mem _ (List.mem_singleton_self _), rfl, List.mem_singleton_self _,
    List.mem_map.mpr ⟨a, List.mem_cons_self, ha⟩⟩, by decide, fun hback => ?_⟩
  rcases Relation.ReflTransGen.cases_head hback with heq | ⟨c, hc, -⟩
  · exact absurd heq (by decide)
  · exact absurd (calls_propertyUnit hcalled hc).1 (by decide)

theorem hashesSettle_propertyUnit : HashesSettle (propertyUnit a ha) := by
  refine hashesSettle_of_chains fun l hl => ?_
  -- no two plain calls follow each other
  rcases l with _ | ⟨x, _ | ⟨y, _ | ⟨z, rest⟩⟩⟩
  · exact Nat.zero_le _
  · exact Nat.le_add_left 1 10
  · exact Nat.le_add_left 2 9
  · obtain ⟨hxy, hrest⟩ := List.isChain_cons_cons.mp hl
    have hy := (calls_propertyUnit hcalled (List.isChain_cons_cons.mp hrest).1.1).1
    rw [(calls_propertyUnit hcalled hxy.1).2] at hy
    exact absurd hy (by decide)

end Unit

theorem exists_link_propertyUnit {a : FunctionBlobBuilder (Body Unit)} (ha : a.name = "a")
    (hcalled : a.calledFunctions = []) (hconstants : a.body.constants = [])
    (hstrings : a.body.strings.length ≤ 65536) (hclosure : a.body.isClosure = false)
    (hforeign : ∀ instr ∈ a.body.instructions, ∀ o, instr.operand ≠ some (.foreignFunction o)) :
    (buildContentAddressedProgram (contentSha256 (Body Unit)) (propertyUnit a ha)).blobNameToHash
        "__main__" = some (compiledProgram (propertyUnit a ha)).entry ∧
      ∃ lp, link .zero (compiledProgram (propertyUnit a ha)) = .ok lp := by
  -- a property of both blobs
  have hboth : ∀ {P : FunctionBlobBuilder (Body Unit) → Prop}, P a → P mainBlob →
      ∀ x ∈ (propertyUnit a ha).builders, P x := by
    intro P h h' x hx
    rcases List.mem_cons.mp hx with rfl | hx
    · exact h
    · rw [List.mem_singleton.mp hx]
      exact h'
  refine exists_link (hashesSettle_propertyUnit hcalled)
    (List.mem_map.mpr ⟨mainBlob, List.mem_cons_of_mem _ (List.mem_singleton_self _), rfl⟩) ?_ ?_
    (hboth hclosure rfl) (hboth hforeign fun instr hinstr o ho => ?_)
  · show a.body.constants.length + (0 + 0) ≤ maxConstants
    rw [hconstants]
    exact Nat.zero_le _
  · show a.body.strings.length + (1 + 0) ≤ maxStrings
    refine (Nat.add_le_add_right hstrings 1).trans ?_
    rw [maxStrings]
    norm_num
  · rcases List.mem_cons.mp hinstr with rfl | hinstr
    · cases ho
    · obtain rfl := List.mem_singleton.mp hinstr
      cases ho

/-- What the linked `__main__` reads. -/
theorem property_not_preserved {a : FunctionBlobBuilder (Body Unit)} (hn : n + 2 = 65536)
    (hexa : Extracted (propertyProgram (n + 2)) (finished "a" 2 (n + 2 + 2)) a)
    (hexm : Extracted (propertyProgram (n + 2)) (finished "__main__" 0 2) mainBlob)
    (hcalled : a.calledFunctions = []) {lp : LinkedProgram Unit (ContentDigest (Body Unit))}
    (hlp : link .zero (compiledProgram (propertyUnit a hexa.name)) = .ok lp)
    (hentry : (buildContentAddressedProgram (contentSha256 (Body Unit))
      (propertyUnit a hexa.name)).blobNameToHash "__main__"
        = some (compiledProgram (propertyUnit a hexa.name)).entry) :
    ¬ OperandsPreserved (propertyProgram (n + 2)) [finished "a" 2 (n + 2 + 2), finished "__main__" 0 2]
      lp := by
  intro hkept
  have hextracted : List.Forall₂ (Extracted (propertyProgram (n + 2)))
      [finished "a" 2 (n + 2 + 2), finished "__main__" 0 2] (propertyUnit a hexa.name).builders :=
    .cons hexa (.cons hexm .nil)
  obtain ⟨blobs, hlay, hsort⟩ := exists_layout (H := contentSha256 (Body Unit)) rfl hlp
  have hlt : (blobs.map (·.name)).idxOf (finished "a" 2 (n + 2 + 2)).name
      < (blobs.map (·.name)).idxOf (finished "__main__" 0 2).name :=
    (hlay.linkOrder rfl hentry hsort).idxOf_lt (plainCall_propertyUnit hcalled)
  -- `a` starts at 0 and `__main__` after its 65536 strings
  obtain ⟨ba, hba, hban, hbabody, -⟩ := hlay.exists_blob (y := a) List.mem_cons_self
  obtain ⟨pa, hpa, rfl⟩ := exists_placedBlobs hba
  have hfilled : (firstUses (stringIds (propertyProgram (n + 2)) (finished "a" 2 (n + 2 + 2)))).length
      = 65536 := by
    rw [stringIds_a, Intern.firstUses_of_nodup (nodup_ofNat hn.le), List.length_map, List.length_range, hn]
  have hbasea : pa.1.2.stringBase = 0 := by
    rw [hlay.stringBase_eq hextracted hpa (f := finished "a" 2 (n + 2 + 2)) (hban.trans hexa.name)]
    simp only [stringsBefore, List.map_cons, List.map_nil, List.sum_cons, List.sum_nil]
    rw [if_neg (Nat.lt_irrefl _), if_neg hlt.not_gt, Nat.add_zero, Nat.add_zero]
  obtain ⟨g, hg, hgn, hlen, hcode⟩ := hkept _ (List.mem_cons_of_mem _ (List.mem_singleton_self _))
  obtain ⟨pm, hpm, rfl, hb⟩ := hlay.exists_placed hg
  have hname : pm.1.1.name = "__main__" := hgn
  have hbasem : pm.1.2.stringBase = 65536 := by
    rw [hlay.stringBase_eq hextracted hpm (f := finished "__main__" 0 2) hname]
    simp only [stringsBefore, List.map_cons, List.map_nil, List.sum_cons, List.sum_nil]
    rw [if_pos hlt, if_neg (Nat.lt_irrefl _), hfilled, Nat.add_zero, Nat.add_zero]
  obtain ⟨y, hy, hyn, hbody, -⟩ := build_fromBuilder _ _ _ _ hb
  obtain rfl : y = mainBlob := (propertyUnit a hexa.name).builder_unique hy
    (List.mem_cons_of_mem _ (List.mem_singleton_self _)) (hyn.trans hname)
  obtain ⟨instr, instr', hinstr, hinstr', -, hsame⟩ := hcode 1 (by rw [hlen]; exact Nat.one_lt_two)
  obtain rfl : (⟨.other 0, some (.property 1)⟩ : Instruction) = instr := Option.some.inj hinstr
  have hat : pm.1.1.body.instructions[1]? = some ⟨.other 0, some (.property 0)⟩ := by
    rw [hbody]
    rfl
  -- the linked operand is 65536 in sixteen bits, and the string there is the first one of `a`
  obtain ⟨r, hr, hremap⟩ := hlay.linked.getElem?_instructions hpm hat
  obtain rfl : r = instr' := Option.some.inj (hr.symm.trans hinstr')
  have hoperand : r.operand = some (.property 0) := by
    have hrel := (remapInstruction_cases hremap).2
    cases hop : r.operand with
    | none =>
      rw [hop] at hrel
      cases hrel
    | some op =>
      rw [hop] at hrel
      cases hrel with
      | some hok =>
        rw [remapOperand, hbasem] at hok
        exact congrArg some (Except.ok.inj hok).symm
  have hfirst : lp.strings[0]? = some "" := by
    have hids := hexa.strings
    rw [stringIds_a, Intern.firstUses_of_nodup (nodup_ofNat hn.le), List.range_succ_eq_map] at hids
    cases hstrings : a.body.strings with
    | nil =>
      rw [hstrings] at hids
      cases hids
    | cons text rest =>
      rw [hstrings] at hids
      obtain ⟨htext, -⟩ := List.forall₂_cons.mp hids
      have hplace := hlay.linked.getElem?_strings hpa (i := 0) (by
        rw [hbabody, hstrings]
        rfl)
      rw [hbasea] at hplace
      rw [hplace, ← htext]
      simp [propertyProgram]
  rw [SameEntity, hoperand] at hsame
  cases hsame with
  | some hent =>
    obtain ⟨e, he, he'⟩ := hent
    have hx : (propertyProgram (n + 2)).strings[1]? = some "x" := by
      simp [propertyProgram]
    have hglobal : (propertyProgram (n + 2)).env.entity (.property 1) = some (.property "x") := by
      show (propertyProgram (n + 2)).strings[(1 : UInt16).toNat]?.map _ = _
      rw [show (1 : UInt16).toNat = 1 from rfl, hx]
      rfl
    have hlinked : lp.env.entity (.property 0) = some (.property "") := by
      show lp.strings[(0 : UInt16).toNat]?.map _ = _
      rw [show (0 : UInt16).toNat = 0 from rfl, hfirst]
      rfl
    have heq := (he'.symm.trans hlinked).symm.trans (he.symm.trans hglobal)
    exact absurd heq (by decide)

end Property

end ShapeLang.Bytecode
