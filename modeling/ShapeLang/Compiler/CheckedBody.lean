import Mathlib

/-!
# The install transaction

A generated body is installed in a transaction (`crates/shape-vm/src/compiler/checked_body`). Three
mechanisms undo it. A journal keeps what was there before each write to a table that is keyed by a
name, and is replayed from its end. The tables that are keyed by a function index are cut at the
number of functions that the transaction began with, and the specialization cache drops its entries
from that index on. The storage decisions of a function are forgotten when the journal takes its
analysis back.

What the compiler computes for an entry (a MIR body, a plan, a type, a row) is an opaque fact here.
-/

namespace ShapeLang.Compiler

/-- The tables that are keyed by a name. -/
inductive Table where
  | functionDefs
  | functionArityBounds
  | functionConstParams
  | functionReturnConcreteTypes
  | mirFunctions
  | mirBorrowAnalyses
  | mirStoragePlans
  | mirFieldAnalyses
  | mirSpanToPoint
  | functionBorrowSummaries
  | functionReturnReferenceSummaries
  | hoistedFields
  | hoistedFieldTypes
  deriving DecidableEq

structure FunctionParameter where
  isConst : Bool
  hasDefault : Bool
  deriving DecidableEq

section

variable {F : Type}

structure FunctionDef (F : Type) where
  name : String
  params : List FunctionParameter
  /-- The declared return type, where it resolves to a concrete one. -/
  returnConcreteType : Option F

inductive Entry (F : Type) where
  | definition (def_ : FunctionDef F)
  | arityBounds (required total : Nat)
  | constParams (positions : List Nat)
  | fact (value : F)

structure BindingStorageDecision (F : Type) where
  name : String
  nameSpan : Nat × Nat
  owner : Option String
  slot : UInt16
  isLocal : Bool
  storageClass : F

/-- A row of the function table. -/
structure FunctionRow where
  name : String
  arity : UInt16
  deriving DecidableEq

/-- A record of a generated symbol, with its origin and content. -/
structure GeneratedSymbolRecord (F : Type) where
  declName : String
  content : F

structure GeneratedSymbols (F : Type) where
  names : String → Option Nat
  records : Nat → Option (GeneratedSymbolRecord F)

inductive SpecializationKey where
  | legacy (key : String)
  | exact (key : String)
  deriving DecidableEq

/-- What the journal restores. -/
structure Journaled (F : Type) where
  tables : Table → String → Option (Entry F)
  ownedMutableLocals : String → Bool
  hookInstallRegistry : List F

/-- What the watermark cuts. -/
structure IndexedTables (F : Type) where
  functions : List FunctionRow
  closureTypeIds : List (UInt16 × F)
  closureFunctionIds : List (String × UInt16)
  closureCaptureNames : List (UInt16 × List String)
  functionTypeIds : List (UInt16 × F)
  closureCapturePacks : List (UInt16 × F)

/-- One restore action. -/
inductive Undo (F : Type) where
  | restore (key : String) (priors : List (Table × Option (Entry F)))
  | analysis (key : String) (priors : List (Table × Option (Entry F)))
  | ownedMutableLocal (key : String) (wasPresent : Bool)
  | hookInstallRows (priorLen : Nat)

structure InstallJournal (F : Type) where
  executable : List (Undo F)
  queryRetained : List (String × Nat)

structure BytecodeCompiler (F : Type) where
  journaled : Journaled F
  generatedSymbols : GeneratedSymbols F
  bindingStorageDecisions : List (BindingStorageDecision F)
  indexed : IndexedTables F
  monomorphizationCache : SpecializationKey → Option UInt16
  monomorphizationInProgress : List SpecializationKey
  installJournal : Option (InstallJournal F)

/-! ## The journal -/

def restoreMap (tables : Table → String → Option (Entry F)) (key : String)
    (prior : Table × Option (Entry F)) :
    Table → String → Option (Entry F) :=
  Function.update tables prior.1 (Function.update (tables prior.1) key prior.2)

def restoreMaps (tables : Table → String → Option (Entry F)) (key : String)
    (priors : List (Table × Option (Entry F))) :
    Table → String → Option (Entry F) :=
  priors.foldl (fun tables prior => restoreMap tables key prior) tables

/-- What an action does to the journaled tables. -/
def Undo.apply (j : Journaled F) : Undo F → Journaled F
  | .restore key priors => { j with tables := restoreMaps j.tables key priors }
  | .analysis key priors => { j with tables := restoreMaps j.tables key priors }
  | .ownedMutableLocal key wasPresent =>
    { j with ownedMutableLocals := Function.update j.ownedMutableLocals key wasPresent }
  | .hookInstallRows priorLen => { j with hookInstallRegistry := j.hookInstallRegistry.take priorLen }

def forgetOwner (decisions : List (BindingStorageDecision F)) (owner : String) :
    List (BindingStorageDecision F) :=
  decisions.filter fun decision => decision.owner ≠ some owner

/-- What an action does to the decisions. -/
def Undo.forget (decisions : List (BindingStorageDecision F)) : Undo F → List (BindingStorageDecision F)
  | .analysis key _ => forgetOwner decisions key
  | _ => decisions

def GeneratedSymbols.removeReservation (s : GeneratedSymbols F) (declName : String) (id : Nat) :
    GeneratedSymbols F where
  records := Function.update s.records id none
  names := if s.names declName = some id then Function.update s.names declName none else s.names

namespace BytecodeCompiler

def new : BytecodeCompiler F where
  journaled := ⟨fun _ _ => none, fun _ => false, []⟩
  generatedSymbols := ⟨fun _ => none, fun _ => none⟩
  bindingStorageDecisions := []
  indexed := ⟨[], [], [], [], [], []⟩
  monomorphizationCache := fun _ => none
  monomorphizationInProgress := []
  installJournal := none

def pushExecutableUndo (c : BytecodeCompiler F) (undo : Undo F) : BytecodeCompiler F :=
  { c with installJournal := c.installJournal.map fun j => { j with executable := j.executable ++ [undo] } }

def pushQueryRetainedUndo (c : BytecodeCompiler F) (declName : String) (id : Nat) : BytecodeCompiler F :=
  { c with
    installJournal :=
      c.installJournal.map fun j => { j with queryRetained := j.queryRetained ++ [(declName, id)] }
      }

/-- The values under a name in some tables. -/
def priors (c : BytecodeCompiler F) (tables : List Table) (key : String) :
    List (Table × Option (Entry F)) :=
  tables.map fun table => (table, c.journaled.tables table key)

def registerTables : List Table :=
  [.functionDefs, .functionArityBounds, .functionConstParams, .functionReturnConcreteTypes]

def analysisTables : List Table :=
  [.mirFunctions, .mirBorrowAnalyses, .mirStoragePlans, .mirFieldAnalyses, .mirSpanToPoint,
    .functionBorrowSummaries, .functionReturnReferenceSummaries]

def journalRecordRegisterFunction (c : BytecodeCompiler F) (name : String) : BytecodeCompiler F :=
  c.pushExecutableUndo (.restore name (c.priors registerTables name))

def journalRecordAnalyzeFunctionBody (c : BytecodeCompiler F) (name : String) : BytecodeCompiler F :=
  c.pushExecutableUndo (.analysis name (c.priors analysisTables name))

def journalRecordHoistedField (c : BytecodeCompiler F) (varName : String) : BytecodeCompiler F :=
  c.pushExecutableUndo (.restore varName (c.priors [.hoistedFields, .hoistedFieldTypes] varName))

def journalRecordOwnedMutableLocal (c : BytecodeCompiler F) (name : String) : BytecodeCompiler F :=
  c.pushExecutableUndo (.ownedMutableLocal name (c.journaled.ownedMutableLocals name))

def journalRecordHookInstallRow (c : BytecodeCompiler F) : BytecodeCompiler F :=
  c.pushExecutableUndo (.hookInstallRows c.journaled.hookInstallRegistry.length)

/-! ## The writes -/

/-- `insert`, or `remove` for `none`. -/
def setEntry (c : BytecodeCompiler F) (table : Table) (key : String) (entry : Option (Entry F)) :
    BytecodeCompiler F :=
  { c with journaled := { c.journaled with tables := restoreMap c.journaled.tables key (table, entry) } }

def pushFunction (c : BytecodeCompiler F) (row : FunctionRow) : BytecodeCompiler F :=
  { c with indexed := { c.indexed with functions := c.indexed.functions ++ [row] } }

/-- Trait methods have a `::` in their name and extend methods a dot. -/
def isQualified : List Char → Bool
  | ':' :: ':' :: _ => true
  | '.' :: _ => true
  | _ :: rest => isQualified rest
  | [] => false

/-- The required parameters and the constant ones; `none` when a required parameter follows one with
a default. -/
def scanParams : List FunctionParameter → Nat → Option Nat → List Nat → Option (Nat × List Nat)
  | [], idx, firstDefault, constParams => some (firstDefault.getD idx, constParams)
  | param :: rest, idx, firstDefault, constParams =>
    let constParams := if param.isConst then constParams ++ [idx] else constParams
    if param.hasDefault then scanParams rest (idx + 1) (some (firstDefault.getD idx)) constParams
    else if firstDefault.isSome then none
    else scanParams rest (idx + 1) none constParams

/-- The outcome says whether the call returned `Ok`. -/
def registerFunction (c : BytecodeCompiler F) (funcDef : FunctionDef F) : BytecodeCompiler F × Bool :=
  let existing :=
    if isQualified funcDef.name.toList then none
    else c.indexed.functions.find? fun f => f.name = funcDef.name
  match existing with
  | some f => (c, f.arity = UInt16.ofNat funcDef.params.length)
  | none =>
    let c := c.journalRecordRegisterFunction funcDef.name
    let c := c.setEntry .functionDefs funcDef.name (some (.definition funcDef))
    match scanParams funcDef.params 0 none [] with
    | none => (c, false)
    | some (required, constParams) =>
      let c := c.setEntry .functionArityBounds funcDef.name
          (some (.arityBounds required funcDef.params.length))
      let c := c.setEntry .functionConstParams funcDef.name (some (.constParams constParams))
      let c := c.pushFunction ⟨funcDef.name, UInt16.ofNat funcDef.params.length⟩
      match funcDef.returnConcreteType with
      | none => (c, true)
      | some ct => (c.setEntry .functionReturnConcreteTypes funcDef.name (some (.fact ct)), true)

/-- What the analysis of a body publishes. -/
structure BodyFacts (F : Type) where
  returnReferenceSummary : Option F
  storagePlan : F
  fieldAnalysis : F
  spanToPoint : F
  borrowSummary : Option F
  mirFunction : F
  borrowAnalysis : F

def analyzeFunctionBody (c : BytecodeCompiler F) (name : String) (facts : BodyFacts F) :
    BytecodeCompiler F :=
  let c := c.journalRecordAnalyzeFunctionBody name
  let c := c.setEntry .functionReturnReferenceSummaries name (facts.returnReferenceSummary.map .fact)
  let c := c.setEntry .mirStoragePlans name (some (.fact facts.storagePlan))
  let c := c.setEntry .mirFieldAnalyses name (some (.fact facts.fieldAnalysis))
  let c := c.setEntry .mirSpanToPoint name (some (.fact facts.spanToPoint))
  let c := c.setEntry .functionBorrowSummaries name (facts.borrowSummary.map .fact)
  let c := c.setEntry .mirFunctions name (some (.fact facts.mirFunction))
  c.setEntry .mirBorrowAnalyses name (some (.fact facts.borrowAnalysis))

/-- The types of hoisted fields are written only where some are known. -/
def hoistField (c : BytecodeCompiler F) (varName : String) (fields : F) (types : Option F) :
    BytecodeCompiler F :=
  let c := c.journalRecordHoistedField varName
  let c := match types with
    | none => c
    | some types => c.setEntry .hoistedFieldTypes varName (some (.fact types))
  c.setEntry .hoistedFields varName (some (.fact fields))

def insertOwnedMutableLocal (c : BytecodeCompiler F) (name : String) : BytecodeCompiler F :=
  let c := c.journalRecordOwnedMutableLocal name
  { c with
    journaled :=
      { c.journaled with
        ownedMutableLocals := Function.update c.journaled.ownedMutableLocals name true } }

def pushHookInstallRow (c : BytecodeCompiler F) (row : F) : BytecodeCompiler F :=
  let c := c.journalRecordHookInstallRow
  { c with
    journaled :=
      { c.journaled with hookInstallRegistry := c.journaled.hookInstallRegistry ++ [row] } }

/-- Only a fresh reservation changes anything. -/
def reserveGeneratedDeclJournaled (c : BytecodeCompiler F) (declName : String) (id : Nat) (content : F) :
    BytecodeCompiler F :=
  let s := c.generatedSymbols
  if (s.names declName).any (· ≠ id) then c
  else if (s.records id).isSome then c
  else
    { c with
      generatedSymbols :=
        { names := Function.update s.names declName (some id)
          records := Function.update s.records id (some ⟨declName, content⟩) }
    }.pushQueryRetainedUndo declName id

/-- Replace the first entry of the same declaration, or push. -/
def recordDecision (decisions : List (BindingStorageDecision F)) (decision : BindingStorageDecision F) :
    List (BindingStorageDecision F) :=
  match decisions with
  | [] => [decision]
  | first :: rest =>
    if first.name = decision.name ∧ first.owner = decision.owner ∧
        first.nameSpan = decision.nameSpan then decision :: rest
    else first :: recordDecision rest decision

/-- Change the class of the last decision for the slot. -/
def applyPromotion (decisions : List (BindingStorageDecision F)) (owner : Option String)
    (slot : UInt16) (isLocal : Bool) (storageClass : F) : List (BindingStorageDecision F) :=
  match decisions with
  | [] => []
  | first :: rest =>
    if rest.any fun d => d.slot = slot ∧ d.isLocal = isLocal ∧ d.owner = owner then
      first :: applyPromotion rest owner slot isLocal storageClass
    else if first.slot = slot ∧ first.isLocal = isLocal ∧ first.owner = owner then
      { first with storageClass } :: rest
    else first :: rest

/-- A closure is a row of the function table with an entry in each of the five tables. -/
def registerClosure (c : BytecodeCompiler F) (name : String) (arity : UInt16) (captured : List String)
    (pack closureTypeId functionTypeId : F) : BytecodeCompiler F :=
  let funcIdx := UInt16.ofNat c.indexed.functions.length
  { c with indexed :=
      { functions := c.indexed.functions ++ [⟨name, arity⟩]
        closureTypeIds := c.indexed.closureTypeIds ++ [(funcIdx, closureTypeId)]
        closureFunctionIds := c.indexed.closureFunctionIds ++ [(name, funcIdx)]
        closureCaptureNames := c.indexed.closureCaptureNames ++ [(funcIdx, captured)]
        functionTypeIds := c.indexed.functionTypeIds ++ [(funcIdx, functionTypeId)]
        closureCapturePacks := c.indexed.closureCapturePacks ++ [(funcIdx, pack)] } }

def findFunction (c : BytecodeCompiler F) (name : String) : Option Nat :=
  c.indexed.functions.findIdx? fun f => f.name = name

/-- A specialization up to the compilation of its body: the entry is in the cache before the body is
compiled. -/
def beginSpecialization (c : BytecodeCompiler F) (key : SpecializationKey)
    (funcDef : FunctionDef F) : BytecodeCompiler F :=
  if (c.monomorphizationCache key).isSome then c
  else if key ∈ c.monomorphizationInProgress then c
  else
    let (c, registered) := c.registerFunction funcDef
    if registered then
      match c.findFunction funcDef.name with
      | none => c
      | some idx =>
        if idx < 2 ^ 16 then
          { c with
            monomorphizationCache := Function.update c.monomorphizationCache key (some (UInt16.ofNat idx))
            monomorphizationInProgress := key :: c.monomorphizationInProgress }
        else c
    else c

/-- The end of the compilation of a specialized body. -/
def finishSpecialization (c : BytecodeCompiler F) (key : SpecializationKey) (compiled : Bool) :
    BytecodeCompiler F :=
  if key ∈ c.monomorphizationInProgress then
    let c := { c with monomorphizationInProgress := c.monomorphizationInProgress.erase key }
    if compiled then c
    else { c with monomorphizationCache := Function.update c.monomorphizationCache key none }
  else c

/-! ## The transaction -/

def beginCheckedBodyInstall (c : BytecodeCompiler F) : BytecodeCompiler F × Nat :=
  ({ c with installJournal := some ⟨[], []⟩ }, c.indexed.functions.length)

def replayExecutableJournal (c : BytecodeCompiler F) (journal : InstallJournal F) : BytecodeCompiler F :=
  { c with
    journaled := journal.executable.reverse.foldl Undo.apply c.journaled
    bindingStorageDecisions := journal.executable.reverse.foldl Undo.forget c.bindingStorageDecisions }

def replayQueryRetainedJournal (c : BytecodeCompiler F) (journal : InstallJournal F) : BytecodeCompiler F :=
  { c with
    generatedSymbols :=
      journal.queryRetained.reverse.foldl (fun s (declName, id) => s.removeReservation declName id)
        c.generatedSymbols }

def rollbackIndexedPublications (c : BytecodeCompiler F) (watermark : Nat) : BytecodeCompiler F :=
  { c with indexed := { c.indexed with
      functions := c.indexed.functions.take watermark
      closureTypeIds := c.indexed.closureTypeIds.filter fun entry => entry.1.toNat < watermark
      closureFunctionIds := c.indexed.closureFunctionIds.filter fun entry => entry.2.toNat < watermark
      closureCaptureNames := c.indexed.closureCaptureNames.filter fun entry => entry.1.toNat < watermark
      functionTypeIds := c.indexed.functionTypeIds.filter fun entry => entry.1.toNat < watermark } }

def rollbackCapturePacks (c : BytecodeCompiler F) (watermark : Nat) : BytecodeCompiler F :=
  { c with indexed := { c.indexed with
      closureCapturePacks := c.indexed.closureCapturePacks.filter fun pack => pack.1.toNat < watermark } }

def evictAtOrAboveFunctionIndex (c : BytecodeCompiler F) (watermark : Nat) : BytecodeCompiler F :=
  { c with
    monomorphizationCache := fun key => (c.monomorphizationCache key).filter fun idx => idx.toNat <
      watermark }

/-- `retain` is the mode of a query session. -/
def rollbackCheckedBodyInstall (c : BytecodeCompiler F) (watermark : Nat) (retain : Bool) :
    BytecodeCompiler F :=
  let c := match c.installJournal with
    | none => c
    | some journal =>
      let c := { c with installJournal := none }
      let c := c.replayExecutableJournal journal
      if retain then c else c.replayQueryRetainedJournal journal
  let c := c.rollbackIndexedPublications watermark
  let c := if retain then c else c.rollbackCapturePacks watermark
  c.evictAtOrAboveFunctionIndex watermark

end BytecodeCompiler

end

end ShapeLang.Compiler
