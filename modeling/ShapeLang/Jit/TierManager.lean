import ShapeLang.Lib.HashMap

/-!
# Installed native code and its metadata

The tier manager keeps four tables for the code that a background thread has compiled: the code of
whole functions, the code of loops that are entered while they run (OSR), the deopt points of a
function, and which functions depend on which shapes (`deopt.rs`). `poll_completions` (`tier.rs`)
takes the results that have arrived, and then drains the log of shape transitions and removes the
code that depends on them.

A table of code keeps, beside the pointer, the result that the code came from, and, as a history,
the shapes whose transitions have been drained since; the program reads neither. What
`poll_completions` does not touch, the counting of calls and the requests, is left out. A set is
walked in any order.
-/

namespace ShapeLang.Jit

open ShapeLang.Lib

abbrev ShapeId := Nat

inductive Tier where
  | interpreted
  | baselineJit
  | optimizingJit

structure FunctionTierState where
  tier : Tier
  callCount : Nat
  compilationPending : Bool

structure OsrEntryPoint where
  bytecodeIp : Nat

section

variable {D : Type}

structure CompilationResult (D : Type) where
  functionId : UInt16
  compiledTier : Tier
  nativeCode : Option Nat
  error : Option String
  osrEntry : Option OsrEntryPoint
  deoptPoints : List D
  loopHeaderIp : Option Nat
  shapeGuards : List ShapeId

/-! ## The dependencies of functions on shapes -/

structure DeoptTracker where
  dependencies : UInt16 → Option (List ShapeId)
  shapeDependents : ShapeId → Option (List UInt16)

/-- The iteration orders of the sets. -/
structure WalkOrder where
  functions : HashOrder UInt16
  shapes : HashOrder ShapeId

namespace DeoptTracker

def new : DeoptTracker := ⟨fun _ => none, fun _ => none⟩

def register (tracker : DeoptTracker) (functionId : UInt16) (shapeIds : List ShapeId) : DeoptTracker :=
  if shapeIds.isEmpty then tracker
  else
    { dependencies := Function.update tracker.dependencies functionId
        (some (shapeIds.foldl (fun set sid => set.insert sid) ((tracker.dependencies functionId).getD [])))
      shapeDependents := shapeIds.foldl
        (fun dependents sid => Function.update dependents sid
          (some (((dependents sid).getD []).insert functionId)))
        tracker.shapeDependents }

/-- Take a function out of the set of a shape; a set that is empty then is removed. -/
def dropDependent (functionId : UInt16) (dependents : ShapeId → Option (List UInt16)) (sid : ShapeId) :
    ShapeId → Option (List UInt16) :=
  match dependents sid with
  | none => dependents
  | some functions =>
    let functions := functions.filter (· ≠ functionId)
    Function.update dependents sid (if functions.isEmpty then none else some functions)

def clearFunction (order : WalkOrder) (tracker : DeoptTracker) (functionId : UInt16) : DeoptTracker :=
  match tracker.dependencies functionId with
  | none => tracker
  | some shapes =>
    { dependencies := Function.update tracker.dependencies functionId none
      shapeDependents := (order.shapes.walk [] shapes).foldl (dropDependent functionId)
        tracker.shapeDependents }

/-- The part of an invalidation for one of the functions that depend on the shape. -/
def forget (order : WalkOrder) (shapeId : ShapeId) (tracker : DeoptTracker) (functionId : UInt16) :
    DeoptTracker :=
  match tracker.dependencies functionId with
  | none => tracker
  | some shapes =>
    { dependencies := Function.update tracker.dependencies functionId none
      shapeDependents := (order.shapes.walk [functionId.toNat] shapes).foldl
        (fun dependents sid => if sid ≠ shapeId then dropDependent functionId dependents sid else
          dependents)
        tracker.shapeDependents }

def invalidateShape (order : WalkOrder) (tracker : DeoptTracker) (shapeId : ShapeId) :
    List UInt16 × DeoptTracker :=
  match tracker.shapeDependents shapeId with
  | none => ([], tracker)
  | some dependents =>
    let tracker := { tracker with shapeDependents := Function.update tracker.shapeDependents shapeId none }
    let functions := order.functions.walk [shapeId] dependents
    (functions, functions.foldl (forget order shapeId) tracker)

end DeoptTracker

/-! ## The manager -/

/-- A piece of code: the result it came from, and the shapes drained since. -/
structure Installed (D : Type) where
  result : CompilationResult D
  drained : List ShapeId

structure TierManager (D : Type) where
  functionStates : List FunctionTierState
  nativeCodeTable : UInt16 → Option (Installed D)
  loopCounters : UInt16 × Nat → Option Nat
  osrTable : UInt16 × Nat → Option (Installed D)
  osrBlacklist : List (UInt16 × Nat)
  deoptTables : UInt16 → Option (List D)
  deoptTracker : DeoptTracker

namespace TierManager

def new (functionCount : Nat) : TierManager D where
  functionStates := List.replicate functionCount ⟨.interpreted, 0, false⟩
  nativeCodeTable := fun _ => none
  loopCounters := fun _ => none
  osrTable := fun _ => none
  osrBlacklist := []
  deoptTables := fun _ => none
  deoptTracker := .new

def getNativeCode (m : TierManager D) (functionId : UInt16) : Option Nat :=
  (m.nativeCodeTable functionId).bind fun code => code.result.nativeCode

def getDeoptInfo (m : TierManager D) (functionId : UInt16) (deoptId : Nat) : Option D :=
  (m.deoptTables functionId).bind fun points => points[deoptId]?

/-- The code of a result goes into the table of its kind. -/
def installCode (m : TierManager D) (result : CompilationResult D) : TierManager D :=
  match result.osrEntry with
  | some osrEntry =>
    { m with
      osrTable := Function.update m.osrTable (result.functionId, osrEntry.bytecodeIp)
        (some ⟨result, []⟩) }
  | none =>
    { m with
      functionStates := m.functionStates.modify result.functionId.toNat
        ({ · with tier := result.compiledTier })
      nativeCodeTable := Function.update m.nativeCodeTable result.functionId (some ⟨result, []⟩) }

def storeDeoptPoints (m : TierManager D) (result : CompilationResult D) : TierManager D :=
  if result.deoptPoints.isEmpty then m
  else { m with deoptTables := Function.update m.deoptTables result.functionId (some result.deoptPoints) }

def registerGuards (m : TierManager D) (result : CompilationResult D) : TierManager D :=
  if result.shapeGuards.isEmpty then m
  else { m with deoptTracker := m.deoptTracker.register result.functionId result.shapeGuards }

def blacklistFailure (m : TierManager D) (result : CompilationResult D) : TierManager D :=
  if result.error.isSome then
    match result.loopHeaderIp with
    | some loopIp => { m with osrBlacklist := (result.functionId, loopIp) :: m.osrBlacklist }
    | none => m
  else m

/-- One result of the loop in `poll_completions`. -/
def receive (m : TierManager D) (result : CompilationResult D) : TierManager D :=
  if result.functionId.toNat < m.functionStates.length then
    let m := { m with
      functionStates := m.functionStates.modify result.functionId.toNat
        ({ · with compilationPending := false }) }
    let m := match result.nativeCode with
      | some _ => ((m.installCode result).storeDeoptPoints result).registerGuards result
      | none => m
    m.blacklistFailure result
  else m

def invalidateFunction (order : WalkOrder) (m : TierManager D) (functionId : UInt16) : TierManager D :=
  { m with
    nativeCodeTable := Function.update m.nativeCodeTable functionId none
    deoptTables := Function.update m.deoptTables functionId none
    deoptTracker := m.deoptTracker.clearFunction order functionId
    functionStates := m.functionStates.modify functionId.toNat
      ({ · with tier := .interpreted, compilationPending := false }) }

def invalidateOsr (m : TierManager D) (functionId : UInt16) : TierManager D :=
  { m with
    osrTable := fun key => if key.1 ≠ functionId then m.osrTable key else none
    loopCounters := fun key => if key.1 ≠ functionId then m.loopCounters key else none }

def invalidateAll (order : WalkOrder) (m : TierManager D) (functionId : UInt16) : TierManager D :=
  (m.invalidateFunction order functionId).invalidateOsr functionId

/-- The history of the code that is installed. -/
def noteDrained (m : TierManager D) (shapeId : ShapeId) : TierManager D :=
  { m with
    nativeCodeTable := fun f => (m.nativeCodeTable f).map fun code =>
      { code with drained := shapeId :: code.drained }
    osrTable := fun key => (m.osrTable key).map fun code =>
      { code with drained := shapeId :: code.drained } }

def drainTransition (order : WalkOrder) (m : TierManager D) (transition : ShapeId × ShapeId) :
    TierManager D :=
  let m := m.noteDrained transition.1
  let invalidated := m.deoptTracker.invalidateShape order transition.1
  invalidated.1.foldl (invalidateAll order) { m with deoptTracker := invalidated.2 }

def checkShapeInvalidations (order : WalkOrder) (m : TierManager D)
    (transitions : List (ShapeId × ShapeId)) :
    TierManager D :=
  transitions.foldl (drainTransition order) m

/-- With the results that have arrived and the transitions in the log. -/
def pollCompletions (order : WalkOrder) (m : TierManager D) (results : List (CompilationResult D))
    (transitions : List (ShapeId × ShapeId)) : TierManager D :=
  (results.foldl receive m).checkShapeInvalidations order transitions

end TierManager

end

end ShapeLang.Jit
