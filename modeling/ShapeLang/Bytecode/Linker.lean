import ShapeLang.Bytecode.ContentAddressed
import ShapeLang.Lib.Topo
import ShapeLang.Value.Kinds

/-!
# ShapeLang — the linker

`crates/shape-vm/src/linker.rs` turns a content-addressed `Program` into one flat program. The blobs
are sorted so that callees come first, their pools are concatenated, and every index in an operand is
moved from its blob to the whole:

  * `topoSort` — callees first; a missing blob and a cycle of hashes are errors;
  * `remapFid` — a dependency index to a function id: by hash, or by name where the hash is `ZERO`;
  * `remapOperand`, `remapConstant` — the indices of one blob, moved;
  * `reconstructTransferredClosureLayout` — the layout of a closure that came without one;
  * `link` — all of it.

Operands have sixteen bits for most indices, and the linker narrows to them without a check.
-/

namespace ShapeLang.Bytecode

open Value (NativeKind HeapKind)

/-! ## Instructions -/

inductive NumericWidth where
  | i8 | i16 | i32 | i64 | u8 | u16 | u32 | u64 | f32 | f64
  deriving DecidableEq, Repr

inductive Operand where
  | const (idx : UInt16)
  | localSlot (idx : UInt16)
  | moduleBinding (idx : UInt16)
  | offset (by' : Int32)
  | function (fid : UInt16)
  | builtin (id : UInt16)
  | count (n : UInt16)
  | property (idx : UInt16)
  | columnIndex (idx : UInt32)
  | typedField (typeId fieldIdx fieldTypeTag : UInt16)
  | typedObjectAlloc (schemaId fieldCount : UInt16)
  | typedMerge (targetSchemaId leftSize rightSize : UInt16)
  | columnAccess (colId : UInt32)
  | name (sid : UInt32)
  | typedMethodCall (methodId argCount stringId : UInt16) (receiverTypeTag : UInt8)
  | foreignFunction (idx : UInt16)
  | matrixDims (rows cols : UInt16)
  | width (w : NumericWidth)
  | typedLocal (idx : UInt16) (w : NumericWidth)
  | typedModuleBinding (idx : UInt16) (w : NumericWidth)
  | fieldOffset (off : UInt16)
  | closureAlloc (fid : UInt16) (escapes : Bool)
  deriving DecidableEq

inductive OpCode where
  | callForeign
  | callForeignAsync
  | other (code : UInt16)
  deriving DecidableEq

def OpCode.isForeignCall : OpCode → Bool
  | .callForeign | .callForeignAsync => true
  | .other _ => false

structure Instruction where
  opcode : OpCode
  operand : Option Operand
  deriving DecidableEq

/-- A constant: a function, or a value of another kind. -/
inductive Constant (κ : Type) where
  | function (idx : UInt16)
  | other (value : κ)
  deriving DecidableEq

/-! ## The hashed content of a blob -/

inductive FrameReturnWrapper where
  | unknown | plain | option | result
  deriving DecidableEq

inductive FrameReturnArity where
  | zero | one
  deriving DecidableEq

structure FrameDescriptor where
  slots : List NativeKind
  returnKind : Option NativeKind
  returnWrapper : FrameReturnWrapper
  returnArity : FrameReturnArity
  deriving DecidableEq

/-- The content hash of a foreign function. -/
abbrev ForeignHash := BitVec 256

/-- What of a blob is hashed, besides its name, its dependencies and its permissions. -/
structure Body (κ : Type) where
  arity : UInt16
  paramNames : List String
  localsCount : UInt16
  isClosure : Bool
  capturesCount : UInt16
  isAsync : Bool
  refParams : List Bool
  refMutates : List Bool
  mutableCaptures : List Bool
  frameDescriptor : Option FrameDescriptor
  captureKinds : List NativeKind
  instructions : List Instruction
  constants : List (Constant κ)
  strings : List String
  typeSchemas : List String
  foreignDependencies : List ForeignHash
  deriving DecidableEq

abbrev Blob (κ η : Type) := FunctionBlob (Body κ) η

/-! ## Closure layouts -/

inductive ConcreteType where
  | f64 | f32 | char | i8 | u8 | i16 | u16 | i32 | u32 | i64 | u64 | bool | string | pointerToVoid
  deriving DecidableEq

/-- The captures of a closure. Offsets and masks follow from the types. -/
structure ClosureLayout where
  captureTypes : List ConcreteType
  nativeKinds : List NativeKind
  deriving DecidableEq

inductive TransferredClosureLayoutError where
  | notClosure
  | captureKindCountMismatch (declared kinds : Nat)
  | mutableCaptureCountMismatch (declared flags : Nat)
  | captureLimitExceeded (captures : Nat)
  | missingFrameDescriptor
  | frameDescriptorTooShort (slots captures : Nat)
  | frameDescriptorCaptureMismatch (index : Nat) (descriptor capture : NativeKind)
  | mutableCapture (index : Nat)
  | unsupportedCaptureKind (index : Nat) (kind : NativeKind)
  deriving DecidableEq

def representativeCaptureType (index : Nat) (kind : NativeKind) :
    Except TransferredClosureLayoutError ConcreteType :=
  match kind with
  | .float64 | .nullableFloat64 => .ok .f64
  | .float32 => .ok .f32
  | .char => .ok .char
  | .int8 | .nullableInt8 => .ok .i8
  | .uint8 | .nullableUInt8 => .ok .u8
  | .int16 | .nullableInt16 => .ok .i16
  | .uint16 | .nullableUInt16 => .ok .u16
  | .int32 | .nullableInt32 => .ok .i32
  | .uint32 | .nullableUInt32 => .ok .u32
  | .int64 | .nullableInt64 | .intSize | .nullableIntSize => .ok .i64
  | .uint64 | .nullableUInt64 | .uintSize | .nullableUIntSize => .ok .u64
  | .bool => .ok .bool
  | .string => .ok .string
  | .stringV2 | .decimalV2 => .ok .pointerToVoid
  | .ptr .closure | .ptr .reference | .ptr .sharedCell | .ptr .ioHandle | .ptr .future
  | .ptr .taskGroup => .error (.unsupportedCaptureKind index kind)
  | .ptr _ => .ok .pointerToVoid
  | .null => .error (.unsupportedCaptureKind index kind)

/-- The frame's first slots against the capture kinds. -/
def checkCaptureSlots (body : Body κ) (captures : Nat) :
    Except TransferredClosureLayoutError Unit :=
  match body.frameDescriptor with
  | some descriptor =>
    if descriptor.slots.length < captures then
      .error (.frameDescriptorTooShort descriptor.slots.length captures)
    else
      (((descriptor.slots.zip body.captureKinds).take captures).zipIdx).forM fun ((d, c), index) =>
        if d ≠ c then .error (.frameDescriptorCaptureMismatch index d c) else .ok ()
  | none => if captures ≠ 0 then .error .missingFrameDescriptor else .ok ()

def reconstructTransferredClosureLayout (body : Body κ) :
    Except TransferredClosureLayoutError ClosureLayout := do
  if !body.isClosure then .error .notClosure
  let captures := body.capturesCount.toNat
  if body.captureKinds.length ≠ captures then
    .error (.captureKindCountMismatch captures body.captureKinds.length)
  if body.mutableCaptures.length ≠ captures then
    .error (.mutableCaptureCountMismatch captures body.mutableCaptures.length)
  if captures > 64 then .error (.captureLimitExceeded captures)
  checkCaptureSlots body captures
  let captureTypes ← ((body.captureKinds.zip body.mutableCaptures).zipIdx).mapM
    fun ((kind, isMutable), index) =>
      if isMutable then .error (.mutableCapture index) else representativeCaptureType index kind
  .ok ⟨captureTypes, body.captureKinds⟩

/-! ## Programs -/

structure ForeignFunctionEntry where
  name : String
  contentHash : Option ForeignHash
  deriving DecidableEq

/-- A content-addressed program. Of the program-level metadata, what linking reads. -/
structure Program (κ η : Type) where
  entry : η
  functionStore : FunctionStore (Body κ) η
  foreignFunctions : List ForeignFunctionEntry
  /-- Compiled layouts; not serialised. -/
  closureFunctionLayoutsByName : String → Option ClosureLayout

structure LinkedFunction (η : Type) where
  blobHash : η
  entryPoint : Nat
  bodyLength : Nat
  name : String
  deriving DecidableEq

structure LinkedProgram (κ η : Type) where
  entry : η
  instructions : List Instruction
  constants : List (Constant κ)
  strings : List String
  functions : List (LinkedFunction η)
  foreignFunctions : List ForeignFunctionEntry
  totalRequiredPermissions : PermissionSet
  closureFunctionLayouts : List (Option ClosureLayout)

inductive LinkError (η : Type) where
  | missingBlob (hash : η)
  | circularDependency
  | constantPoolOverflow (n : Nat)
  | stringPoolOverflow (n : Nat)
  | missingForeignEntry (blob : η) (hash : ForeignHash)
  | foreignOrdinalOutOfRange (blob : η) (ordinal : UInt16) (tableLen : Nat)
  | invalidTransferredClosureLayout (blob : η) (source : TransferredClosureLayoutError)
  deriving DecidableEq

section Link

variable {κ η β : Type} [DecidableEq η] (zero : η)

/-! ## Sorting -/

/-- The blobs a blob is sorted after: its dependencies without the sentinel. -/
def dependencyGraph (store : FunctionStore β η) : Topo.Graph η (LinkError η) where
  children hash := (FunctionStore.get store hash).map fun blob => blob.dependencies.filter (· ≠ zero)
  missing := .missingBlob
  circular := .circularDependency

/-- Calls are nested at most as deep as there are blobs, since one in progress is not entered again. -/
def topoSort (store : FunctionStore β η) (entry : η) : Except (LinkError η) (List η) :=
  (dependencyGraph zero store).sort (store.length + 1) entry (store.map Prod.fst)

/-! ## Remapping -/

/-- A map from labels to positions; the last entry with a label wins. -/
def indexBy {α L : Type} [DecidableEq L] (label : α → L) (l : List α) : L → Option Nat :=
  l.zipIdx.foldl (fun index e => Function.update index (label e.1) (some e.2)) fun _ => none

/-- Content hash to table index; the first entry with a hash wins. -/
def foreignHashToIdx (table : List ForeignFunctionEntry) (hash : ForeignHash) : Option Nat :=
  table.findIdx? (·.contentHash = some hash)

def remapFid (depIdx : UInt16) (blob : Blob κ η) (currentFunctionId : Nat) (hashToId : η → Option Nat)
    (nameToId : String → Option Nat) : UInt16 :=
  match blob.dependencies[depIdx.toNat]? with
  | some depHash =>
    if depHash = zero then
      match blob.calleeNames[depIdx.toNat]? with
      | some calleeName =>
        if calleeName ≠ blob.name then
          -- mutual recursion; the fallback is the function itself
          .ofNat ((nameToId calleeName).getD currentFunctionId)
        else .ofNat currentFunctionId
      | none => .ofNat currentFunctionId
    else
      -- the index is total here: the sort has visited every dependency
      .ofNat ((hashToId depHash).getD 0)
  | none => depIdx

structure BlobOffsets where
  instructionBase : Nat
  constBase : Nat
  stringBase : Nat

def remapOperand (operand : Operand) (off : BlobOffsets) (blob : Blob κ η) (currentFunctionId : Nat)
    (hashToId : η → Option Nat) (nameToId : String → Option Nat)
    (foreignIdx : ForeignHash → Option Nat) : Except (LinkError η) Operand :=
  match operand with
  | .const i => .ok (.const (.ofNat (off.constBase + i.toNat)))
  | .property i => .ok (.property (.ofNat (off.stringBase + i.toNat)))
  | .name i => .ok (.name (.ofNat (off.stringBase + i.toNat)))
  | .function depIdx =>
    .ok (.function (remapFid zero depIdx blob currentFunctionId hashToId nameToId))
  | .closureAlloc depIdx escapes =>
    .ok (.closureAlloc (remapFid zero depIdx blob currentFunctionId hashToId nameToId) escapes)
  | .typedMethodCall methodId argCount stringId tag =>
    .ok (.typedMethodCall methodId argCount (.ofNat (off.stringBase + stringId.toNat)) tag)
  | .foreignFunction ordinal =>
    match blob.body.foreignDependencies[ordinal.toNat]? with
    | none => .error (.foreignOrdinalOutOfRange blob.contentHash ordinal
        blob.body.foreignDependencies.length)
    | some hash =>
      match foreignIdx hash with
      | none => .error (.missingForeignEntry blob.contentHash hash)
      | some idx => .ok (.foreignFunction (.ofNat idx))
  | operand => .ok operand

def remapConstant (constant : Constant κ) (blob : Blob κ η) (currentFunctionId : Nat)
    (hashToId : η → Option Nat) (nameToId : String → Option Nat) : Constant κ :=
  match constant with
  | .function depIdx => .function (remapFid zero depIdx blob currentFunctionId hashToId nameToId)
  | .other value => .other value

def remapInstruction (instr : Instruction) (off : BlobOffsets) (blob : Blob κ η)
    (currentFunctionId : Nat) (hashToId : η → Option Nat) (nameToId : String → Option Nat)
    (foreignIdx : ForeignHash → Option Nat) : Except (LinkError η) Instruction :=
  match instr.operand with
  | none => .ok instr
  | some operand => do
    let operand ←
      remapOperand zero operand off blob currentFunctionId hashToId nameToId foreignIdx
    .ok { instr with operand := some operand }

/-! ## Linking -/

def remapClosureFunctionLayouts (program : Program κ η) (blobs : List (Blob κ η)) :
    Except (LinkError η) (List (Option ClosureLayout)) :=
  blobs.mapM fun blob =>
    match program.closureFunctionLayoutsByName blob.name with
    | some layout => .ok (some layout)
    | none =>
      if !blob.body.isClosure then .ok none
      else
        match reconstructTransferredClosureLayout blob.body with
        | .ok layout => .ok (some layout)
        | .error source => .error (.invalidTransferredClosureLayout blob.contentHash source)

/-- The bases of each blob: the sizes of the pools before it. -/
def blobOffsets : BlobOffsets → List (Blob κ η) → List BlobOffsets
  | _, [] => []
  | off, blob :: blobs =>
    off :: blobOffsets
      ⟨off.instructionBase + blob.body.instructions.length,
        off.constBase + blob.body.constants.length,
        off.stringBase + blob.body.strings.length⟩ blobs

def linkedFunction (blob : Blob κ η) (off : BlobOffsets) : LinkedFunction η :=
  ⟨blob.contentHash, off.instructionBase, blob.body.instructions.length, blob.name⟩

def maxConstants : Nat := 65536

def maxStrings : Nat := 4294967296

def storedBlob (store : FunctionStore β η) (hash : η) : Except (LinkError η) (FunctionBlob β η) :=
  match FunctionStore.get store hash with
  | some blob => .ok blob
  | none => .error (.missingBlob hash)

/-- The blobs in the order of the sort. -/
def sortedBlobs (program : Program κ η) : Except (LinkError η) (List (Blob κ η)) := do
  let sorted ← topoSort zero program.functionStore program.entry
  sorted.mapM (storedBlob program.functionStore)

/-- The instructions of the blob with id `functionId`, remapped. -/
def remapInstructions (program : Program κ η) (blobs : List (Blob κ η))
    (placed : (Blob κ η × BlobOffsets) × Nat) : Except (LinkError η) (List Instruction) :=
  placed.1.1.body.instructions.mapM fun instr =>
    remapInstruction zero instr placed.1.2 placed.1.1 placed.2 (indexBy (·.contentHash) blobs)
      (indexBy (·.name) blobs) (foreignHashToIdx program.foreignFunctions)

def remapConstants (blobs : List (Blob κ η)) (placed : (Blob κ η × BlobOffsets) × Nat) :
    List (Constant κ) :=
  placed.1.1.body.constants.map fun c =>
    remapConstant zero c placed.1.1 placed.2 (indexBy (·.contentHash) blobs) (indexBy (·.name) blobs)

/-- Each blob with its bases and its function id. -/
def placedBlobs (blobs : List (Blob κ η)) : List ((Blob κ η × BlobOffsets) × Nat) :=
  (blobs.zip (blobOffsets ⟨0, 0, 0⟩ blobs)).zipIdx

def linkBlobs (program : Program κ η) (blobs : List (Blob κ η)) :
    Except (LinkError η) (LinkedProgram κ η) :=
  let totalConstants : Nat := (blobs.map (·.body.constants.length)).sum
  let totalStrings : Nat := (blobs.map (·.body.strings.length)).sum
  if maxConstants < totalConstants then .error (.constantPoolOverflow totalConstants)
  else if maxStrings < totalStrings then .error (.stringPoolOverflow totalStrings)
  else do
    let layouts ← remapClosureFunctionLayouts program blobs
    let instructions ← (placedBlobs blobs).mapM (remapInstructions zero program blobs)
    .ok
      { entry := program.entry
        instructions := instructions.flatten
        constants := (placedBlobs blobs).flatMap (remapConstants zero blobs)
        strings := blobs.flatMap (·.body.strings)
        functions := (placedBlobs blobs).map fun placed => linkedFunction placed.1.1 placed.1.2
        foreignFunctions := program.foreignFunctions
        totalRequiredPermissions := blobs.foldl (fun acc blob => acc ∪ blob.requiredPermissions) ∅
        closureFunctionLayouts := layouts }

def link (program : Program κ η) : Except (LinkError η) (LinkedProgram κ η) := do
  let blobs ← sortedBlobs zero program
  linkBlobs zero program blobs

end Link

end ShapeLang.Bytecode
