import ShapeLang.Value.TypedObject

/-!
# ShapeLang — the snapshot's wire values

`SerializableVMValue` (`crates/shape-runtime/src/snapshot.rs`): what a slot becomes when the VM is saved
or a value travels to a peer. Integers and floats are kept as their 64 bits. The arms that every restore
function refuses carry payloads nobody looks at; they are gathered in `OtherArm`.

The wire value says nothing of the *kind* a field had. The restore functions pick the kind again from the
arm (`expected_heap_field_kind`).
-/

namespace ShapeLang.Snapshot

open ShapeLang.Value

/-- `rust_decimal::Decimal`, which the snapshot only copies. -/
structure Decimal where
  mantissa : Int
  scale : Nat
  deriving DecidableEq, Repr

/-- The arms without a restore. -/
inductive OtherArm where
  | some | timeframe | duration | time | timeSpan | timeReference | dateTimeExpr | dataDateTimeRef
  | function | typeAnnotation | typeAnnotatedValue | enum | closure | ok | err | printResult
  | simulationCall | functionRef | dataReference | future | dataTable | typedTable | rowView | columnRef
  | indexedTable | typedArray | matrix | sidecarRef
  deriving DecidableEq, Repr

/-- `SerializableVMValue`. -/
inductive SerializableVMValue where
  | int (i : Word)
  | number (f : Word)
  | decimal (d : Decimal)
  | string (s : String)
  | bool (b : Bool)
  | none
  | unit
  | array (elems : List SerializableVMValue)
  | moduleFunction (name : String)
  | typedObject (schemaId : Word) (slotData : List SerializableVMValue) (heapMask : Word)
  | range (start stop : Option SerializableVMValue) (inclusive : Bool)
  | hashMap (keys values : List SerializableVMValue)
  | hashSet (keys : List String)
  | iteratorOpaque
  | resultData (isOk : Bool) (payload : SerializableVMValue)
  | optionData (isSome : Bool) (payload : Option SerializableVMValue)
  | dequeOpaque (len : Nat)
  | channelOpaque (closed : Bool) (len : Nat)
  | priorityQueueHeap (heap : List Word)
  | reference (handle : Word) (isMut : Bool)
  /-- The body of a shared cell; every later carrier of the cell is a back-edge to `handle`. -/
  | sharedCell (handle : Word) (inner : SerializableVMValue)
  | sharedCellRef (handle : Word)
  /-- The body of a heap node (an object, an array or a map of objects), emitted on the first reach. -/
  | heapNode (handle : Word) (body : SerializableVMValue)
  | heapRef (handle : Word)
  | filterExprOpaque
  | mutexOpaque (hasValue : Bool)
  | atomicI64 (value : Word)
  | lazyOpaque (isInitialized : Bool)
  | char (c : Char)
  | bigInt (n : Word)
  | other (arm : OtherArm)

namespace SerializableVMValue

/-- The values under a wire value that a restore may go into. -/
def children : SerializableVMValue → List SerializableVMValue
  | .array elems => elems
  | .typedObject _ slotData _ => slotData
  | .hashMap _ values => values
  | .sharedCell _ inner => [inner]
  | .heapNode _ body => [body]
  | _ => []

theorem sizeOf_lt_of_mem_children {sv child : SerializableVMValue} (h : child ∈ sv.children) :
    sizeOf child < sizeOf sv := by
  cases sv with
  | array elems =>
    have := List.sizeOf_lt_of_mem (show child ∈ elems from h)
    simp only [array.sizeOf_spec]
    omega
  | typedObject schemaId slotData heapMask =>
    have := List.sizeOf_lt_of_mem (show child ∈ slotData from h)
    simp only [typedObject.sizeOf_spec]
    omega
  | hashMap keys values =>
    have := List.sizeOf_lt_of_mem (show child ∈ values from h)
    simp only [hashMap.sizeOf_spec]
    omega
  | sharedCell handle inner =>
    obtain rfl := List.mem_singleton.mp h
    simp only [sharedCell.sizeOf_spec]
    omega
  | heapNode handle body =>
    obtain rfl := List.mem_singleton.mp h
    simp only [heapNode.sizeOf_spec]
    omega
  | _ => exact absurd h List.not_mem_nil

/-- Induction over the values under a wire value. -/
theorem children_induction {P : SerializableVMValue → Prop}
    (h : ∀ sv, (∀ child ∈ sv.children, P child) → P sv) (sv : SerializableVMValue) : P sv :=
  h sv fun child _ => children_induction h child
termination_by sizeOf sv
decreasing_by exact sizeOf_lt_of_mem_children (by assumption)

end SerializableVMValue

/-- `expected_heap_field_kind`: the kind a restored field gets. The last arm makes the restore fail. -/
def expectedHeapFieldKind : SerializableVMValue → NativeKind
  | .int _ => .int64
  | .number _ => .float64
  | .bool _ => .bool
  | .string _ => .string
  | .none | .unit => .null
  | .decimal _ => .ptr .decimal
  | .bigInt _ => .ptr .bigInt
  | .char _ => .ptr .char
  | .range .. => .ptr .range
  | .typedObject .. => .ptr .typedObject
  | .hashMap .. => .ptr .hashMap
  | .array _ => .ptr .typedArray
  | .hashSet _ => .ptr .hashSet
  | .resultData .. | .optionData .. => .ptr .typedObject
  | .moduleFunction _ => .ptr .moduleFn
  | _ => .bool

/-- `expected_kind_for_cell_inner`. -/
def expectedKindForCellInner : SerializableVMValue → NativeKind
  | .reference .. => .ptr .reference
  | .sharedCell .. | .sharedCellRef _ => .ptr .sharedCell
  | sv => expectedHeapFieldKind sv

/-- Why a restore refuses a value. -/
inductive RestoreError where
  /-- The arm cannot satisfy the expected kind. -/
  | kindMismatch (expected : NativeKind)
  | heapKindMismatch (expected : HeapKind)
  /-- A live resource, refused by design. -/
  | cleanRefuse (kind : HeapKind)
  /-- A back-edge outside of the two-pass restore. -/
  | needsLinkCtx (kind : HeapKind)
  /-- A payload of a result or an option that is not one of the five scalar arms. -/
  | payloadArm
  | payloadMissing
  | rangeBound
  | elementArm
  | heterogeneous
  | mapLengths (keys values : Nat)
  | mapEntry
  | moduleFunctionAbsent (name : String)
  | notANode
  | nodeElementKind (i : Nat) (kind : NativeKind)
  | nodeValueKind (kind : NativeKind)
  | notMaterialized (handle : Word)
  | cellCycle (handle : Word)
  | field (schemaId : Word) (i : Nat) (cause : RestoreError)
  | element (i : Nat) (cause : RestoreError)
  | value (cause : RestoreError)
  deriving DecidableEq, Repr

end ShapeLang.Snapshot
