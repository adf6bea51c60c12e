import ShapeLang.Snapshot.Restore

/-!
# ShapeLang — taking a snapshot

The capture half of `crates/shape-runtime/src/snapshot.rs`. A slot becomes a wire value by a depth-first
walk over the heap. Objects, arrays of objects and maps of objects are *interned*: the first reach of a
cell emits its body under a fresh handle, and the handle is recorded before the walk goes into the body,
so every later reach, from below or from aside, emits a back-edge.

The walk goes down only into cells it has just interned, so the number of cells bounds its depth. The
model takes that bound as fuel.
-/

namespace ShapeLang.Snapshot

open ShapeLang.Value

/-- Why a capture refuses a slot. -/
inductive SerializeError where
  | nullBits (kind : NativeKind)
  | invalidCodepoint (bits : Word)
  /-- "Surface-and-stop": the nullable scalars have no wire form yet. -/
  | nullableScalar (kind : NativeKind)
  /-- A payload of a result or an option outside of the initial scalar set. -/
  | payloadKind (kind : NativeKind)
  | intSet
  /-- A live resource, refused by design. -/
  | cleanRefuse (kind : HeapKind)
  | pendingFuture (id : Word)
  | unpromotedReference
  | elementType
  | mapValues
  | moduleFnUnnamed (id : Word)
  | unsupported (kind : HeapKind)
  /-- The bits are not what the kind says. The source reads memory it should not. -/
  | contract
  | depth
  deriving DecidableEq, Repr

/-- `SerializeIdentityCtx`. -/
structure SerializeIdentityCtx where
  handleOf : Nat → Option Word := fun _ => none
  nextHandle : Word := 0
  inProgress : List Nat := []

/-- A captured value, with the context after it. -/
abbrev Captured := Except SerializeError (SerializableVMValue × SerializeIdentityCtx)

/-! ## Values without children -/

/-- `f64::from(f32)` on the bits. Every 32-bit float is a 64-bit one. -/
def widenFloat (w : BitVec 32) : Word :=
  let exponent := (w >>> 23).toNat % 256
  let fraction := w.toNat % 2 ^ 23
  let sign : Nat := if w.msb then 2 ^ 63 else 0
  if exponent = 255 then
    -- Infinity, or a NaN, which comes out quiet.
    let quiet := if fraction = 0 then 0 else 2 ^ 51
    BitVec.ofNat 64 (sign + 2047 * 2 ^ 52 + (fraction * 2 ^ 29) ||| quiet)
  else if exponent = 0 then
    if fraction = 0 then BitVec.ofNat 64 sign
    else
      -- A subnormal is normal at the wider exponent range.
      let shift := 23 - Nat.log2 fraction
      BitVec.ofNat 64 (sign + (897 - shift) * 2 ^ 52 + (fraction <<< shift % 2 ^ 23) * 2 ^ 29)
  else BitVec.ofNat 64 (sign + (exponent + 896) * 2 ^ 52 + fraction * 2 ^ 29)

/-- `char::from_u32` on the low half of a slot. -/
def charFromBits (w : Word) : Option Char :=
  let n := (w.setWidth 32).toNat
  if n.isValidChar then some (Char.ofNat n) else none

def charToSerializable (w : Word) : Except SerializeError SerializableVMValue :=
  match charFromBits w with
  | some c => .ok (.char c)
  | none => .error (.invalidCodepoint w)

/-- The cell behind the bits of a pointer. -/
def Heap.content (h : Heap) : Bits → Option Alloc
  | .addr a => h.cells[a]?
  | .word _ => none

/-- A text behind the bits, in the carrier that `text` reads. -/
def textToSerializable (h : Heap) (text : Alloc → Option String) (bits : Bits) :
    Except SerializeError SerializableVMValue :=
  match (h.content bits).bind text with
  | some s => .ok (.string s)
  | none => .error .contract

/-- The `Arc<String>` carrier. -/
def Alloc.text? : Alloc → Option String
  | .string s => some s
  | _ => none

/-- The `StringObj` carrier. -/
def Alloc.textObj? : Alloc → Option String
  | .stringObj s => some s
  | _ => none

/-- `slot_to_serializable` on everything but the heap kinds. An integer goes to the wire at its own width
(`intBits`), whatever the other bits of the slot are. -/
def scalarToSerializable (h : Heap) (bits : Bits) (kind : NativeKind) :
    Except SerializeError SerializableVMValue :=
  match kind with
  | .float64 =>
    match bits with
    | .word w => .ok (.number w)
    | .addr _ => .error .contract
  | .float32 =>
    match bits with
    | .word w => .ok (.number (widenFloat (w.setWidth 32)))
    | .addr _ => .error .contract
  | .char =>
    match bits with
    | .word w => charToSerializable w
    | .addr _ => .error .contract
  | .bool => .ok (.bool (bits ≠ 0))
  | .null => .ok .none
  | .nullableInt64 | .nullableInt32 | .nullableInt16 | .nullableInt8 | .nullableUInt64
  | .nullableUInt32 | .nullableUInt16 | .nullableUInt8 | .nullableIntSize | .nullableUIntSize
  | .nullableFloat64 => .error (.nullableScalar kind)
  | .string =>
    if bits = 0 then .error (.nullBits .string) else textToSerializable h Alloc.text? bits
  | .stringV2 =>
    if bits = 0 then .error (.nullBits .stringV2) else textToSerializable h Alloc.textObj? bits
  | .decimalV2 =>
    if bits = 0 then .error (.nullBits .decimalV2)
    else match h.content bits with
      | some (.decimalObj d) => .ok (.decimal d)
      | _ => .error .contract
  | kind =>
    match bits with
    | .word w =>
      match intBits kind w with
      | some i => .ok (.int i)
      | none => .error .contract
    | .addr _ => .error .contract

/-- `serializable_inner_kinded`: the payload of a result or an option. -/
def serializableInnerKinded (h : Heap) (payload : KindedSlot) :
    Except SerializeError SerializableVMValue :=
  if payload.kind = .bool ∧ payload.bits = 0 then .ok .unit
  else match payload.kind with
    | .int64 | .float64 | .bool => scalarToSerializable h payload.bits payload.kind
    | .string =>
      if payload.bits = 0 then .ok .none else textToSerializable h Alloc.text? payload.bits
    | kind => .error (.payloadKind kind)

/-- The elements of an array without objects. -/
def elementsToSerializable : ArrayData → Except SerializeError (List SerializableVMValue)
  | .f64 elems => .ok (elems.map .number)
  | .i64 elems => .ok (elems.map .int)
  | .i32 elems => .ok (elems.map fun v => .int (v.signExtend 64))
  | .i16 elems => .ok (elems.map fun v => .int (v.signExtend 64))
  | .i8 elems => .ok (elems.map fun v => .int (v.signExtend 64))
  | .bool elems => .ok (elems.map .bool)
  | .u8 elems => .ok (elems.map fun v => .int (v.setWidth 64))
  | .u16 elems => .ok (elems.map fun v => .int (v.setWidth 64))
  | .u32 elems => .ok (elems.map fun v => .int (v.setWidth 64))
  | .f32 elems => .ok (elems.map fun v => .number (widenFloat v))
  | .string elems => .ok (elems.map .string)
  | .decimal elems => .ok (elems.map .decimal)
  | .typedObject _ | .other => .error .elementType

/-! ## Interning -/

/-- Records a fresh handle for a cell. -/
def SerializeIdentityCtx.intern (c : SerializeIdentityCtx) (a : Nat) : SerializeIdentityCtx :=
  { c with
    handleOf := Function.update c.handleOf a (some c.nextHandle)
    nextHandle := c.nextHandle + 1 }

/-- `intern_or_backedge`. -/
def internOrBackedge (a : Nat) (buildBody : SerializeIdentityCtx → Captured)
    (c : SerializeIdentityCtx) : Captured :=
  match c.handleOf a with
  | some handle => .ok (.heapRef handle, c)
  | none => do
    -- The handle is there before the body is walked: a cycle ends in a back-edge.
    let (body, c') ← buildBody (c.intern a)
    .ok (.heapNode c.nextHandle body, c')

/-- A list of parts, the context threaded through. -/
def serializeAll {α : Type} (f : α → SerializeIdentityCtx → Captured) :
    List α → SerializeIdentityCtx →
      Except SerializeError (List SerializableVMValue × SerializeIdentityCtx)
  | [], c => .ok ([], c)
  | x :: xs, c => do
    let (sv, c) ← f x c
    let (svs, c) ← serializeAll f xs c
    .ok (sv :: svs, c)

/-- Which arm reached a shared cell. -/
inductive RefArmKind where
  | reference
  | sharedCell
  deriving DecidableEq, Repr

/-- `emit_or_backedge_cell`. -/
def emitOrBackedgeCell (slot : KindedSlot → SerializeIdentityCtx → Captured)
    (a : Nat) (value : KindedSlot) (arm : RefArmKind) (c : SerializeIdentityCtx) : Captured :=
  match c.handleOf a with
  | some handle =>
    match arm with
    | .reference => .ok (.reference handle false, c)
    | .sharedCell => .ok (.sharedCellRef handle, c)
  | none => do
    let (inner, c') ← slot value { c.intern a with inProgress := a :: c.inProgress }
    .ok (.sharedCell c.nextHandle inner, { c' with inProgress := c'.inProgress.filter (· ≠ a) })

/-! ## The walk -/

/-- The fields of an object, each with its kind. -/
def fieldSlots (o : TypedObjectStorage Bits) : List KindedSlot :=
  (o.slots.zip o.fieldKinds).map fun f => ⟨f.1, f.2⟩

/-- The slot of an object: what an array or a map of objects holds. -/
def objectSlot (a : Nat) : KindedSlot := ⟨.addr a, .ptr .typedObject⟩

section

variable (h : Heap) (slot : KindedSlot → SerializeIdentityCtx → Captured)

/-- `typed_object_storage_to_serializable`. -/
def typedObjectStorageToSerializable (o : TypedObjectStorage Bits) (c : SerializeIdentityCtx) :
    Captured := do
  let (slotData, c) ← serializeAll slot (fieldSlots o) c
  .ok (.typedObject o.schemaId slotData o.heapMask, c)

/-- The array arm. An element is interned the way an object slot is. -/
def typedArrayToSerializable (a : Nat) (data : ArrayData) (c : SerializeIdentityCtx) : Captured :=
  match data with
  | .typedObject elems =>
    internOrBackedge a (fun c => do
      let (svs, c) ← serializeAll slot (elems.map objectSlot) c
      .ok (.array svs, c)) c
  | data => do
    let svs ← elementsToSerializable data
    .ok (.array svs, c)

/-- The map arm. -/
def hashMapToSerializable (a : Nat) (data : MapData) (c : SerializeIdentityCtx) : Captured :=
  match data with
  | .string entries =>
    .ok (.hashMap (entries.map fun e => .string e.1) (entries.map fun e => .string e.2), c)
  | .typedObject entries =>
    internOrBackedge a (fun c => do
      let (values, c) ← serializeAll slot (entries.map fun e => objectSlot e.2) c
      .ok (.hashMap (entries.map fun e => .string e.1) values, c)) c
  | .other => .error .mapValues

/-- The pointer arms of `slot_heap_to_serializable`: the cell at `a`, read as `kind`. -/
def cellToSerializable (kind : HeapKind) (a : Nat) (c : SerializeIdentityCtx) : Captured :=
  match kind, h.cells[a]? with
  | .string, some (.string s) => .ok (.string s, c)
  | .decimal, some (.decimal d) => .ok (.decimal d, c)
  | .bigInt, some (.bigInt n) => .ok (.bigInt n, c)
  | .hashSet, some (.hashSet keys) => .ok (.hashSet keys, c)
  | .hashSet, some .intSet => .error .intSet
  | .priorityQueue, some (.priorityQueue heap) => .ok (.priorityQueueHeap heap, c)
  | .atomic, some (.atomic value) => .ok (.atomicI64 value, c)
  | .lazy, some (.lazy isInitialized) => .ok (.lazyOpaque isInitialized, c)
  | .mutex, some (.mutex value) => .ok (.mutexOpaque !(value.kind = .bool ∧ value.bits = 0), c)
  | .channel, _ | .deque, _ | .filterExpr, _ | .iterator, _ | .foreignRef, _ =>
    .error (.cleanRefuse kind)
  | .result, some (.result isOk payload) => do
    let inner ← serializableInnerKinded h payload
    .ok (.resultData isOk inner, c)
  | .option, some (.option isSome payload) =>
    if isSome then do
      let inner ← serializableInnerKinded h payload
      .ok (.optionData true (some inner), c)
    else .ok (.optionData false none, c)
  | .reference, some (.promotedCell cell _) =>
    match h.cells[cell]? with
    | some (.sharedCell value) => emitOrBackedgeCell slot cell value .reference c
    | _ => .error .contract
  | .reference, some .unpromotedRef => .error .unpromotedReference
  | .sharedCell, some (.sharedCell value) => emitOrBackedgeCell slot a value .sharedCell c
  | .range, some (.range start stop _ inclusive) =>
    .ok (.range (some (.int start)) (some (.int stop)) inclusive, c)
  | .typedObject, some (.typedObject o) =>
    internOrBackedge a (typedObjectStorageToSerializable slot o) c
  | .typedArray, some (.array data) => typedArrayToSerializable slot a data c
  | .hashMap, some (.map data) => hashMapToSerializable slot a data c
  | .closure, _ | .dataTable, _ | .taskGroup, _ | .temporal, _ | .tableView, _ | .content, _
  | .instant, _ | .ioHandle, _ | .nativeScalar, _ | .nativeView, _ | .traitObject, _ | .matrix, _
  | .matrixSlice, _ => .error (.unsupported kind)
  | _, _ => .error .contract

/-- `slot_heap_to_serializable`. Three of the kinds hold a plain number, for which 0 is not null. -/
def slotHeapToSerializable (moduleFnName : Word → Option String) (bits : Bits) (kind : HeapKind)
    (c : SerializeIdentityCtx) : Captured :=
  match kind, bits with
  | .char, .word w => do
    let sv ← charToSerializable w
    .ok (sv, c)
  | .future, .word w => .error (.pendingFuture w)
  | .moduleFn, .word w =>
    match moduleFnName w with
    | some name => .ok (.moduleFunction name, c)
    | none => .error (.moduleFnUnnamed w)
  | kind, .addr a => cellToSerializable h slot kind a c
  | kind, .word w => if w = 0 then .error (.nullBits (.ptr kind)) else .error .contract

end

/-- `slot_to_serializable_ctx`. -/
def slotToSerializableCtx (moduleFnName : Word → Option String) (h : Heap) :
    Nat → KindedSlot → SerializeIdentityCtx → Captured
  | 0, _, _ => .error .depth
  | fuel + 1, slot, c =>
    match slot.kind with
    | .ptr kind =>
      slotHeapToSerializable h (slotToSerializableCtx moduleFnName h fuel) moduleFnName slot.bits kind c
    | kind => do
      let sv ← scalarToSerializable h slot.bits kind
      .ok (sv, c)

/-- All slots of a snapshot through one context, as the VM's driver captures them. -/
def serializeSlots (moduleFnName : Word → Option String) (h : Heap) (slots : List KindedSlot) :
    Except SerializeError (List SerializableVMValue) := do
  let (svs, _) ← serializeAll (slotToSerializableCtx moduleFnName h (h.cells.length + 1)) slots {}
  .ok svs

/-- `slot_to_serializable`: one slot through a context of its own. -/
def slotToSerializable (moduleFnName : Word → Option String) (h : Heap) (slot : KindedSlot) :
    Except SerializeError SerializableVMValue := do
  let (sv, _) ← slotToSerializableCtx moduleFnName h (h.cells.length + 1) slot {}
  .ok sv

end ShapeLang.Snapshot
