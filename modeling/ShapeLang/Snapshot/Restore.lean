import ShapeLang.Snapshot.Heap

/-!
# ShapeLang — restoring a snapshot

The restore half of `crates/shape-runtime/src/snapshot.rs`. There are two paths. The *tree* path
(`serializable_to_kinded_slot`) rebuilds a value by recursion over the wire value. The *graph* path goes
through a `RestoreLinkCtx`: a first pass allocates one cell for each handle (`materialize_cell_bodies`),
recording an object or an array before its children are filled so that a cycle finds it, and a second pass
resolves the slots to these cells. The cells are kept alive by a base share each, which
`release_base_shares` gives back at the end.

A value is refused with an error. What a refused restore releases on its way out is not part of the
model: the state of a failed run is dropped.
-/

namespace ShapeLang.Snapshot

open ShapeLang.Value

/-- What a restore reads of its host: the ids of the module functions by name, and the ids of the two
builtin schemas. -/
structure RestoreEnv where
  moduleFnId : String → Option Word
  optionSchema : Word
  resultSchema : Word

/-! ## The link context -/

inductive RestoreBase where
  | identity (handle : Word)
  | heapNode (handle : Word)
  deriving DecidableEq, Repr

/-- `RestoreLinkCtx`. The last base pushed is the head of `retained`. -/
structure RestoreLinkCtx where
  identityMap : Word → Option KindedSlot := fun _ => none
  heapNodeMap : Word → Option KindedSlot := fun _ => none
  inProgress : List Word := []
  retained : List RestoreBase := []

structure RestoreState where
  heap : Heap
  ctx : RestoreLinkCtx

namespace RestoreState

/-- `ctx.heap_node_map.insert(handle, slot)`, which drops the slot that was there, and the push of the
base share. -/
def recordNode (s : RestoreState) (handle : Word) (slot : KindedSlot) : RestoreState :=
  { heap := match s.ctx.heapNodeMap handle with
      | some old => old.drop s.heap
      | none => s.heap
    ctx := { s.ctx with
      heapNodeMap := Function.update s.ctx.heapNodeMap handle (some slot)
      retained := .heapNode handle :: s.ctx.retained } }

def recordIdentity (s : RestoreState) (handle : Word) (slot : KindedSlot) : RestoreState :=
  { heap := match s.ctx.identityMap handle with
      | some old => old.drop s.heap
      | none => s.heap
    ctx := { s.ctx with
      identityMap := Function.update s.ctx.identityMap handle (some slot)
      retained := .identity handle :: s.ctx.retained } }

/-- `ctx.heap_node_map.get(handle).cloned()`: one more share of the node. -/
def lookupNode (s : RestoreState) (handle : Word) : Except RestoreError (KindedSlot × RestoreState) :=
  match s.ctx.heapNodeMap handle with
  | some slot => .ok (slot, { s with heap := slot.clone s.heap })
  | none => .error (.notMaterialized handle)

/-- The loop of `release_base_shares`, last base first. -/
def releaseBases : List RestoreBase → RestoreState → RestoreState
  | [], s => { s with ctx := {} }
  | .heapNode handle :: bases, s =>
    releaseBases bases
      { heap := match s.ctx.heapNodeMap handle with
          | some slot => slot.drop s.heap
          | none => s.heap
        ctx := { s.ctx with heapNodeMap := Function.update s.ctx.heapNodeMap handle none } }
  | .identity handle :: bases, s =>
    releaseBases bases
      { heap := match s.ctx.identityMap handle with
          | some slot => slot.drop s.heap
          | none => s.heap
        ctx := { s.ctx with identityMap := Function.update s.ctx.identityMap handle none } }

/-- `release_base_shares`. -/
def releaseBaseShares (s : RestoreState) : RestoreState := s.releaseBases s.ctx.retained

variable (s : RestoreState)

@[simp] theorem cells_recordNode (handle : Word) (slot : KindedSlot) :
    (s.recordNode handle slot).heap.cells = s.heap.cells := by
  unfold recordNode
  cases s.ctx.heapNodeMap handle <;> simp

@[simp] theorem heapNodeMap_recordNode (handle : Word) (slot : KindedSlot) :
    (s.recordNode handle slot).ctx.heapNodeMap =
      Function.update s.ctx.heapNodeMap handle (some slot) := rfl

@[simp] theorem cells_recordIdentity (handle : Word) (slot : KindedSlot) :
    (s.recordIdentity handle slot).heap.cells = s.heap.cells := by
  unfold recordIdentity
  cases s.ctx.identityMap handle <;> simp

theorem lookupNode_eq_ok {s s' : RestoreState} {handle : Word} {slot : KindedSlot} :
    s.lookupNode handle = .ok (slot, s') ↔
      s.ctx.heapNodeMap handle = some slot ∧ s' = { s with heap := slot.clone s.heap } := by
  unfold lookupNode
  cases hmap : s.ctx.heapNodeMap handle with
  | none => simp
  | some found =>
    simp only [Except.ok.injEq, Prod.mk.injEq, Option.some.injEq]
    constructor
    · rintro ⟨rfl, rfl⟩
      exact ⟨rfl, rfl⟩
    · rintro ⟨rfl, rfl⟩
      exact ⟨rfl, rfl⟩

theorem cells_releaseBases (bases : List RestoreBase) (s : RestoreState) :
    (s.releaseBases bases).heap.cells = s.heap.cells := by
  induction bases generalizing s with
  | nil => rfl
  | cons base bases ih =>
    cases base with
    | heapNode handle =>
      rw [releaseBases, ih]
      cases s.ctx.heapNodeMap handle <;> simp
    | identity handle =>
      rw [releaseBases, ih]
      cases s.ctx.identityMap handle <;> simp

@[simp] theorem cells_releaseBaseShares :
    s.releaseBaseShares.heap.cells = s.heap.cells :=
  cells_releaseBases _ _

end RestoreState

/-! ## Values without children -/

/-- The integer arms: the bits of `i` at the width of the expected kind. -/
def intBits : NativeKind → Word → Option Word
  | .int64, i | .uint64, i | .intSize, i | .uintSize, i => some i
  | .int32, i => some ((i.setWidth 32).signExtend 64)
  | .int16, i => some ((i.setWidth 16).signExtend 64)
  | .int8, i => some ((i.setWidth 8).signExtend 64)
  | .uint32, i => some ((i.setWidth 32).setWidth 64)
  | .uint16, i => some ((i.setWidth 16).setWidth 64)
  | .uint8, i => some ((i.setWidth 8).setWidth 64)
  | _, _ => none

/-- The two errors of an arm that does not fit the expected kind. -/
def mismatch {α : Type} : NativeKind → Except RestoreError α
  | .ptr hk => .error (.heapKindMismatch hk)
  | kind => .error (.kindMismatch kind)

/-- A fresh cell, and the slot that owns its share. -/
def allocSlot (h : Heap) (content : Alloc) (kind : NativeKind) : KindedSlot × Heap :=
  let (a, h) := h.alloc content
  (⟨.addr a, kind⟩, h)

/-- `inner_kinded_from_serializable`. -/
def innerKindedFromSerializable : SerializableVMValue → Heap → Except RestoreError (KindedSlot × Heap)
  | .int i, h => .ok (⟨.word i, .int64⟩, h)
  | .number f, h => .ok (⟨.word f, .float64⟩, h)
  | .bool b, h => .ok (⟨.word (if b then 1 else 0), .bool⟩, h)
  | .string s, h => .ok (allocSlot h (.string s) .string)
  | .unit, h | .none, h => .ok (.none, h)
  | _, _ => .error .payloadArm

/-- `build_builtin_variant_typed_object_kinded_slot`. -/
def buildVariant (schemaId variant : Word) (payload : KindedSlot) (h : Heap) : KindedSlot × Heap :=
  let heapMask : Word := if payload.bits ≠ 0 ∧ payload.kind.isHeap then (1 : Word) <<< 1 else 0
  allocSlot h
    (.typedObject
      { schemaId, slots := [.word variant, payload.bits], heapMask, fieldKinds := [.int64, payload.kind] })
    (.ptr .typedObject)

/-- The `ResultData` arm, with `build_builtin_result_typed_object_kinded_slot` (`Ok` is variant 0). -/
def resultToKindedSlot (env : RestoreEnv) (isOk : Bool) (payload : SerializableVMValue) (h : Heap) :
    Except RestoreError (KindedSlot × Heap) := do
  let (payload, h) ← innerKindedFromSerializable payload h
  .ok (buildVariant env.resultSchema (if isOk then 0 else 1) payload h)

/-- The payload of the `OptionData` arm. -/
def optionPayload (isSome : Bool) (payload : Option SerializableVMValue) (h : Heap) :
    Except RestoreError (KindedSlot × Heap) :=
  match payload with
  | some payload => innerKindedFromSerializable payload h
  | none => if isSome then .error .payloadMissing else .ok (.none, h)

/-- The `OptionData` arm, with `build_builtin_option_typed_object_kinded_slot` (`Some` is variant 0). -/
def optionToKindedSlot (env : RestoreEnv) (isSome : Bool) (payload : Option SerializableVMValue)
    (h : Heap) : Except RestoreError (KindedSlot × Heap) := do
  let (payload, h) ← optionPayload isSome payload h
  .ok (buildVariant env.optionSchema (if isSome then 0 else 1) payload h)

/-- `sift_up` of the priority queue: a signed min-heap in an array. -/
def siftUp : Nat → Nat → List Word → List Word
  | 0, _, buf => buf
  | _, 0, buf => buf
  | fuel + 1, i, buf =>
    let parent := (i - 1) / 2
    match buf[i]?, buf[parent]? with
    | some x, some p => if x.slt p then siftUp fuel parent ((buf.set i p).set parent x) else buf
    | _, _ => buf

/-- `PriorityQueueData::push`. -/
def priorityQueuePush (buf : List Word) (value : Word) : List Word :=
  siftUp (buf.length + 1) buf.length (buf ++ [value])

/-- `HashMapData::insert` on the entries: an existing key keeps its place. -/
def insertEntry {α : Type} (entries : List (String × α)) (key : String) (value : α) :
    List (String × α) :=
  if key ∈ entries.map (·.1) then
    entries.map fun e => if e.1 = key then (key, value) else e
  else entries ++ [(key, value)]

/-- The entries of a string map. -/
def stringEntries : List SerializableVMValue → List SerializableVMValue → List (String × String) →
    Except RestoreError (List (String × String))
  | .string k :: keys, .string v :: values, acc => stringEntries keys values (insertEntry acc k v)
  | _ :: _, _ :: _, _ => .error .mapEntry
  | _, _, acc => .ok acc

/-- The elements of an array without objects, of the type the first element decides. -/
def leafArray (elems : List SerializableVMValue) : Except RestoreError ArrayData :=
  match elems with
  | [] | .int _ :: _ =>
    ArrayData.i64 <$> elems.mapM fun
      | .int i => .ok i
      | _ => .error .heterogeneous
  | .number _ :: _ =>
    ArrayData.f64 <$> elems.mapM fun
      | .number f => .ok f
      | _ => .error .heterogeneous
  | .bool _ :: _ =>
    ArrayData.bool <$> elems.mapM fun
      | .bool b => .ok b
      | _ => .error .heterogeneous
  | .string _ :: _ =>
    ArrayData.string <$> elems.mapM fun
      | .string s => .ok s
      | _ => .error .heterogeneous
  | .decimal _ :: _ =>
    ArrayData.decimal <$> elems.mapM fun
      | .decimal d => .ok d
      | _ => .error .heterogeneous
  | _ => .error .elementArm

/-- Whether the first element sends an array to the object arm. -/
def startsWithTypedObject : List SerializableVMValue → Bool
  | .typedObject .. :: _ => true
  | _ => false

/-- `serializable_to_kinded_slot` on the arms that hold no other restored value, with the arms of
`serializable_to_slot_legacy` and `serializable_to_heap_slot` behind it. -/
def leafToKindedSlot (env : RestoreEnv) (sv : SerializableVMValue) (expected : NativeKind) (h : Heap) :
    Except RestoreError (KindedSlot × Heap) :=
  match sv, expected with
  | .int i, kind =>
    match intBits kind i with
    | some w => .ok (⟨.word w, kind⟩, h)
    | none => mismatch kind
  | .number f, .float64 => .ok (⟨.word f, .float64⟩, h)
  | .bool b, .bool => .ok (⟨.word (if b then 1 else 0), .bool⟩, h)
  | .string s, .string => .ok (allocSlot h (.string s) .string)
  | .string s, .ptr .string => .ok (allocSlot h (.string s) (.ptr .string))
  | .none, .null | .unit, .null => .ok (.none, h)
  | .none, .bool | .unit, .bool => .ok (⟨0, .bool⟩, h)
  | .resultData isOk payload, .ptr .result | .resultData isOk payload, .ptr .typedObject =>
    resultToKindedSlot env isOk payload h
  | .optionData isSome payload, .ptr .option | .optionData isSome payload, .ptr .typedObject =>
    optionToKindedSlot env isSome payload h
  | .char c, .ptr .char => .ok (⟨.word (c.val.toBitVec.setWidth 64), .ptr .char⟩, h)
  | .bigInt n, .ptr .bigInt => .ok (allocSlot h (.bigInt n) (.ptr .bigInt))
  | .moduleFunction name, .ptr .moduleFn =>
    match env.moduleFnId name with
    | some id => .ok (⟨.word id, .ptr .moduleFn⟩, h)
    | none => .error (.moduleFunctionAbsent name)
  | .decimal d, .ptr .decimal => .ok (allocSlot h (.decimal d) (.ptr .decimal))
  | .hashSet keys, .ptr .hashSet => .ok (allocSlot h (.hashSet keys.eraseDups) (.ptr .hashSet))
  | .priorityQueueHeap heap, .ptr .priorityQueue =>
    .ok (allocSlot h (.priorityQueue (heap.foldl priorityQueuePush [])) (.ptr .priorityQueue))
  | .atomicI64 value, .ptr .atomic => .ok (allocSlot h (.atomic value) (.ptr .atomic))
  | .range (some (.int start)) (some (.int stop)) inclusive, .ptr .range =>
    .ok (allocSlot h (.range start stop 1 inclusive) (.ptr .range))
  | .range .., .ptr .range => .error .rangeBound
  | .hashMap keys values, .ptr .hashMap =>
    if keys.length ≠ values.length then .error (.mapLengths keys.length values.length)
    else do
      let entries ← stringEntries keys values []
      .ok (allocSlot h (.map (.string entries)) (.ptr .hashMap))
  | .iteratorOpaque, .ptr .iterator => .error (.cleanRefuse .iterator)
  | .dequeOpaque _, .ptr .deque => .error (.cleanRefuse .deque)
  | .channelOpaque .., .ptr .channel => .error (.cleanRefuse .channel)
  | .filterExprOpaque, .ptr .filterExpr => .error (.cleanRefuse .filterExpr)
  | .reference .., .ptr .reference | .sharedCell .., .ptr .reference => .error (.needsLinkCtx .reference)
  | .sharedCell .., .ptr .sharedCell | .sharedCellRef _, .ptr .sharedCell =>
    .error (.needsLinkCtx .sharedCell)
  | .mutexOpaque _, .ptr .mutex => .ok (allocSlot h (.mutex .none) (.ptr .mutex))
  | .lazyOpaque _, .ptr .lazy => .ok (allocSlot h (.lazy false) (.ptr .lazy))
  | _, kind => mismatch kind

/-! ## Values with children -/

/-- `TypedObjectStorage::_new` over restored fields. The mask is the wire's. -/
def objectOf (schemaId heapMask : Word) (fields : List KindedSlot) : Alloc :=
  .typedObject
    { schemaId, slots := fields.map (·.bits), heapMask, fieldKinds := fields.map (·.kind) }

/-- The shell of an object node: null slots, null kinds, and no bit in the mask. -/
def objectShell (schemaId : Word) (n : Nat) : Alloc :=
  .typedObject
    { schemaId, slots := List.replicate n 0, heapMask := 0, fieldKinds := List.replicate n .null }

/-- `write_slot_in_place`. -/
def writeSlot (i : Nat) (bits : Bits) : Alloc → Alloc
  | .typedObject o => .typedObject { o with slots := o.slots.set i bits }
  | cell => cell

/-- The final write of an object node: its kinds and its mask. -/
def installKinds (kinds : List NativeKind) (heapMask : Word) : Alloc → Alloc
  | .typedObject o => .typedObject { o with fieldKinds := kinds, heapMask }
  | cell => cell

/-- `TypedArray::push` on an array of objects. -/
def pushElement (elem : Nat) : Alloc → Alloc
  | .array (.typedObject elems) => .array (.typedObject (elems ++ [elem]))
  | cell => cell

/-- What a node does with its children: how it words their errors, what it checks before the `i`-th child
is resolved, and where the child goes. -/
structure Filling where
  wrap : Nat → RestoreError → RestoreError
  before : Nat → Except RestoreError Unit := fun _ => .ok ()
  place : Nat → KindedSlot → RestoreState → Except RestoreError RestoreState

/-- The fields of `materialize_typed_object_node`, written in place. -/
def fillObject (schemaId : Word) (a : Nat) : Filling where
  wrap := .field schemaId
  place i slot s := .ok { s with heap := s.heap.modify a (writeSlot i slot.bits) }

/-- The elements of `materialize_typed_object_array_node`: objects only. -/
def fillArray (a : Nat) : Filling where
  wrap := .element
  place i slot s :=
    match slot.bits, slot.kind with
    | .addr elem, .ptr .typedObject => .ok { s with heap := s.heap.modify a (pushElement elem) }
    | _, kind => .error (.nodeElementKind i kind)

/-- The values of `materialize_typed_object_hashmap_node`: the key is looked at first, the value has to be
an object. The map itself is built when all values are there. -/
def fillMap (keys : List SerializableVMValue) : Filling where
  wrap _ := .value
  before i :=
    match keys[i]? with
    | some (.string _) => .ok ()
    | _ => .error .mapEntry
  place _ slot s :=
    match slot.bits, slot.kind with
    | .addr _, .ptr .typedObject => .ok s
    | _, kind => .error (.nodeValueKind kind)

/-- `HashMapData::insert` of an object: the value an existing key had is dropped. -/
def insertObject (acc : List (String × Nat) × Heap) (entry : SerializableVMValue × KindedSlot) :
    List (String × Nat) × Heap :=
  match entry with
  | (.string key, ⟨.addr a, _⟩) =>
    let dropped := (acc.1.filter fun e => e.1 = key).map (·.2)
    (insertEntry acc.1 key a, acc.2.releaseAll acc.2.totalShares dropped)
  | _ => acc

mutual

/-- `serializable_to_kinded_slot`. A heap node outside of a two-pass restore gets a link context of its
own. -/
def serializableToKindedSlot (env : RestoreEnv) :
    SerializableVMValue → NativeKind → Heap → Except RestoreError (KindedSlot × Heap)
  | .heapNode handle body, _, h => do
    let s ← materializeNodeBase env handle body { heap := h, ctx := {} }
    let (slot, s) ← s.lookupNode handle
    .ok (slot, s.releaseBaseShares.heap)
  | .heapRef handle, _, _ => .error (.notMaterialized handle)
  | .typedObject schemaId slotData heapMask, expected, h =>
    if expected = .ptr .typedObject then do
      let (fields, h) ← fieldsToKindedSlots env schemaId 0 slotData h
      .ok (allocSlot h (objectOf schemaId heapMask fields) (.ptr .typedObject))
    else mismatch expected
  | .array elems, expected, h =>
    if expected = .ptr .typedArray then
      if startsWithTypedObject elems then do
        let (addrs, h) ← typedObjectElements env elems h
        .ok (allocSlot h (.array (.typedObject addrs)) (.ptr .typedArray))
      else do
        let data ← leafArray elems
        .ok (allocSlot h (.array data) (.ptr .typedArray))
    else mismatch expected
  | sv, expected, h => leafToKindedSlot env sv expected h

/-- The fields of `sv_typed_object_to_kinded_slot` and `sv_typed_object_to_ptr`. -/
def fieldsToKindedSlots (env : RestoreEnv) (schemaId : Word) :
    Nat → List SerializableVMValue → Heap → Except RestoreError (List KindedSlot × Heap)
  | _, [], h => .ok ([], h)
  | i, sv :: slotData, h => do
    let (slot, h) ← (serializableToKindedSlot env sv (expectedHeapFieldKind sv) h).mapError
      (.field schemaId i)
    let (slots, h) ← fieldsToKindedSlots env schemaId (i + 1) slotData h
    .ok (slot :: slots, h)

/-- The object elements of an array outside of a node. -/
def typedObjectElements (env : RestoreEnv) :
    List SerializableVMValue → Heap → Except RestoreError (List Nat × Heap)
  | [], h => .ok ([], h)
  | .typedObject schemaId slotData heapMask :: elems, h => do
    let (fields, h) ← fieldsToKindedSlots env schemaId 0 slotData h
    let (a, h) := h.alloc (objectOf schemaId heapMask fields)
    let (addrs, h) ← typedObjectElements env elems h
    .ok (a :: addrs, h)
  | _ :: _, _ => .error .heterogeneous

/-- `materialize_node_base` and the three functions behind it. -/
def materializeNodeBase (env : RestoreEnv) (handle : Word) :
    SerializableVMValue → RestoreState → Except RestoreError RestoreState
  | .typedObject schemaId slotData heapMask, s => do
    let (a, h) := s.heap.alloc (objectShell schemaId slotData.length)
    -- Recorded before it is filled: a field may refer back to this object.
    let s := RestoreState.recordNode { s with heap := h } handle ⟨.addr a, .ptr .typedObject⟩
    let (fields, s) ← resolveEach env (fillObject schemaId a) 0 slotData s
    .ok { s with heap := s.heap.modify a (installKinds (fields.map (·.kind)) heapMask) }
  | .array elems, s => do
    let (a, h) := s.heap.alloc (.array (.typedObject []))
    let s := RestoreState.recordNode { s with heap := h } handle ⟨.addr a, .ptr .typedArray⟩
    let (_, s) ← resolveEach env (fillArray a) 0 elems s
    .ok s
  | .hashMap keys values, s =>
    if keys.length ≠ values.length then .error (.mapLengths keys.length values.length)
    else do
      let (slots, s) ← resolveEach env (fillMap keys) 0 values s
      let (entries, h) := (keys.zip slots).foldl insertObject ([], s.heap)
      -- Recorded after it is built: a value cannot refer back to this map.
      let (a, h) := h.alloc (.map (.typedObject entries))
      .ok (RestoreState.recordNode { s with heap := h } handle ⟨.addr a, .ptr .hashMap⟩)
  | _, _ => .error .notANode

/-- The children of a node, each through `resolve_child`. -/
def resolveEach (env : RestoreEnv) (fill : Filling) :
    Nat → List SerializableVMValue → RestoreState →
      Except RestoreError (List KindedSlot × RestoreState)
  | _, [], s => .ok ([], s)
  | i, sv :: svs, s => do
    fill.before i
    let (slot, s) ← Except.mapError (fill.wrap i) (match sv with
      | .heapNode handle body => do
        let s ← if (s.ctx.heapNodeMap handle).isSome then .ok s
          else materializeNodeBase env handle body s
        s.lookupNode handle
      | .heapRef handle => s.lookupNode handle
      | leaf => do
        let (slot, h) ← serializableToKindedSlot env leaf (expectedHeapFieldKind leaf) s.heap
        .ok (slot, { s with heap := h }))
    let s ← fill.place i slot s
    let (slots, s) ← resolveEach env fill (i + 1) svs s
    .ok (slot :: slots, s)

end

/-- `resolve_child`. -/
def resolveChild (env : RestoreEnv) (sv : SerializableVMValue) (s : RestoreState) :
    Except RestoreError (KindedSlot × RestoreState) :=
  match sv with
  | .heapNode handle body => do
    let s ← if (s.ctx.heapNodeMap handle).isSome then .ok s
      else materializeNodeBase env handle body s
    s.lookupNode handle
  | .heapRef handle => s.lookupNode handle
  | leaf => do
    let (slot, h) ← serializableToKindedSlot env leaf (expectedHeapFieldKind leaf) s.heap
    .ok (slot, { s with heap := h })

theorem resolveEach_cons (env : RestoreEnv) (fill : Filling) (i : Nat) (sv : SerializableVMValue)
    (svs : List SerializableVMValue) (s : RestoreState) :
    resolveEach env fill i (sv :: svs) s = (do
      fill.before i
      let (slot, s) ← (resolveChild env sv s).mapError (fill.wrap i)
      let s ← fill.place i slot s
      let (slots, s) ← resolveEach env fill (i + 1) svs s
      .ok (slot :: slots, s)) := by
  cases sv <;> simp only [resolveEach, resolveChild]

/-! ## Filling a node -/

/-- The edits of a run of children, the first one first. -/
def editAll (edit : Nat → KindedSlot → Alloc → Alloc) : Nat → List KindedSlot → Alloc → Alloc
  | _, [], cell => cell
  | i, slot :: slots, cell => editAll edit (i + 1) slots (edit i slot cell)

theorem editAll_id {edit : Nat → KindedSlot → Alloc → Alloc} (h : ∀ i slot, edit i slot = id) (i : Nat)
    (slots : List KindedSlot) : editAll edit i slots = id := by
  induction slots generalizing i with
  | nil => rfl
  | cons slot slots ih =>
    funext cell
    rw [editAll, h, ih]
    rfl

/-- Writing the fields one by one fills the slots. -/
theorem editAll_writeSlot {schemaId heapMask : Word} {kinds : List NativeKind} (slots : List KindedSlot)
    (written : List Bits) :
    editAll (fun i slot => writeSlot i slot.bits) written.length slots
        (.typedObject
          { schemaId, slots := written ++ List.replicate slots.length 0, heapMask, fieldKinds := kinds }) =
      .typedObject
        { schemaId, slots := written ++ slots.map (·.bits), heapMask, fieldKinds := kinds } := by
  induction slots generalizing written with
  | nil => rfl
  | cons slot slots ih =>
    have hset : (written ++ List.replicate (slot :: slots).length (0 : Bits)).set written.length slot.bits =
        (written ++ [slot.bits]) ++ List.replicate slots.length 0 := by
      rw [List.length_cons, List.replicate_succ, List.set_append_right _ _ (Nat.le_refl _), Nat.sub_self,
        List.set_cons_zero, List.append_assoc, List.singleton_append]
    have hnext := ih (written ++ [slot.bits])
    rw [List.length_append, List.length_singleton] at hnext
    rw [editAll, writeSlot, hset, hnext, List.map_cons, List.append_assoc, List.singleton_append]

/-- A filled shell is the object over its fields. -/
theorem installKinds_objectShell (schemaId heapMask : Word) (fields : List KindedSlot) :
    installKinds (fields.map (·.kind)) heapMask
        (editAll (fun i slot => writeSlot i slot.bits) 0 fields (objectShell schemaId fields.length)) =
      objectOf schemaId heapMask fields := by
  have hfill : editAll (fun i slot => writeSlot i slot.bits) 0 fields
      (objectShell schemaId fields.length) = _ := editAll_writeSlot fields []
  rw [hfill]
  rfl

/-- The edit of an array node. -/
def pushSlot (slot : KindedSlot) : Alloc → Alloc :=
  match slot.bits with
  | .addr elem => pushElement elem
  | .word _ => id

/-! ## The two passes -/

/-- `link_shared_cell`. -/
def linkSharedCell (handle : Word) (s : RestoreState) :
    Except RestoreError (KindedSlot × RestoreState) :=
  if handle ∈ s.ctx.inProgress then .error (.cellCycle handle)
  else match s.ctx.identityMap handle with
    | some slot => .ok (slot, { s with heap := slot.clone s.heap })
    | none => .error (.notMaterialized handle)

/-- `link_promoted_reference`: a reference cell that owns one share of the shared cell. -/
def linkPromotedReference (handle : Word) (s : RestoreState) :
    Except RestoreError (KindedSlot × RestoreState) := do
  let (cell, s) ← linkSharedCell handle s
  match cell.bits with
  | .addr a =>
    let kind := match s.heap.cells[a]? with
      | some (.sharedCell value) => value.kind
      | _ => .null
    let (slot, h) := allocSlot s.heap (.promotedCell a kind) (.ptr .reference)
    .ok (slot, { s with heap := h })
  | .word _ => .error (.notMaterialized handle)

/-- `serializable_to_kinded_slot_ctx`. -/
def serializableToKindedSlotCtx (env : RestoreEnv) (sv : SerializableVMValue) (expected : NativeKind)
    (s : RestoreState) : Except RestoreError (KindedSlot × RestoreState) :=
  match sv, expected with
  | .sharedCell handle _, .ptr .reference | .reference handle _, .ptr .reference =>
    linkPromotedReference handle s
  | .sharedCell handle _, .ptr .sharedCell | .sharedCellRef handle, .ptr .sharedCell =>
    linkSharedCell handle s
  | .heapNode handle _, _ | .heapRef handle, _ => s.lookupNode handle
  | _, _ => do
    let (slot, h) ← serializableToKindedSlot env sv expected s.heap
    .ok (slot, { s with heap := h })

mutual

/-- `materialize_cell_bodies`. -/
def materializeCellBodies (env : RestoreEnv) :
    SerializableVMValue → RestoreState → Except RestoreError RestoreState
  | .sharedCell handle inner, s =>
    if (s.ctx.identityMap handle).isSome then .ok s
    else if handle ∈ s.ctx.inProgress then .error (.cellCycle handle)
    else do
      let s ← materializeCellBodies env inner
        { s with ctx := { s.ctx with inProgress := handle :: s.ctx.inProgress } }
      let (value, s) ← serializableToKindedSlotCtx env inner (expectedKindForCellInner inner) s
      let (slot, h) := allocSlot s.heap (.sharedCell value) (.ptr .sharedCell)
      let s := RestoreState.recordIdentity { s with heap := h } handle slot
      .ok { s with ctx := { s.ctx with inProgress := s.ctx.inProgress.filter (· ≠ handle) } }
  | .heapNode handle body, s =>
    if (s.ctx.heapNodeMap handle).isSome then .ok s else materializeNodeBase env handle body s
  | .heapRef _, s => .ok s
  | .typedObject _ slotData _, s => materializeCellBodiesList env slotData s
  | _, s => .ok s

/-- `materialize_cell_bodies` over a list of values. -/
def materializeCellBodiesList (env : RestoreEnv) :
    List SerializableVMValue → RestoreState → Except RestoreError RestoreState
  | [], s => .ok s
  | sv :: svs, s => do
    let s ← materializeCellBodies env sv s
    materializeCellBodiesList env svs s

end

/-- The second pass over the slots. -/
def linkSlots (env : RestoreEnv) : List (SerializableVMValue × NativeKind) → RestoreState →
    Except RestoreError (List KindedSlot × RestoreState)
  | [], s => .ok ([], s)
  | (sv, expected) :: roots, s => do
    let (slot, s) ← serializableToKindedSlotCtx env sv expected s
    let (slots, s) ← linkSlots env roots s
    .ok (slot :: slots, s)

/-- The two passes over a list of slots, as `VirtualMachine::from_snapshot` drives them. -/
def restoreSlots (env : RestoreEnv) (roots : List (SerializableVMValue × NativeKind)) (h : Heap) :
    Except RestoreError (List KindedSlot × Heap) := do
  let s ← materializeCellBodiesList env (roots.map (·.1)) { heap := h, ctx := {} }
  let (slots, s) ← linkSlots env roots s
  .ok (slots, s.releaseBaseShares.heap)

end ShapeLang.Snapshot
