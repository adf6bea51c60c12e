import ShapeLang.Lib.Fallible

/-!
# ShapeLang — sidecars

Before a remote call is sent, `extract_sidecars` (`crates/shape-vm/src/remote.rs`) takes the large blobs out
of the serialized arguments and leaves a `SidecarRef` in each one's place; the blobs travel in messages of
their own. `reassemble_sidecars` puts them back: it stores the bytes of the sidecar again and builds the
value that the blob's kind stands for.

A `SidecarRef` keeps a kind and two numbers, "so reassembly can reconstruct the exact original variant". It
does for arrays and matrices. The four other carriers of a table (a typed table, a row, a column, an indexed
table) come back as plain tables, and an array of 2^32 elements comes back with no length.

  * `SerializableVMValue.hasShapeAll` — both walks see a value as the same places in the same order;
  * `reassemble_extract_iff` — the values come back as they were exactly when every blob taken out
    is one that its kind describes in full.
-/

namespace ShapeLang.Transport

/-! ## The values -/

/-- `HashDigest`, the bytes of the digest. -/
abbrev HashDigest := List UInt8

/-- `TypedArrayElementKind`. -/
inductive TypedArrayElementKind where
  | i8 | i16 | i32 | i64 | u8 | u16 | u32 | u64 | f32 | f64 | bool
  deriving DecidableEq, Repr

/-- `BlobKind`. -/
inductive BlobKind where
  | dataTable
  | typedArray (elementKind : TypedArrayElementKind)
  | matrix
  deriving DecidableEq, Repr

/-- `BlobRef`. -/
structure BlobRef where
  hash : HashDigest
  kind : BlobKind
  deriving DecidableEq, Repr

mutual

/-- `SerializableVMValue` (`crates/shape-runtime/src/snapshot.rs`) with all its arms. Those that carry
neither a blob nor another value (numbers, strings, times, function names, stubs of live resources) are
copied as they are by both walks; `Leaf` is their type. -/
inductive SerializableVMValue (Leaf : Type) where
  | leaf (payload : Leaf)
  | some (value : SerializableVMValue Leaf)
  | array (items : List (SerializableVMValue Leaf))
  | typeAnnotatedValue (typeName : String) (value : SerializableVMValue Leaf)
  | enum (enumName variant : String) (payload : EnumPayloadSnapshot Leaf)
  | closure (functionId typeId : UInt32) (upvalues : List (SerializableVMValue Leaf))
  | typedObject (schemaId : UInt64) (slotData : List (SerializableVMValue Leaf)) (heapMask : UInt64)
  | range (start stop : Option (SerializableVMValue Leaf)) (inclusive : Bool)
  | ok (value : SerializableVMValue Leaf)
  | err (value : SerializableVMValue Leaf)
  | printResult (rendered : String) (spans : List (PrintSpanSnapshot Leaf))
  | simulationCall (name : String) (params : List (String × SerializableVMValue Leaf))
  | functionRef (name : String) (closure : Option (SerializableVMValue Leaf))
  | dataTable (blob : BlobRef)
  | typedTable (schemaId : UInt64) (table : BlobRef)
  | rowView (schemaId : UInt64) (table : BlobRef) (rowIdx : UInt64)
  | columnRef (schemaId : UInt64) (table : BlobRef) (colId : UInt32)
  | indexedTable (schemaId : UInt64) (table : BlobRef) (indexCol : UInt32)
  | typedArray (elementKind : TypedArrayElementKind) (blob : BlobRef) (len : UInt64)
  | matrix (blob : BlobRef) (rows cols : UInt32)
  | hashMap (keys values : List (SerializableVMValue Leaf))
  | sidecarRef (sidecarId : UInt32) (blobKind : BlobKind) (originalHash : HashDigest) (metaA metaB : UInt32)
  | resultData (isOk : Bool) (payload : SerializableVMValue Leaf)
  | optionData (isSome : Bool) (payload : Option (SerializableVMValue Leaf))
  | sharedCell (handle : UInt64) (inner : SerializableVMValue Leaf)
  | heapNode (handle : UInt64) (body : SerializableVMValue Leaf)

/-- `EnumPayloadSnapshot`. -/
inductive EnumPayloadSnapshot (Leaf : Type) where
  | unit
  | tuple (items : List (SerializableVMValue Leaf))
  | struct (fields : List (String × SerializableVMValue Leaf))

/-- `PrintSpanSnapshot`. -/
inductive PrintSpanSnapshot (Leaf : Type) where
  | literal (text : String) (start stop : UInt64) (spanId : String)
  | value (text : String) (start stop : UInt64) (spanId : String) (variableName : Option String)
      (rawValue : SerializableVMValue Leaf) (typeName currentFormat : String)
      (formatParams : List (String × SerializableVMValue Leaf))

end

namespace SerializableVMValue

variable {Leaf : Type}

/-! ## The walk -/

section Walk

variable {m : Type → Type} [Monad m]

mutual

/-- The walk that extraction and reassembly share: `act` sees a value before what is below it, and a value
it replaces is not walked into. The arms of the `match` are those of both functions; a result, an option, a
shared cell and a heap node are not among them. -/
def walk (act : SerializableVMValue Leaf → m (Option (SerializableVMValue Leaf)))
    (value : SerializableVMValue Leaf) :
    m (SerializableVMValue Leaf) := do
  match ← act value with
  | .some replaced => pure replaced
  | .none =>
    match value with
    | .some inner => return .some (← walk act inner)
    | .array items => return .array (← walkAll act items)
    | .typeAnnotatedValue typeName inner => return .typeAnnotatedValue typeName (← walk act inner)
    | .enum enumName variant payload => return .enum enumName variant (← walkPayload act payload)
    | .closure functionId typeId upvalues => return .closure functionId typeId (← walkAll act upvalues)
    | .typedObject schemaId slotData heapMask =>
      return .typedObject schemaId (← walkAll act slotData) heapMask
    | .range start stop inclusive =>
      return .range (← walkOption act start) (← walkOption act stop) inclusive
    | .ok inner => return .ok (← walk act inner)
    | .err inner => return .err (← walk act inner)
    | .printResult rendered spans => return .printResult rendered (← walkSpans act spans)
    | .simulationCall name params => return .simulationCall name (← walkFields act params)
    | .functionRef name captured => return .functionRef name (← walkOption act captured)
    | .hashMap keys values => return .hashMap (← walkAll act keys) (← walkAll act values)
    | other => pure other

def walkAll (act : SerializableVMValue Leaf → m (Option (SerializableVMValue Leaf))) :
    List (SerializableVMValue Leaf) → m (List (SerializableVMValue Leaf))
  | [] => pure []
  | value :: values => return (← walk act value) :: (← walkAll act values)

def walkOption (act : SerializableVMValue Leaf → m (Option (SerializableVMValue Leaf))) :
    Option (SerializableVMValue Leaf) → m (Option (SerializableVMValue Leaf))
  | .none => pure .none
  | .some value => return Option.some (← walk act value)

def walkFields (act : SerializableVMValue Leaf → m (Option (SerializableVMValue Leaf))) :
    List (String × SerializableVMValue Leaf) → m (List (String × SerializableVMValue Leaf))
  | [] => pure []
  | (name, value) :: fields => return (name, ← walk act value) :: (← walkFields act fields)

def walkPayload (act : SerializableVMValue Leaf → m (Option (SerializableVMValue Leaf))) :
    EnumPayloadSnapshot Leaf → m (EnumPayloadSnapshot Leaf)
  | .unit => pure .unit
  | .tuple items => return .tuple (← walkAll act items)
  | .struct fields => return .struct (← walkFields act fields)

def walkSpan (act : SerializableVMValue Leaf → m (Option (SerializableVMValue Leaf))) :
    PrintSpanSnapshot Leaf → m (PrintSpanSnapshot Leaf)
  | .literal text start stop spanId => pure (.literal text start stop spanId)
  | .value text start stop spanId variableName rawValue typeName currentFormat formatParams =>
    return .value text start stop spanId variableName (← walk act rawValue) typeName currentFormat
      (← walkFields act formatParams)

def walkSpans (act : SerializableVMValue Leaf → m (Option (SerializableVMValue Leaf))) :
    List (PrintSpanSnapshot Leaf) → m (List (PrintSpanSnapshot Leaf))
  | [] => pure []
  | span :: spans => return (← walkSpan act span) :: (← walkSpans act spans)

end

end Walk

/-! ## Extraction and reassembly at one value -/

/-- `get_blob_ref`. -/
def getBlobRef : SerializableVMValue Leaf → Option BlobRef
  | .dataTable blob => Option.some blob
  | .typedTable _ table => Option.some table
  | .rowView _ table _ => Option.some table
  | .columnRef _ table _ => Option.some table
  | .indexedTable _ table _ => Option.some table
  | .typedArray _ blob _ => Option.some blob
  | .matrix blob _ _ => Option.some blob
  | _ => Option.none

/-- The metadata a `SidecarRef` keeps: the length of an array, the rows and columns of a matrix. -/
def sidecarMeta : SerializableVMValue Leaf → UInt32 × UInt32
  | .typedArray _ _ len => (len.toUInt32, 0)
  | .matrix _ rows cols => (rows, cols)
  | _ => (0, 0)

/-- The value that a blob of this kind is read as. -/
def ofBlob (blob : BlobRef) (metaA metaB : UInt32) : SerializableVMValue Leaf :=
  match blob.kind with
  | .dataTable => .dataTable blob
  | .typedArray elementKind => .typedArray elementKind blob metaA.toUInt64
  | .matrix => .matrix blob metaA metaB

end SerializableVMValue

/-! ## The store -/

/-- `ChunkedBlob`. -/
structure ChunkedBlob where
  chunkHashes : List HashDigest
  totalLen : Nat
  chunkLen : Nat
  deriving DecidableEq, Repr

/-- What the store takes from elsewhere: the digest of some bytes (`hash_bytes`) and the encoding of a
`ChunkedBlob` (`bincode`), which reads back what it wrote. -/
structure Codec where
  hashBytes : List UInt8 → HashDigest
  serialize : ChunkedBlob → List UInt8
  deserialize : List UInt8 → Option ChunkedBlob
  deserialize_serialize : ∀ chunked, deserialize (serialize chunked) = some chunked

/-- `SnapshotStore`: the bytes under each digest. -/
structure SnapshotStore where
  blobs : HashDigest → Option (List UInt8)

section Store

variable (C : Codec)

/-- `put_blob`: a file that exists is not written again. -/
def SnapshotStore.putBlob (store : SnapshotStore) (data : List UInt8) : HashDigest × SnapshotStore :=
  let hash := C.hashBytes data
  match store.blobs hash with
  | some _ => (hash, store)
  | none => (hash, { blobs := Function.update store.blobs hash (some data) })

/-- `put_struct`, of a chunk list. -/
def SnapshotStore.putStruct (store : SnapshotStore) (chunked : ChunkedBlob) : HashDigest × SnapshotStore :=
  store.putBlob C (C.serialize chunked)

/-- `get_struct`, of a chunk list. -/
def SnapshotStore.getStruct (store : SnapshotStore) (hash : HashDigest) : Option ChunkedBlob :=
  (store.blobs hash).bind C.deserialize

def byteChunkLen : Nat := 256 * 1024

/-- The loop of `store_chunked_bytes`. -/
def SnapshotStore.putChunks (store : SnapshotStore) : List (List UInt8) → List HashDigest × SnapshotStore
  | [] => ([], store)
  | chunk :: chunks =>
    let (hash, store) := store.putBlob C chunk
    let (hashes, store) := store.putChunks chunks
    (hash :: hashes, store)

/-- `store_chunked_bytes`. -/
def SnapshotStore.storeChunkedBytes (store : SnapshotStore) (data : List UInt8) :
    ChunkedBlob × SnapshotStore :=
  let (chunkHashes, store) := store.putChunks C (data.toChunks byteChunkLen)
  ({ chunkHashes, totalLen := data.length, chunkLen := byteChunkLen }, store)

/-- `load_chunked_bytes`. -/
def SnapshotStore.loadChunkedBytes (store : SnapshotStore) (chunked : ChunkedBlob) : Option (List UInt8) :=
  if chunked.totalLen = 0 then some []
  else do
    let chunks ← chunked.chunkHashes.mapM store.blobs
    some (chunks.flatten.take chunked.totalLen)

end Store

/-! ## Extraction -/

/-- `SIDECAR_THRESHOLD`: 1 MB. -/
def sidecarThreshold : Nat := 1024 * 1024

/-- `BlobSidecar`. -/
structure BlobSidecar where
  sidecarId : UInt32
  data : List UInt8
  deriving DecidableEq, Repr

/-- What an extraction has collected, and the next id. -/
structure Extraction where
  sidecars : List BlobSidecar
  nextId : UInt32

section Extract

variable (C : Codec) (store : SnapshotStore) {Leaf : Type}

open SerializableVMValue (walk walkAll getBlobRef sidecarMeta ofBlob)

/-- The bytes of a blob that is large enough to be taken out. -/
def largeBlob (blob : BlobRef) : Option (List UInt8) := do
  let chunked ← store.getStruct C blob.hash
  if chunked.totalLen < sidecarThreshold then none
  else store.loadChunkedBytes chunked

/-- `try_extract_blob`. -/
def tryExtractBlob (blob : BlobRef) (nextId : UInt32) : Option (BlobSidecar × UInt32) := do
  let data ← largeBlob C store blob
  some ({ sidecarId := nextId, data }, nextId + 1)

/-- What `extract_sidecars_recursive` does at a value before it goes below. -/
def extractAt (value : SerializableVMValue Leaf) : StateM Extraction (Option (SerializableVMValue Leaf)) :=
  fun st =>
    match getBlobRef value with
    | none => (none, st)
    | some blob =>
      match tryExtractBlob C store blob st.nextId with
      | none => (none, st)
      | some (sidecar, nextId) =>
        (some (.sidecarRef sidecar.sidecarId blob.kind blob.hash (sidecarMeta value).1
          (sidecarMeta value).2), { sidecars := st.sidecars ++ [sidecar], nextId })

/-- `extract_sidecars`: the arguments as they are sent, and the sidecars. -/
def extractSidecars (args : List (SerializableVMValue Leaf)) :
    List (SerializableVMValue Leaf) × List BlobSidecar :=
  let (args, st) := walkAll (extractAt C store) args { sidecars := [], nextId := 0 }
  (args, st.sidecars)

/-! ## Reassembly -/

inductive ReassembleError where
  /-- "missing sidecar with id {}" -/
  | missingSidecar (id : UInt32)
  deriving DecidableEq, Repr

/-- The sidecars by their ids, as they have arrived: one with an id that is known replaces the one
before. -/
def sidecarMap (sidecars : List BlobSidecar) (id : UInt32) : Option BlobSidecar :=
  sidecars.reverse.find? fun sidecar => sidecar.sidecarId == id

/-- What `reassemble_recursive` does at a value before it goes below. -/
def reassembleAt (sidecars : UInt32 → Option BlobSidecar) (value : SerializableVMValue Leaf) :
    StateT SnapshotStore (Except ReassembleError) (Option (SerializableVMValue Leaf)) := fun store =>
  match value with
  | .sidecarRef sidecarId blobKind _ metaA metaB =>
    match sidecars sidecarId with
    | none => .error (.missingSidecar sidecarId)
    | some sidecar =>
      let (chunked, store) := store.storeChunkedBytes C sidecar.data
      let (hash, store) := store.putStruct C chunked
      .ok (some (ofBlob { hash, kind := blobKind } metaA metaB), store)
  | _ => .ok (none, store)

/-- `reassemble_sidecars`. -/
def reassembleSidecars (sidecars : UInt32 → Option BlobSidecar) (args : List (SerializableVMValue Leaf))
    (store : SnapshotStore) : Except ReassembleError (List (SerializableVMValue Leaf) × SnapshotStore) :=
  walkAll (reassembleAt C sidecars) args store

end Extract

/-! ## The places of a value

The walk acts at some values and leaves the others as they are: `stop` says at which. A value is then these
places and the rest, and the walk acts on the places one after the other. -/

namespace SerializableVMValue

section Shape

variable {Leaf : Type} {stop : SerializableVMValue Leaf → Bool}

/-- The values that a walk may replace. -/
def isCarrier : SerializableVMValue Leaf → Bool
  | .sidecarRef .. => true
  | value => (getBlobRef value).isSome

/-- An action that leaves everything but the places alone. -/
def Skips (stop : SerializableVMValue Leaf → Bool) {m : Type → Type} [Monad m]
    (act : SerializableVMValue Leaf → m (Option (SerializableVMValue Leaf))) : Prop :=
  ∀ value, stop value = false → act value = pure Option.none

/-- A walk over something built of values. -/
abbrev Walker (Leaf α : Type) : Type 1 :=
  ∀ (m : Type → Type) [Monad m],
    (SerializableVMValue Leaf → m (Option (SerializableVMValue Leaf))) → α → m α

/-- `a` is the `places` put into the holes of `plug`, and a walk acts on the places alone. -/
structure ShapeOf (stop : SerializableVMValue Leaf → Bool) {α : Type} (go : Walker Leaf α) (a : α)
    (places : List (SerializableVMValue Leaf)) (plug : List (SerializableVMValue Leaf) → α) : Prop where
  stops : ∀ place ∈ places, stop place = true
  plugged : plug places = a
  injective : ∀ values values', values.length = places.length → values'.length = places.length →
    plug values = plug values' → values = values'
  walked : ∀ (m : Type → Type) [Monad m] [LawfulMonad m]
    (act : SerializableVMValue Leaf → m (Option (SerializableVMValue Leaf))), Skips stop act →
    ∀ values, values.length = places.length → go m act (plug values) = plug <$> values.mapM (walk act)

def HasShape (stop : SerializableVMValue Leaf → Bool) {α : Type} (go : Walker Leaf α) (a : α) : Prop :=
  ∃ places plug, ShapeOf stop go a places plug

variable {α β : Type} {go : Walker Leaf α} {go' : Walker Leaf β} {a : α} {b : β}

/-- The results of a `mapM` are as many as its arguments. -/
theorem mapM_bind_congr {m : Type → Type} [Monad m] [LawfulMonad m] {γ δ ε : Type} {f : γ → m δ}
    {l : List γ} {k k' : List δ → m ε}
    (h : ∀ results, results.length = l.length → k results = k' results) :
    l.mapM f >>= k = l.mapM f >>= k' := by
  induction l generalizing k k' with
  | nil => simpa using h [] rfl
  | cons x l ih =>
    rw [List.mapM_cons, bind_assoc, bind_assoc]
    refine bind_congr fun y => ?_
    rw [bind_assoc, bind_assoc]
    refine ih fun results hresults => ?_
    rw [pure_bind, pure_bind]
    exact h (y :: results) (by simp [hresults])

/-- Nothing to act on. -/
theorem HasShape.const (h : ∀ (m : Type → Type) [Monad m] [LawfulMonad m]
    (act : SerializableVMValue Leaf → m (Option (SerializableVMValue Leaf))), Skips stop act →
      go m act a = pure a) : HasShape stop go a := by
  refine ⟨[], fun _ => a, by simp, rfl, ?_, ?_⟩
  · intro values values' hvalues hvalues' _
    rw [List.eq_nil_of_length_eq_zero hvalues, List.eq_nil_of_length_eq_zero hvalues']
  · intro m _ _ act hskips values hvalues
    rw [List.eq_nil_of_length_eq_zero hvalues, h m act hskips]
    simp

/-- A constructor around it. -/
theorem HasShape.map (f : α → β) (hf : Function.Injective f) (h : HasShape stop go a)
    (hgo : ∀ (m : Type → Type) [Monad m] [LawfulMonad m]
      (act : SerializableVMValue Leaf → m (Option (SerializableVMValue Leaf))), Skips stop act →
        ∀ a, go' m act (f a) = f <$> go m act a) : HasShape stop go' (f a) := by
  obtain ⟨places, plug, hshape⟩ := h
  refine ⟨places, fun values => f (plug values), hshape.stops, congrArg f hshape.plugged, ?_, ?_⟩
  · intro values values' hvalues hvalues' heq
    exact hshape.injective values values' hvalues hvalues' (hf heq)
  · intro m _ _ act hskips values hvalues
    rw [hgo m act hskips, hshape.walked m act hskips values hvalues, ← comp_map]
    rfl

/-- One after the other. -/
theorem HasShape.pair (ha : HasShape stop go a) (hb : HasShape stop go' b) :
    HasShape stop (fun _ _ act (p : α × β) => do
      let a ← go _ act p.1
      let b ← go' _ act p.2
      pure (a, b)) (a, b) := by
  obtain ⟨places, plug, hshape⟩ := ha
  obtain ⟨places', plug', hshape'⟩ := hb
  -- the places of the first, then those of the second
  refine ⟨places ++ places', fun values => (plug (values.take places.length), plug'
    (values.drop places.length)), ?_, ?_, ?_, ?_⟩
  · intro place hplace
    rcases List.mem_append.mp hplace with h | h
    · exact hshape.stops place h
    · exact hshape'.stops place h
  · simp [hshape.plugged, hshape'.plugged]
  · intro values values' hvalues hvalues' heq
    rw [List.length_append] at hvalues hvalues'
    obtain ⟨hfst, hsnd⟩ := Prod.mk.inj heq
    have htake := hshape.injective _ _ (by rw [List.length_take]; omega)
        (by rw [List.length_take]; omega) hfst
    have hdrop := hshape'.injective _ _ (by rw [List.length_drop]; omega)
        (by rw [List.length_drop]; omega) hsnd
    rw [← List.take_append_drop places.length values, htake, hdrop, List.take_append_drop]
  · intro m _ _ act hskips values hvalues
    rw [List.length_append] at hvalues
    have htake : (values.take places.length).length = places.length := by rw [List.length_take]; omega
    have hdrop : (values.drop places.length).length = places'.length := by rw [List.length_drop]; omega
    have hleft := hshape.walked m act hskips _ htake
    have hright := hshape'.walked m act hskips _ hdrop
    have hsplit : values.mapM (walk act) =
        (values.take places.length).mapM (walk act) >>= fun front =>
          (values.drop places.length).mapM (walk act) >>= fun back => pure (front ++ back) := by
      conv_lhs => rw [← List.take_append_drop places.length values]
      exact List.mapM_append
    show (go m act (plug (values.take places.length)) >>= fun a =>
      go' m act (plug' (values.drop places.length)) >>= fun b => pure (a, b)) = _
    rw [hleft, hright, hsplit, bind_map_left, map_bind]
    -- the walk over the places splits at the same point
    refine mapM_bind_congr fun front hfront => ?_
    have hlength : front.length = places.length := hfront.trans htake
    rw [bind_map_left, map_bind]
    refine bind_congr fun back => ?_
    rw [map_pure, List.take_left' hlength, List.drop_left' hlength]

variable {value : SerializableVMValue Leaf}

/-- The value is a place itself. -/
theorem HasShape.place (h : stop value = true) :
    HasShape stop (fun _ _ act value => walk act value) value := by
  refine ⟨[value], fun values => values.headD value, by simpa using h, rfl, ?_, ?_⟩
  · intro values values' hvalues hvalues' heq
    obtain ⟨u, rfl⟩ := List.length_eq_one_iff.mp hvalues
    obtain ⟨u', rfl⟩ := List.length_eq_one_iff.mp hvalues'
    exact congrArg (fun u => [u]) heq
  · intro m _ _ act _ values hvalues
    obtain ⟨u, rfl⟩ := List.length_eq_one_iff.mp hvalues
    simp

/-- A value without others in it. -/
theorem HasShape.single
    (hwalk : ∀ (m : Type → Type) [Monad m] [LawfulMonad m]
      (act : SerializableVMValue Leaf → m (Option (SerializableVMValue Leaf))), act value =
      pure Option.none → walk act value = pure value) :
    HasShape stop (fun _ _ act value => walk act value) value := by
  cases hvalue : stop value with
  | true => exact .place hvalue
  | false => exact .const fun m _ _ act hskips => hwalk m act (hskips value hvalue)

/-- A value with others in it. -/
theorem HasShape.wrap (hstop : ∀ value, stop value = true → value.isCarrier = true)
    {f : α → SerializableVMValue Leaf} (hf : Function.Injective f) (hcarrier : ∀ a, (f a).isCarrier = false)
    (h : HasShape stop go a) (hwalk : ∀ (m : Type → Type) [Monad m] [LawfulMonad m]
      (act : SerializableVMValue Leaf → m (Option (SerializableVMValue Leaf))) (a : α),
        act (f a) = pure Option.none → walk act (f a) = f <$> go m act a) :
    HasShape stop (fun _ _ act value => walk act value) (f a) := by
  refine h.map f hf fun m _ _ act hskips a => hwalk m act a (hskips (f a) ?_)
  cases hvalue : stop (f a) with
  | false => rfl
  | true => exact absurd (hstop (f a) hvalue) (by simp [hcarrier])

mutual

/-- **A value is its places and the rest.** -/
theorem hasShape (hstop : ∀ value, stop value = true → value.isCarrier = true) :
    (value : SerializableVMValue Leaf) → HasShape stop (fun _ _ act value => walk act value) value
  | .some inner => .wrap hstop (fun _ _ h => by injection h) (fun _ => rfl) (hasShape hstop inner)
      fun m _ _ act _ hact => by simp [walk, hact]
  | .array items => .wrap hstop (fun _ _ h => by injection h) (fun _ => rfl) (hasShapeAll hstop items)
      fun m _ _ act _ hact => by simp [walk, hact]
  | .typeAnnotatedValue typeName inner =>
    .wrap hstop (f := .typeAnnotatedValue typeName) (fun _ _ h => by injection h) (fun _ => rfl)
      (hasShape hstop inner) fun m _ _ act _ hact => by simp [walk, hact]
  | .enum enumName variant payload =>
    .wrap hstop (f := .enum enumName variant) (fun _ _ h => by injection h) (fun _ => rfl)
      (hasShapePayload hstop payload) fun m _ _ act _ hact => by simp [walk, hact]
  | .closure functionId typeId upvalues =>
    .wrap hstop (f := .closure functionId typeId) (fun _ _ h => by injection h) (fun _ => rfl)
      (hasShapeAll hstop upvalues) fun m _ _ act _ hact => by simp [walk, hact]
  | .typedObject schemaId slotData heapMask =>
    .wrap hstop (f := fun slotData => .typedObject schemaId slotData heapMask)
      (fun _ _ h => by injection h) (fun _ => rfl) (hasShapeAll hstop slotData)
      fun m _ _ act _ hact => by simp [walk, hact]
  | .range start stop' inclusive =>
    .wrap hstop (f := fun p => .range p.1 p.2 inclusive) (fun _ _ h => by simpa [Prod.ext_iff] using h)
      (fun _ => rfl) (.pair (hasShapeOption hstop start) (hasShapeOption hstop stop'))
      fun m _ _ act _ hact => by simp [walk, hact]
  | .ok inner => .wrap hstop (f := .ok) (fun _ _ h => by injection h) (fun _ => rfl) (hasShape hstop inner)
      fun m _ _ act _ hact => by simp [walk, hact]
  | .err inner =>
    .wrap hstop (f := .err) (fun _ _ h => by injection h) (fun _ => rfl) (hasShape hstop inner)
      fun m _ _ act _ hact => by simp [walk, hact]
  | .printResult rendered spans =>
    .wrap hstop (f := .printResult rendered) (fun _ _ h => by injection h) (fun _ => rfl)
      (hasShapeSpans hstop spans) fun m _ _ act _ hact => by simp [walk, hact]
  | .simulationCall name params =>
    .wrap hstop (f := .simulationCall name) (fun _ _ h => by injection h) (fun _ => rfl)
      (hasShapeFields hstop params) fun m _ _ act _ hact => by simp [walk, hact]
  | .functionRef name captured =>
    .wrap hstop (f := .functionRef name) (fun _ _ h => by injection h) (fun _ => rfl)
      (hasShapeOption hstop captured) fun m _ _ act _ hact => by simp [walk, hact]
  | .hashMap keys values =>
    .wrap hstop (f := fun p => .hashMap p.1 p.2) (fun _ _ h => by simpa [Prod.ext_iff] using h)
      (fun _ => rfl)
      (.pair (hasShapeAll hstop keys) (hasShapeAll hstop values)) fun m _ _ act _ hact =>
        by simp [walk, hact]
  | .leaf _ | .dataTable _ | .typedTable _ _ | .rowView _ _ _ | .columnRef _ _ _ | .indexedTable _ _ _
  | .typedArray _ _ _ | .matrix _ _ _ | .sidecarRef _ _ _ _ _ | .resultData _ _ | .optionData _ _
  | .sharedCell _ _ | .heapNode _ _ => .single fun m _ _ act hact => by simp [walk, hact]

theorem hasShapeAll (hstop : ∀ value, stop value = true → value.isCarrier = true) :
    (values : List (SerializableVMValue Leaf)) → HasShape stop
    (fun _ _ act values => walkAll act values) values
  | [] => .const fun m _ _ act _ => by simp [walkAll]
  | value :: values =>
    .map (fun p : SerializableVMValue Leaf × List (SerializableVMValue Leaf) => p.1 :: p.2)
      (fun _ _ h => by simpa [Prod.ext_iff] using h)
        (.pair (hasShape hstop value) (hasShapeAll hstop values))
      fun m _ _ act _ p => by simp [walkAll]

theorem hasShapeOption (hstop : ∀ value, stop value = true → value.isCarrier = true) :
    (value : Option (SerializableVMValue Leaf)) → HasShape stop
    (fun _ _ act value => walkOption act value) value
  | .none => .const fun m _ _ act _ => by simp [walkOption]
  | .some value => .map Option.some (fun _ _ h => Option.some.inj h) (hasShape hstop value)
      fun m _ _ act _ p => by simp [walkOption]

theorem hasShapeFields (hstop : ∀ value, stop value = true → value.isCarrier = true) :
    (fields : List (String × SerializableVMValue Leaf)) →
      HasShape stop (fun _ _ act fields => walkFields act fields) fields
  | [] => .const fun m _ _ act _ => by simp [walkFields]
  | (name, value) :: fields =>
    .map (fun p : SerializableVMValue Leaf × List (String × SerializableVMValue Leaf) => (name, p.1) :: p.2)
      (fun _ _ h => by simpa [Prod.ext_iff] using h)
        (.pair (hasShape hstop value) (hasShapeFields hstop fields))
      fun m _ _ act _ p => by simp [walkFields]

theorem hasShapePayload (hstop : ∀ value, stop value = true → value.isCarrier = true) :
    (payload : EnumPayloadSnapshot Leaf) → HasShape stop
    (fun _ _ act payload => walkPayload act payload) payload
  | .unit => .const fun m _ _ act _ => by simp [walkPayload]
  | .tuple items => .map EnumPayloadSnapshot.tuple (fun _ _ h => by injection h) (hasShapeAll hstop items)
      fun m _ _ act _ p => by simp [walkPayload]
  | .struct fields =>
    .map EnumPayloadSnapshot.struct (fun _ _ h => by injection h) (hasShapeFields hstop fields)
      fun m _ _ act _ p => by simp [walkPayload]

theorem hasShapeSpan (hstop : ∀ value, stop value = true → value.isCarrier = true) :
    (span : PrintSpanSnapshot Leaf) → HasShape stop (fun _ _ act span => walkSpan act span) span
  | .literal _ _ _ _ => .const fun m _ _ act _ => by simp [walkSpan]
  | .value text start stop' spanId variableName rawValue typeName currentFormat formatParams =>
    .map (fun p : SerializableVMValue Leaf × List (String × SerializableVMValue Leaf) =>
        PrintSpanSnapshot.value text start stop' spanId variableName p.1 typeName currentFormat p.2)
      (fun _ _ h => by simpa [Prod.ext_iff] using h)
      (.pair (hasShape hstop rawValue) (hasShapeFields hstop formatParams))
      fun m _ _ act _ p => by simp [walkSpan]

theorem hasShapeSpans (hstop : ∀ value, stop value = true → value.isCarrier = true) :
    (spans : List (PrintSpanSnapshot Leaf)) → HasShape stop (fun _ _ act spans => walkSpans act spans) spans
  | [] => .const fun m _ _ act _ => by simp [walkSpans]
  | span :: spans =>
    .map (fun p : PrintSpanSnapshot Leaf × List (PrintSpanSnapshot Leaf) => p.1 :: p.2)
      (fun _ _ h => by simpa [Prod.ext_iff] using h)
        (.pair (hasShapeSpan hstop span) (hasShapeSpans hstop spans))
      fun m _ _ act _ p => by simp [walkSpans]

end

end Shape

end SerializableVMValue

/-! ## What comes back -/

section Lossless

variable (C : Codec) (store : SnapshotStore) {Leaf : Type}

open SerializableVMValue (walk walkAll getBlobRef sidecarMeta ofBlob isCarrier)

/-- The bytes that extraction takes out at a value. -/
def takenOut (value : SerializableVMValue Leaf) : Option (List UInt8) :=
  (getBlobRef value).bind (largeBlob C store)

/-- Extraction or reassembly acts at this value. -/
def isPlace : SerializableVMValue Leaf → Bool
  | .sidecarRef .. => true
  | value => (takenOut C store value).isSome

/-- The values at which the walk over the arguments stops, in its order. -/
def places (args : List (SerializableVMValue Leaf)) : List (SerializableVMValue Leaf) :=
  let note (value : SerializableVMValue Leaf) :
      StateM (List (SerializableVMValue Leaf)) (Option (SerializableVMValue Leaf)) := fun seen =>
    if isPlace C store value then (some value, seen ++ [value]) else (none, seen)
  (walkAll note args []).2

/-- The chunk list that `store_chunked_bytes` makes of the bytes. -/
def chunkedBlob (data : List UInt8) : ChunkedBlob where
  chunkHashes := (data.toChunks byteChunkLen).map C.hashBytes
  totalLen := data.length
  chunkLen := byteChunkLen

/-- The kind of the blob and the two numbers of a `SidecarRef` say all there is to say of the value: it is
a table, a matrix, or an array of less than 2^32 elements, under a blob of its own kind. -/
def Described : SerializableVMValue Leaf → Prop
  | .dataTable blob => blob.kind = .dataTable
  | .typedArray elementKind blob len => blob.kind = .typedArray elementKind ∧ len.toNat < 2 ^ 32
  | .matrix blob _ _ => blob.kind = .matrix
  | _ => False

/-- The value is described, and its blob is filed under the digest of the chunk list of its bytes. -/
def Restorable (value : SerializableVMValue Leaf) : Prop :=
  ∃ blob data, getBlobRef value = some blob ∧ largeBlob C store blob = some data ∧ Described value ∧
    blob.hash = C.hashBytes (C.serialize (chunkedBlob C data))

/-- What is taken out of the arguments can be put back: each place is restorable, and two places whose
numbers agree as 32-bit ids hold the same bytes. -/
structure Lossless (args : List (SerializableVMValue Leaf)) : Prop where
  restorable : ∀ value ∈ places C store args, Restorable C store value
  distinct : ∀ j k value value', (places C store args)[j]? = some value →
    (places C store args)[k]? = some value' → j % 2 ^ 32 = k % 2 ^ 32 →
    takenOut C store value = takenOut C store value'

variable {C store}

theorem isCarrier_of_isPlace (value : SerializableVMValue Leaf) (h : isPlace C store value = true) :
    value.isCarrier = true := by
  cases value <;> first | rfl | exact absurd h (by simp [isPlace, takenOut, getBlobRef])

variable {value : SerializableVMValue Leaf}

theorem extractAt_eq_none (h : takenOut C store value = none) :
    extractAt C store value = pure none := by
  funext st
  unfold extractAt
  cases hblob : getBlobRef value with
  | none => rfl
  | some blob =>
    have hlarge : largeBlob C store blob = none := by simpa [takenOut, hblob] using h
    simp [tryExtractBlob, hlarge]
    rfl

theorem skips_extractAt : SerializableVMValue.Skips (isPlace C store) (@extractAt C store Leaf) := by
  intro value h
  refine extractAt_eq_none ?_
  cases value with
  | sidecarRef => rfl
  | _ => simpa [isPlace] using h

theorem skips_reassembleAt (sidecars : UInt32 → Option BlobSidecar) :
    SerializableVMValue.Skips (isPlace C store) (@reassembleAt C Leaf sidecars) := by
  intro value h
  cases value <;> first | rfl | exact absurd h (by simp [isPlace])

/-- The walk at a value that the action replaces. -/
theorem walk_of_replaced {m : Type → Type} [Monad m] [LawfulMonad m]
    {act : SerializableVMValue Leaf → m (Option (SerializableVMValue Leaf))}
    {x : m (SerializableVMValue Leaf)} (h : act value = some <$> x) : walk act value = x := by
  cases value <;> simp [walk, h]

/-! ### Extraction, place by place -/

/-- What stands in the place of a value. -/
def reference (value : SerializableVMValue Leaf) (id : UInt32) : SerializableVMValue Leaf :=
  match getBlobRef value with
  | some blob => .sidecarRef id blob.kind blob.hash (sidecarMeta value).1 (sidecarMeta value).2
  | none => value

theorem walk_extractAt {data : List UInt8} (h : takenOut C store value = some data) (st : Extraction) :
    walk (extractAt C store) value st =
      (reference value st.nextId,
        { sidecars := st.sidecars ++ [⟨st.nextId, data⟩], nextId := st.nextId + 1 }) := by
  obtain ⟨blob, hblob, hlarge⟩ := Option.bind_eq_some_iff.mp h
  have hact : extractAt C store value = some <$> (fun st => (reference value st.nextId,
      { sidecars := st.sidecars ++ [⟨st.nextId, data⟩], nextId := st.nextId + 1 }) :
        StateM Extraction _) := by
    funext st
    show _ = (some (reference value st.nextId), _)
    simp [extractAt, reference, tryExtractBlob, hblob, hlarge]
  rw [walk_of_replaced hact]

theorem walk_extractAt_sidecarRef (id : UInt32) (kind : BlobKind) (hash : HashDigest) (metaA metaB : UInt32)
    (st : Extraction) :
    walk (extractAt C store) (.sidecarRef id kind hash metaA metaB : SerializableVMValue Leaf) st =
      (.sidecarRef id kind hash metaA metaB, st) := by
  have hskip : extractAt C store (.sidecarRef id kind hash metaA metaB : SerializableVMValue Leaf) =
      pure none :=
    extractAt_eq_none rfl
  have hwalk : walk (extractAt C store) (.sidecarRef id kind hash metaA metaB : SerializableVMValue Leaf) =
      pure (.sidecarRef id kind hash metaA metaB) := by
    simp [walk, hskip]
  rw [hwalk]
  rfl

def IsSidecarRef : SerializableVMValue Leaf → Prop
  | .sidecarRef .. => True
  | _ => False

/-- What extraction leaves at a place: a `SidecarRef`, the one that was there or one for what was taken. -/
def Left (C : Codec) (store : SnapshotStore) (value left : SerializableVMValue Leaf) : Prop :=
  (IsSidecarRef value ∧ left = value) ∨ ∃ data id, takenOut C store value = some data ∧
    left = reference value id

variable {left : SerializableVMValue Leaf}

theorem Left.isSidecarRef (h : Left C store value left) :
    IsSidecarRef left := by
  rcases h with ⟨h, rfl⟩ | ⟨data, id, hdata, rfl⟩
  · exact h
  · obtain ⟨blob, hblob, -⟩ := Option.bind_eq_some_iff.mp hdata
    simp [reference, hblob, IsSidecarRef]

variable {values lefts : List (SerializableVMValue Leaf)}

theorem Left.all_isSidecarRef (h : List.Forall₂ (Left C store) values lefts) :
    ∀ left ∈ lefts, IsSidecarRef left := by
  induction h with
  | nil => simp
  | cons hhead _ ih =>
    intro left hmem
    rcases List.mem_cons.mp hmem with rfl | hmem
    · exact hhead.isSidecarRef
    · exact ih left hmem

theorem walk_extractAt_left (h : isPlace C store value = true) (st : Extraction) :
    Left C store value (walk (extractAt C store) value st).1 := by
  cases hdata : takenOut C store value with
  | some data =>
    rw [walk_extractAt hdata]
    exact Or.inr ⟨data, st.nextId, hdata, rfl⟩
  | none =>
    cases value with
    | sidecarRef id kind hash metaA metaB =>
      rw [walk_extractAt_sidecarRef]
      exact Or.inl ⟨trivial, rfl⟩
    | _ => simp [isPlace, hdata] at h

theorem mapM_extractAt_left (h : ∀ value ∈ values, isPlace C store value = true) (st : Extraction) :
    List.Forall₂ (Left C store) values (values.mapM (walk (extractAt C store)) st).1 := by
  induction values generalizing st with
  | nil => exact .nil
  | cons value values ih =>
    rw [List.mapM_cons]
    exact .cons (walk_extractAt_left (h value (by simp)) st) (ih (fun v hv => h v (by simp [hv])) _)

/-- With nothing but blobs to take out, the places get the ids one after the other. -/
theorem mapM_extractAt (h : ∀ value ∈ values, (takenOut C store value).isSome) (n : Nat)
    (sidecars : List BlobSidecar) :
    values.mapM (walk (extractAt C store)) { sidecars, nextId := UInt32.ofNat n } =
      ((values.zipIdx n).map fun p => reference p.1 (UInt32.ofNat p.2),
        { sidecars := sidecars ++
            (values.zipIdx n).map fun p => ⟨UInt32.ofNat p.2, (takenOut C store p.1).getD []⟩,
          nextId := UInt32.ofNat (n + values.length) }) := by
  induction values generalizing n sidecars with
  | nil => simp [pure, StateT.pure]
  | cons value values ih =>
    obtain ⟨data, hdata⟩ := Option.isSome_iff_exists.mp (h value (by simp))
    have hnext : UInt32.ofNat n + 1 = UInt32.ofNat (n + 1) := by
      rw [UInt32.ofNat_add]
      rfl
    have hrest := ih (fun v hv => h v (by simp [hv])) (n + 1) (sidecars ++ [⟨UInt32.ofNat n, data⟩])
    rw [List.mapM_cons]
    show (let p := walk (extractAt C store) value { sidecars, nextId := UInt32.ofNat n }
      let q := values.mapM (walk (extractAt C store)) p.2
      (p.1 :: q.1, q.2)) = _
    rw [walk_extractAt hdata]
    simp only [hnext]
    rw [hrest]
    simp [hdata, List.zipIdx_cons, Nat.add_assoc, Nat.add_comm 1]

/-! ### Reassembly, place by place -/

/-- The value that comes back for a `SidecarRef`. -/
def restored (C : Codec) (sidecars : UInt32 → Option BlobSidecar) :
    SerializableVMValue Leaf → Option (SerializableVMValue Leaf)
  | .sidecarRef id kind _ metaA metaB =>
    (sidecars id).map fun sidecar =>
      ofBlob { hash := C.hashBytes (C.serialize (chunkedBlob C sidecar.data)), kind } metaA metaB
  | value => some value

theorem putBlob_fst (store : SnapshotStore) (data : List UInt8) :
    (store.putBlob C data).1 = C.hashBytes data := by
  unfold SnapshotStore.putBlob
  dsimp only
  split <;> rfl

theorem putChunks_fst (store : SnapshotStore) (chunks : List (List UInt8)) :
    (store.putChunks C chunks).1 = chunks.map C.hashBytes := by
  induction chunks generalizing store with
  | nil => rfl
  | cons chunk chunks ih =>
    show (store.putBlob C chunk).1 :: ((store.putBlob C chunk).2.putChunks C chunks).1 = _
    rw [putBlob_fst, ih, List.map_cons]

theorem storeChunkedBytes_fst (store : SnapshotStore) (data : List UInt8) :
    (store.storeChunkedBytes C data).1 = chunkedBlob C data := by
  show ChunkedBlob.mk (store.putChunks C (data.toChunks byteChunkLen)).1 data.length byteChunkLen = _
  rw [putChunks_fst]
  rfl

variable {sidecars : UInt32 → Option BlobSidecar}

/-- Reassembly at a `SidecarRef` fails without its sidecar, and else gives what is restored. -/
theorem walk_reassembleAt (h : IsSidecarRef value) (store : SnapshotStore) :
    (∃ e, restored C sidecars value = none ∧ walk (reassembleAt C sidecars) value store = .error e) ∨
      ∃ result store', restored C sidecars value = some result ∧
        walk (reassembleAt C sidecars) value store = .ok (result, store') := by
  cases value with
  | sidecarRef id kind hash metaA metaB =>
    have hact : reassembleAt C sidecars (.sidecarRef id kind hash metaA metaB : SerializableVMValue Leaf) =
        some <$> (fun store =>
          match sidecars id with
          | none => .error (.missingSidecar id)
          | some sidecar =>
            let put := (store.storeChunkedBytes C sidecar.data).2.putStruct C
              (store.storeChunkedBytes C sidecar.data).1
            .ok (ofBlob { hash := put.1, kind } metaA metaB, put.2) :
          StateT SnapshotStore (Except ReassembleError) _) := by
      funext store
      show _ = (match sidecars id with
        | none => .error (.missingSidecar id)
        | some sidecar => _ : Except ReassembleError _) >>= _
      dsimp only [reassembleAt]
      cases sidecars id with
      | none => rfl
      | some sidecar => rfl
    rw [walk_of_replaced hact]
    cases hsidecar : sidecars id with
    | none => exact Or.inl ⟨_, by simp [restored, hsidecar], rfl⟩
    | some sidecar =>
      refine Or.inr ⟨_, _, ?_, rfl⟩
      have hput : ((store.storeChunkedBytes C sidecar.data).2.putStruct C
          (store.storeChunkedBytes C sidecar.data).1).1 =
          C.hashBytes (C.serialize (chunkedBlob C sidecar.data)) := by
        rw [storeChunkedBytes_fst]
        exact putBlob_fst _ _
      simp [restored, hsidecar, hput]
  | _ => exact absurd h id

/-- Reassembly of a list of `SidecarRef`s gives what is restored for each. -/
theorem mapM_reassembleAt {results : List (SerializableVMValue Leaf)}
    (h : ∀ value ∈ values, IsSidecarRef value) (store : SnapshotStore) :
    (∃ store', values.mapM (walk (reassembleAt C sidecars)) store = .ok (results, store')) ↔
      List.Forall₂ (fun value result => restored C sidecars value = some result) values results := by
  induction values generalizing store results with
  | nil =>
    rw [List.forall₂_nil_left_iff]
    constructor
    · rintro ⟨store', heq⟩
      exact (Prod.mk.inj (Except.ok.inj heq)).1.symm
    · rintro rfl
      exact ⟨store, rfl⟩
  | cons value values ih =>
    have hrest : ∀ v ∈ values, IsSidecarRef v := fun v hv => h v (by simp [hv])
    rw [List.mapM_cons, List.forall₂_cons_left_iff]
    -- one reference, then the others
    show (∃ store', (walk (reassembleAt C sidecars) value store >>= fun p =>
      values.mapM (walk (reassembleAt C sidecars)) p.2 >>= fun q => .ok (p.1 :: q.1, q.2)) = .ok
        (results, store')) ↔ _
    rcases walk_reassembleAt (h value (by simp)) store
      with ⟨e, hnone, herror⟩ | ⟨result, store₁, hsome, hok⟩
    · rw [herror]
      constructor
      · rintro ⟨store', heq⟩
        cases heq
      · rintro ⟨b, u', hb, -⟩
        rw [hnone] at hb
        cases hb
    · rw [hok]
      constructor
      · rintro ⟨store', heq⟩
        obtain ⟨p, hp, heq⟩ := Fallible.bind_eq_ok.mp heq
        obtain rfl := Except.ok.inj hp
        obtain ⟨⟨rs, store₂⟩, hmap, hres⟩ := Fallible.bind_eq_ok.mp heq
        obtain ⟨rfl, rfl⟩ := Prod.mk.inj (Except.ok.inj hres)
        exact ⟨result, rs, hsome, (ih hrest store₁).mp ⟨store₂, hmap⟩, rfl⟩
      · rintro ⟨b, rs, hb, hrs, rfl⟩
        obtain ⟨store₂, hmap⟩ := (ih hrest store₁).mpr hrs
        obtain rfl := Option.some.inj (hsome.symm.trans hb)
        refine ⟨store₂, Fallible.bind_eq_ok.mpr ⟨(result, store₁), rfl, ?_⟩⟩
        exact Fallible.bind_eq_ok.mpr ⟨(rs, store₂), hmap, rfl⟩

/-! ### The two walks together -/

theorem places_eq {args : List (SerializableVMValue Leaf)}
    {plug : List (SerializableVMValue Leaf) → List (SerializableVMValue Leaf)}
    (h : SerializableVMValue.ShapeOf (isPlace C store) (fun _ _ act args => walkAll act args) args
      values plug) :
    places C store args = values := by
  -- an action that changes nothing and notes the places it sees
  let note : SerializableVMValue Leaf → StateM (List (SerializableVMValue Leaf))
      (Option (SerializableVMValue Leaf)) :=
    fun value seen => if isPlace C store value then (some value, seen ++ [value]) else (none, seen)
  have hskips : SerializableVMValue.Skips (isPlace C store) note := by
    intro value hvalue
    funext seen
    show (if isPlace C store value then _ else _) = _
    rw [if_neg (by simp [hvalue])]
    rfl
  have hnote : ∀ vs : List (SerializableVMValue Leaf), (∀ value ∈ vs, isPlace C store value = true) →
      ∀ seen, vs.mapM (walk note) seen = (vs, seen ++ vs) := by
    intro vs hvs
    induction vs with
    | nil => exact fun seen => by simp [pure, StateT.pure]
    | cons value vs ih =>
      intro seen
      have hact : note value = some <$> (fun seen => (value, seen ++ [value]) : StateM _ _) := by
        funext seen
        show (if isPlace C store value then _ else _) = _
        rw [if_pos (hvs value (by simp))]
        rfl
      rw [List.mapM_cons]
      show (let p := walk note value seen
        let q := vs.mapM (walk note) p.2
        (p.1 :: q.1, q.2)) = _
      rw [walk_of_replaced hact]
      simp only [ih (fun v hv => hvs v (by simp [hv]))]
      simp
  have hwalk := h.walked _ note hskips values rfl
  rw [h.plugged] at hwalk
  show (walkAll note args []).2 = values
  rw [hwalk]
  show (values.mapM (walk note) []).2 = values
  rw [hnote values h.stops]
  rfl

theorem toUInt64_toUInt32 (len : UInt64) : len.toUInt32.toUInt64 = len ↔ len.toNat < 2 ^ 32 := by
  rw [← UInt64.toNat_inj, UInt32.toNat_toUInt64, UInt64.toNat_toUInt32]
  have hlt := len.toNat_lt
  omega

/-- The bytes of a sidecar make the value again exactly when it is described and filed under their
digest. -/
theorem restored_reference_iff {blob : BlobRef} (hblob : getBlobRef value = some blob) (id : UInt32) :
    restored C sidecars (reference value id) = some value ↔
      ∃ sidecar, sidecars id = some sidecar ∧ Described value ∧
        blob.hash = C.hashBytes (C.serialize (chunkedBlob C sidecar.data)) := by
  have href : restored C sidecars (reference value id) = (sidecars id).map fun sidecar =>
      ofBlob ⟨C.hashBytes (C.serialize (chunkedBlob C sidecar.data)), blob.kind⟩ (sidecarMeta value).1
        (sidecarMeta value).2 := by
    simp [reference, hblob, restored]
  rw [href, Option.map_eq_some_iff]
  refine exists_congr fun sidecar => and_congr_right fun _ => ?_
  generalize C.hashBytes (C.serialize (chunkedBlob C sidecar.data)) = hash
  obtain ⟨hash', kind⟩ := blob
  cases value with
  | dataTable table =>
    obtain rfl : table = _ := Option.some.inj hblob
    cases kind <;> simp [ofBlob, Described, eq_comm]
  | typedArray elementKind table len =>
    obtain rfl : table = _ := Option.some.inj hblob
    cases kind with
    | typedArray elementKind' =>
      show SerializableVMValue.typedArray elementKind' ⟨hash, .typedArray elementKind'⟩
        len.toUInt32.toUInt64 =
        .typedArray elementKind ⟨hash', .typedArray elementKind'⟩ len ↔
          (BlobKind.typedArray elementKind' = .typedArray elementKind ∧ len.toNat < 2 ^ 32) ∧ hash' = hash
      rw [← toUInt64_toUInt32]
      simp only [SerializableVMValue.typedArray.injEq, BlobRef.mk.injEq, BlobKind.typedArray.injEq,
        and_true]
      exact ⟨fun h => ⟨⟨h.1, h.2.2⟩, h.2.1.symm⟩, fun h => ⟨h.1.1, h.2.symm, h.1.2⟩⟩
    | dataTable | matrix => simp [ofBlob, Described]
  | matrix table rows cols =>
    obtain rfl : table = _ := Option.some.inj hblob
    cases kind <;> simp [ofBlob, sidecarMeta, Described, eq_comm]
  | typedTable | rowView | columnRef | indexedTable => cases kind <;> simp [ofBlob, Described]
  | _ => simp [getBlobRef] at hblob

/-- The sidecars of these places, in their order. -/
def numbered (C : Codec) (store : SnapshotStore) (values : List (SerializableVMValue Leaf)) :
    List BlobSidecar :=
  values.zipIdx.map fun p => ⟨UInt32.ofNat p.2, (takenOut C store p.1).getD []⟩

theorem ofNat_eq_iff (j k : Nat) : UInt32.ofNat j = UInt32.ofNat k ↔ j % 2 ^ 32 = k % 2 ^ 32 := by
  rw [← UInt32.toNat_inj, UInt32.toNat_ofNat', UInt32.toNat_ofNat']

/-- The sidecar that is found for a place is that of a place with the same id. -/
theorem sidecarMap_numbered {k : Nat} (hk : k < values.length) :
    ∃ l value, values[l]? = some value ∧ l % 2 ^ 32 = k % 2 ^ 32 ∧
      sidecarMap (numbered C store values) (UInt32.ofNat k) =
        some ⟨UInt32.ofNat l, (takenOut C store value).getD []⟩ := by
  cases hfind : sidecarMap (numbered C store values) (UInt32.ofNat k) with
  | none =>
    have hmem : (⟨UInt32.ofNat k, (takenOut C store values[k]).getD []⟩ : BlobSidecar) ∈
        (numbered C store values).reverse := by
      refine List.mem_reverse.mpr (List.mem_map.mpr ⟨(values[k], k), ?_, rfl⟩)
      exact List.mem_zipIdx_iff_getElem?.mpr (List.getElem?_eq_getElem hk)
    have hne := List.find?_eq_none.mp hfind _ hmem
    exact absurd (beq_self_eq_true _) hne
  | some sidecar =>
    have hid : sidecar.sidecarId = UInt32.ofNat k := by simpa using List.find?_some hfind
    obtain ⟨⟨value, l⟩, hmem, rfl⟩ :=
      List.mem_map.mp (List.mem_reverse.mp (List.mem_of_find?_eq_some hfind))
    exact ⟨l, value, List.mem_zipIdx_iff_getElem?.mp hmem, (ofNat_eq_iff l k).mp hid, rfl⟩

/-- With nothing but blobs to take out, the places come back exactly when each is restorable and no two that
share an id differ. -/
theorem restored_numbered_iff (hall : ∀ value ∈ values, (takenOut C store value).isSome) :
    (∀ (k : Nat) value, values[k]? = some value →
      restored C (sidecarMap (numbered C store values)) (reference value (UInt32.ofNat k)) = some value) ↔
    (∀ value ∈ values, Restorable C store value) ∧
      ∀ (j k : Nat) value value', values[j]? = some value → values[k]? = some value' →
        j % 2 ^ 32 = k % 2 ^ 32 → takenOut C store value = takenOut C store value' := by
  have htaken : ∀ (k : Nat) value, values[k]? = some value →
      ∃ blob data, getBlobRef value = some blob ∧ largeBlob C store blob = some data ∧
        takenOut C store value = some data := by
    intro k value hk
    obtain ⟨data, hdata⟩ := Option.isSome_iff_exists.mp (hall value (List.mem_of_getElem? hk))
    obtain ⟨blob, hblob, hlarge⟩ := Option.bind_eq_some_iff.mp hdata
    exact ⟨blob, data, hblob, hlarge, hdata⟩
  constructor
  · intro h
    -- the sidecar that is found for a place holds the bytes taken out there
    have hsame : ∀ (k : Nat) value, values[k]? = some value →
        ∃ sidecar, sidecarMap (numbered C store values) (UInt32.ofNat k) = some sidecar ∧
          takenOut C store value = some sidecar.data ∧ Restorable C store value := by
      intro k value hk
      obtain ⟨blob, data, hblob, hlarge, hdata⟩ := htaken k value hk
      obtain ⟨l, value', hl, hmod, hfound⟩ := sidecarMap_numbered (List.getElem?_eq_some_iff.mp hk).1
      obtain ⟨blob', data', hblob', hlarge', hdata'⟩ := htaken l value' hl
      obtain ⟨sidecar, hs, hdescribed, hhash⟩ := (restored_reference_iff hblob _).mp (h k value hk)
      obtain ⟨sidecar', hs', -, hhash'⟩ := (restored_reference_iff hblob' _).mp (h l value' hl)
      rw [(ofNat_eq_iff l k).mpr hmod, hs] at hs'
      obtain rfl := Option.some.inj hs'
      -- both are filed under the digest of the same bytes
      have hblobs : largeBlob C store blob = largeBlob C store blob' := by
        unfold largeBlob
        rw [hhash, hhash']
      obtain rfl : data = data' := Option.some.inj (hlarge.symm.trans (hblobs.trans hlarge'))
      rw [hdata', Option.getD_some] at hfound
      obtain rfl := Option.some.inj (hfound.symm.trans hs)
      exact ⟨_, hs, hdata, blob, data, hblob, hlarge, hdescribed, hhash⟩
    refine ⟨?_, ?_⟩
    · intro value hvalue
      obtain ⟨k, hk⟩ := List.getElem?_of_mem hvalue
      obtain ⟨sidecar, -, -, hrestorable⟩ := hsame k value hk
      exact hrestorable
    · intro j k value value' hj hk hmod
      obtain ⟨sidecar, hfound, heq, -⟩ := hsame j value hj
      obtain ⟨sidecar', hfound', heq', -⟩ := hsame k value' hk
      rw [(ofNat_eq_iff j k).mpr hmod, hfound'] at hfound
      rw [heq, heq', Option.some.inj hfound]
  · rintro ⟨hrestorable, hdistinct⟩ k value hk
    obtain ⟨l, value', hl, hmod, hfound⟩ := sidecarMap_numbered
      (List.getElem?_eq_some_iff.mp hk).1
    obtain ⟨blob, data, hblob, hlarge, hdescribed, hhash⟩ := hrestorable value (List.mem_of_getElem? hk)
    refine (restored_reference_iff hblob _).mpr ⟨_, hfound, hdescribed, ?_⟩
    have hdata : takenOut C store value = some data := Option.bind_eq_some_iff.mpr ⟨blob, hblob, hlarge⟩
    have heq := hdistinct l k value' value hl hk hmod
    rw [heq, hdata, Option.getD_some]
    exact hhash

variable {P : SerializableVMValue Leaf → SerializableVMValue Leaf → Prop}

theorem forall₂_numbered_iff (n : Nat) :
    List.Forall₂ P ((values.zipIdx n).map fun p => reference p.1 (UInt32.ofNat p.2)) values ↔
      ∀ (k : Nat) value, values[k]? = some value → P (reference value (UInt32.ofNat (n + k))) value := by
  induction values generalizing n with
  | nil => simp
  | cons value values ih =>
    rw [List.zipIdx_cons, List.map_cons, List.forall₂_cons, ih]
    constructor
    · rintro ⟨hhead, htail⟩ k v hk
      cases k with
      | zero =>
        obtain rfl := Option.some.inj hk
        exact hhead
      | succ k =>
        rw [show n + (k + 1) = n + 1 + k by omega]
        exact htail k v hk
    · intro h
      refine ⟨h 0 value rfl, fun k v hk => ?_⟩
      rw [show n + 1 + k = n + (k + 1) by omega]
      exact h (k + 1) v hk

theorem forall₂_swap {Q : SerializableVMValue Leaf → SerializableVMValue Leaf → Prop}
    (h : List.Forall₂ P values lefts) (h' : List.Forall₂ Q lefts values) :
    ∀ value ∈ values, ∃ left, P value left ∧ Q left value := by
  induction h with
  | nil => simp
  | cons hhead _ ih =>
    cases h' with
    | cons hhead' htail' =>
      intro value hvalue
      rcases List.mem_cons.mp hvalue with rfl | hvalue
      · exact ⟨_, hhead, hhead'⟩
      · exact ih htail' value hvalue

/-- A reassembly that puts a value back has not found a `SidecarRef` there. -/
theorem Left.takenOut_of_restored (h : Left C store value left)
    (hrestored : restored C sidecars left = some value) :
    (takenOut C store value).isSome := by
  rcases h with ⟨href, rfl⟩ | ⟨data, id, hdata, -⟩
  · exfalso
    cases left with
    | sidecarRef id kind hash metaA metaB =>
      obtain ⟨sidecar, -, heq⟩ := Option.map_eq_some_iff.mp hrestored
      cases kind <;> cases heq
    | _ => exact href
  · rw [hdata, Option.isSome_some]

/-- **The arguments come back as they were exactly when nothing is taken out that cannot be put back.** -/
theorem reassemble_extract_iff (C : Codec) (store receiver : SnapshotStore)
    (args : List (SerializableVMValue Leaf)) :
    (∃ receiver', reassembleSidecars C (sidecarMap (extractSidecars C store args).2)
      (extractSidecars C store args).1 receiver = .ok (args, receiver')) ↔ Lossless C store args := by
  obtain ⟨values, plug, hshape⟩ := SerializableVMValue.hasShapeAll (@isCarrier_of_isPlace C store Leaf) args
  have hplaces := places_eq hshape
  -- what is left at the places, and the sidecars
  obtain ⟨lefts, st, hlefts⟩ : ∃ lefts st,
      values.mapM (walk (extractAt C store)) { sidecars := [], nextId := 0 } = (lefts, st) := ⟨_, _, rfl⟩
  have hleft : List.Forall₂ (Left C store) values lefts := by
    have h := mapM_extractAt_left hshape.stops { sidecars := [], nextId := 0 }
    rwa [hlefts] at h
  have hextract : extractSidecars C store args = (plug lefts, st.sidecars) := by
    have hwalk := hshape.walked _ (extractAt C store) skips_extractAt values rfl
    rw [hshape.plugged] at hwalk
    unfold extractSidecars
    rw [hwalk]
    show (let p := values.mapM (walk (extractAt C store)) { sidecars := [], nextId := 0 }
      (plug p.1, p.2.sidecars)) = _
    rw [hlefts]
  -- reassembly is decided at the places alone
  have hreassemble : (∃ receiver', reassembleSidecars C (sidecarMap st.sidecars) (plug lefts) receiver =
      .ok (args, receiver')) ↔
      List.Forall₂ (fun left value => restored C (sidecarMap st.sidecars) left = some value) lefts
        values := by
    have hrefs := Left.all_isSidecarRef hleft
    have hlength := hleft.length_eq
    have hwalk := hshape.walked _ (reassembleAt C (sidecarMap st.sidecars)) (skips_reassembleAt _) lefts
      hlength.symm
    rw [← mapM_reassembleAt hrefs receiver]
    unfold reassembleSidecars
    rw [hwalk]
    show (∃ receiver', (lefts.mapM (walk (reassembleAt C (sidecarMap st.sidecars))) receiver >>= fun p =>
      .ok (plug p.1, p.2)) = .ok (args, receiver')) ↔ _
    constructor
    · rintro ⟨receiver', heq⟩
      obtain ⟨⟨results, receiver''⟩, hmap, hres⟩ := Fallible.bind_eq_ok.mp heq
      obtain ⟨hplug, rfl⟩ := Prod.mk.inj (Except.ok.inj hres)
      have hresults := ((mapM_reassembleAt hrefs receiver).mp ⟨_, hmap⟩).length_eq
      obtain rfl := hshape.injective results values (hresults.symm.trans hlength.symm) rfl
        (hplug.trans hshape.plugged.symm)
      exact ⟨_, hmap⟩
    · rintro ⟨receiver', hmap⟩
      exact ⟨receiver', Fallible.bind_eq_ok.mpr ⟨(values, receiver'), hmap, by rw [hshape.plugged]⟩⟩
  have hnumbered : (∀ value ∈ values, (takenOut C store value).isSome) →
      lefts = (values.zipIdx.map fun p => reference p.1 (UInt32.ofNat p.2)) ∧
        st.sidecars = numbered C store values := by
    intro hall
    have heq := hlefts.symm.trans (mapM_extractAt hall 0 [])
    obtain ⟨hl, hst⟩ := Prod.mk.inj heq
    exact ⟨hl, by rw [hst]; rfl⟩
  rw [hextract]
  -- a value that came back was taken out; then references and sidecars are numbered alike
  constructor
  · intro h
    have hforall := hreassemble.mp h
    have hall : ∀ value ∈ values, (takenOut C store value).isSome := by
      intro value hvalue
      obtain ⟨left, hl, hr⟩ := forall₂_swap hleft hforall value hvalue
      exact hl.takenOut_of_restored hr
    obtain ⟨hl, hs⟩ := hnumbered hall
    rw [hl, hs, forall₂_numbered_iff] at hforall
    simp only [Nat.zero_add] at hforall
    have hboth := (restored_numbered_iff hall).mp hforall
    exact ⟨hplaces ▸ hboth.1, hplaces ▸ hboth.2⟩
  · intro h
    have hall : ∀ value ∈ values, (takenOut C store value).isSome := by
      intro value hvalue
      obtain ⟨blob, data, hblob, hlarge, -⟩ := h.restorable value (hplaces ▸ hvalue)
      rw [takenOut, hblob, Option.bind_some, hlarge, Option.isSome_some]
    obtain ⟨hl, hs⟩ := hnumbered hall
    refine hreassemble.mpr ?_
    rw [hl, hs, forall₂_numbered_iff]
    simp only [Nat.zero_add]
    exact (restored_numbered_iff hall).mpr ⟨hplaces ▸ h.restorable, hplaces ▸ h.distinct⟩

end Lossless

/-! ### A typed table -/

section TypedTable

variable {C : Codec} {store : SnapshotStore} {Leaf : Type}

open SerializableVMValue (walk walkAll ofBlob)

/-- A blob of 1 MB or more is taken out when its chunks are there. -/
theorem exists_largeBlob {blob : BlobRef} {chunked : ChunkedBlob}
    (hlist : store.getStruct C blob.hash = some chunked) (hthreshold : sidecarThreshold ≤ chunked.totalLen)
    (hchunks : ∀ hash ∈ chunked.chunkHashes, ∃ bytes, store.blobs hash = some bytes) :
    ∃ data, largeBlob C store blob = some data := by
  have hmapM : ∀ hashes : List HashDigest, (∀ hash ∈ hashes, ∃ bytes, store.blobs hash = some bytes) →
      ∃ chunks, hashes.mapM store.blobs = some chunks := by
    intro hashes h
    induction hashes with
    | nil => exact ⟨[], rfl⟩
    | cons hash hashes ih =>
      obtain ⟨bytes, hbytes⟩ := h hash (by simp)
      obtain ⟨chunks, hchunks⟩ := ih fun hash' h' => h hash' (by simp [h'])
      exact ⟨bytes :: chunks, by simp [hbytes, hchunks]⟩
  obtain ⟨chunks, hmap⟩ := hmapM _ hchunks
  have hpos : chunked.totalLen ≠ 0 := by
    have hthreshold' : 1024 * 1024 ≤ chunked.totalLen := hthreshold
    omega
  refine ⟨chunks.flatten.take chunked.totalLen, ?_⟩
  simp [largeBlob, hlist, Nat.not_lt.mpr hthreshold, SnapshotStore.loadChunkedBytes, hpos, hmap]

/-- A typed table that is taken out comes back as a plain one. -/
theorem typedTable_not_restored {blob : BlobRef} {data : List UInt8} {schemaId : UInt64}
    {args : List (SerializableVMValue Leaf)} (hargs : args = [.typedTable schemaId blob])
    (hdata : largeBlob C store blob = some data) (receiver receiver' : SnapshotStore) :
    reassembleSidecars C (sidecarMap (extractSidecars C store args).2)
      (extractSidecars C store args).1 receiver ≠
      .ok (args, receiver') := by
  have hwalk := walk_extractAt (Option.bind_eq_some_iff.mpr ⟨blob, rfl, hdata⟩ :
      takenOut C store (.typedTable schemaId blob : SerializableVMValue Leaf) = some data)
    { sidecars := [], nextId := 0 }
  have hextract : (extractSidecars C store args).1 = [.sidecarRef 0 blob.kind blob.hash 0 0] := by
    unfold extractSidecars
    rw [hargs, SerializableVMValue.walkAll]
    show (let p := walk (extractAt C store) (.typedTable schemaId blob) { sidecars := [], nextId := 0 }
      let q := walkAll (extractAt C store) [] p.2
      (p.1 :: q.1)) = _
    rw [hwalk, SerializableVMValue.walkAll]
    rfl
  rw [hextract]
  generalize sidecarMap (extractSidecars C store args).2 = sidecars
  intro heq
  unfold reassembleSidecars at heq
  rw [SerializableVMValue.walkAll] at heq
  have hbind : (walk (reassembleAt C sidecars) (.sidecarRef 0 blob.kind blob.hash 0 0) receiver >>= fun p =>
      walkAll (reassembleAt C sidecars) [] p.2 >>= fun q => .ok (p.1 :: q.1, q.2)) = .ok
        (args, receiver') := heq
  obtain ⟨⟨result, receiver₁⟩, hresult, hrest⟩ := Fallible.bind_eq_ok.mp hbind
  obtain ⟨⟨results, receiver₂⟩, -, hpair⟩ := Fallible.bind_eq_ok.mp hrest
  obtain ⟨hcons, -⟩ := Prod.mk.inj (Except.ok.inj hpair)
  rw [hargs] at hcons
  obtain ⟨rfl, -⟩ := List.cons.inj hcons
  -- the reference carries no schema, and no carrier of one is built from it
  rcases walk_reassembleAt
    (show IsSidecarRef (.sidecarRef 0 blob.kind blob.hash 0 0 : SerializableVMValue Leaf)
    from trivial) receiver with ⟨e, -, herror⟩ | ⟨result, receiver₃, hsome, hok⟩
  · cases herror.symm.trans hresult
  · obtain ⟨rfl, -⟩ := Prod.mk.inj (Except.ok.inj (hok.symm.trans hresult))
    obtain ⟨sidecar, -, hblob⟩ := Option.map_eq_some_iff.mp hsome
    unfold ofBlob at hblob
    split at hblob <;> cases hblob

end TypedTable

/-- The codec that keeps bytes as their own digest and writes a chunk list as a tally. -/
def tally : Codec where
  hashBytes := id
  serialize chunked :=
    List.replicate (Encodable.encode (chunked.chunkHashes.map (·.map UInt8.toNat), chunked.totalLen,
      chunked.chunkLen)) 0
  deserialize bytes :=
    (Encodable.decode bytes.length : Option (List (List Nat) × Nat × Nat)).map fun p =>
      { chunkHashes := p.1.map (·.map UInt8.ofNat), totalLen := p.2.1, chunkLen := p.2.2 }
  deserialize_serialize := by
    intro chunked
    have hbytes : ∀ hash : HashDigest, (hash.map UInt8.toNat).map UInt8.ofNat = hash := by
      intro hash
      rw [List.map_map]
      exact (List.map_congr_left fun b _ => UInt8.ofNat_toNat).trans (List.map_id hash)
    rw [List.length_replicate, Encodable.encodek, Option.map_some, List.map_map]
    have hhashes : chunked.chunkHashes.map ((·.map UInt8.ofNat) ∘ (·.map UInt8.toNat)) =
        chunked.chunkHashes :=
      (List.map_congr_left fun hash _ => hbytes hash).trans (List.map_id _)
    rw [hhashes]

/-- One chunk of zeros. -/
def zeroChunk : List UInt8 := List.replicate byteChunkLen 0

section ZeroTable

variable (C : Codec)

/-- The chunk list of 1 MB of zeros. -/
def zeroMegabyte : ChunkedBlob where
  chunkHashes := List.replicate 4 (C.hashBytes zeroChunk)
  totalLen := 4 * byteChunkLen
  chunkLen := byteChunkLen

/-- The store with 1 MB of zeros in it. -/
def zeroStore : SnapshotStore where
  blobs hash :=
    if hash = C.hashBytes (C.serialize (zeroMegabyte C)) then some (C.serialize (zeroMegabyte C))
    else if hash = C.hashBytes zeroChunk then some zeroChunk
    else none

/-- The arguments of a call with one typed table, of 1 MB. -/
def typedTableArgs : List (SerializableVMValue Unit) :=
  [.typedTable 7 { hash := C.hashBytes (C.serialize (zeroMegabyte C)), kind := .dataTable }]

theorem typedTableArgs_lost (receiver receiver' : SnapshotStore) :
    reassembleSidecars C (sidecarMap (extractSidecars C (zeroStore C) (typedTableArgs C)).2)
      (extractSidecars C (zeroStore C) (typedTableArgs C)).1 receiver ≠ .ok
        (typedTableArgs C, receiver') := by
  have hlist : (zeroStore C).getStruct C (C.hashBytes (C.serialize (zeroMegabyte C))) = some
      (zeroMegabyte C) := by
    have hblob : (zeroStore C).blobs (C.hashBytes (C.serialize (zeroMegabyte C))) =
        some (C.serialize (zeroMegabyte C)) := if_pos rfl
    rw [SnapshotStore.getStruct, hblob, Option.bind_some, C.deserialize_serialize]
  have hchunks : ∀ hash ∈ (zeroMegabyte C).chunkHashes, ∃ bytes, (zeroStore C).blobs hash = some bytes := by
    intro hash hhash
    obtain rfl : hash = C.hashBytes zeroChunk := List.eq_of_mem_replicate hhash
    by_cases heq : C.hashBytes zeroChunk = C.hashBytes (C.serialize (zeroMegabyte C))
    · exact ⟨_, if_pos heq⟩
    · exact ⟨_, (if_neg heq).trans (if_pos rfl)⟩
  have hthreshold : sidecarThreshold ≤ (zeroMegabyte C).totalLen := by
    show 1024 * 1024 ≤ 4 * (256 * 1024)
    decide
  have hlarge : ∃ data, largeBlob C (zeroStore C) ⟨C.hashBytes (C.serialize (zeroMegabyte C)), .dataTable⟩ =
      some data := exists_largeBlob hlist hthreshold hchunks
  obtain ⟨data, hdata⟩ := hlarge
  exact typedTable_not_restored rfl hdata receiver receiver'

end ZeroTable

/-- A typed table with 1 MB of data is sent as a `SidecarRef` that says nothing of its schema, and what is
put back is not the typed table. -/
theorem typedTableArgs_not_restored :
    ¬ ∃ receiver', reassembleSidecars tally
      (sidecarMap (extractSidecars tally (zeroStore tally) (typedTableArgs tally)).2)
      (extractSidecars tally (zeroStore tally) (typedTableArgs tally)).1 (zeroStore tally) =
        .ok (typedTableArgs tally, receiver') := by
  rintro ⟨receiver', heq⟩
  exact typedTableArgs_lost tally (zeroStore tally) receiver' heq

end ShapeLang.Transport
