import ShapeLang.Bytecode.Identity

/-!
# ShapeLang — what a remote call ships

A remote call (`crates/shape-vm/src/remote.rs`) sends the blob of a function and of everything it can
reach. The sender follows dependencies by hash and the functions behind module bindings by name; the
receiver, who has nothing else, asks for every dependency that did not come, and links the rest.

  * `buildMinimalBlobsByHash` — the blobs that are sent;
  * `receivedProgram` — the program the receiver builds from the request, as it is read back;
  * `missingDependencyBlobs` — what the receiver asks for: any dependency without a blob, the sentinel
    included;
  * `Ships` — the functions a function needs, in terms of the compilation;
  * `remote_closure_iff` — the request is enough exactly when nothing it ships is recursive, and every
    closure's layout can be reconstructed.
-/

namespace ShapeLang.Bytecode

open Relation

variable {κ η : Type}

/-! ## The sender -/

/-- What remote calls read of a compiled program. -/
structure BytecodeProgram (κ η : Type) where
  contentAddressed : Option (Program κ η)
  moduleBindingNames : List String
  /-- The names of the functions, by id. -/
  functions : List String
  functionBlobHashes : List (Option η)
  foreignFunctions : List ForeignFunctionEntry

/-- The module bindings a body reads or writes. -/
def Body.moduleBindings (body : Body κ) : List UInt16 :=
  body.instructions.filterMap fun instr =>
    match instr.operand with
    | some (.moduleBinding idx) => some idx
    | _ => none

/-- The hash of the function behind a module binding; a binding to anything else has none. -/
def BytecodeProgram.bindingTarget (program : BytecodeProgram κ η) (idx : UInt16) : Option η :=
  match program.moduleBindingNames[idx.toNat]? with
  | none => none
  | some bindingName =>
    match program.functions.findIdx? (· = bindingName) with
    | none => none
    | some fnId =>
      match program.functionBlobHashes[fnId]? with
      | some (some targetHash) => some targetHash
      | _ => none

structure RemoteCallRequest (κ η : Type) where
  program : BytecodeProgram κ η
  functionHash : η
  functionBlobs : List (η × Blob κ η)

/-- The program without code. -/
def createStubProgram (program : BytecodeProgram κ η) : BytecodeProgram κ η where
  contentAddressed := program.contentAddressed.map fun ca => { ca with functionStore := [] }
  moduleBindingNames := program.moduleBindingNames
  functions := []
  functionBlobHashes := program.functionBlobHashes
  foreignFunctions := program.foreignFunctions

section Sender

variable [DecidableEq η]

/-- From each blob to its dependencies and to the functions behind its module bindings. -/
def closureEdges (program : BytecodeProgram κ η) (store : FunctionStore (Body κ) η) : List (η × η) :=
  store.flatMap fun e =>
    (e.2.dependencies ++ e.2.body.moduleBindings.filterMap program.bindingTarget).map (e.1, ·)

/-- The transitive closure of the entry. A hash without a blob is followed no further, and not sent. -/
def buildMinimalBlobsByHash (program : BytecodeProgram κ η) (entryHash : η) :
    Option (List (η × Blob κ η)) :=
  match program.contentAddressed with
  | none => none
  | some ca =>
    if (FunctionStore.get ca.functionStore entryHash).isNone then none
    else
      let needed := Worklist.collect (closureEdges program ca.functionStore) (fun _ => false) [entryHash]
      some (needed.filterMap fun hash =>
        (FunctionStore.get ca.functionStore hash).map fun blob => (hash, blob))

/-- The request for a function, when its blobs can be sent. -/
def buildCallRequest (program : BytecodeProgram κ η) (functionHash : η) :
    Option (RemoteCallRequest κ η) :=
  (buildMinimalBlobsByHash program functionHash).map fun blobs =>
    ⟨createStubProgram program, functionHash, blobs⟩

/-! ## The receiver -/

/-- The request as it is read back. -/
def RemoteCallRequest.transferred (request : RemoteCallRequest κ η) : RemoteCallRequest κ η where
  program := { request.program with
    contentAddressed := request.program.contentAddressed.map Program.transferred }
  functionHash := request.functionHash
  functionBlobs := request.functionBlobs.map fun e => (e.1, e.2.transferred)

/-- A hash map from a list; a later entry with a key wins. -/
def FunctionStore.ofList {β : Type} (entries : List (η × FunctionBlob β η)) : FunctionStore β η :=
  entries.foldl (fun store e => FunctionStore.insert store e.1 e.2) []

def programFromBlobsByHash (blobs : List (η × Blob κ η)) (entryHash : η)
    (source : BytecodeProgram κ η) : Option (Program κ η) :=
  let functionStore := FunctionStore.ofList blobs
  if (FunctionStore.get functionStore entryHash).isNone then none
  else
    some
      { entry := entryHash
        functionStore := functionStore
        foreignFunctions := source.foreignFunctions
        closureFunctionLayoutsByName :=
          match source.contentAddressed with
          | some ca => ca.closureFunctionLayoutsByName
          | none => fun _ => none }

def receivedProgram (request : RemoteCallRequest κ η) : Option (Program κ η) :=
  programFromBlobsByHash request.functionBlobs request.functionHash request.program

/-- The dependencies that are not in the store, each once. -/
def missingDependencyBlobs (ca : Program κ η) : List η :=
  (ca.functionStore.flatMap fun e => e.2.dependencies).foldl (fun missing dep =>
    if (FunctionStore.get ca.functionStore dep).isNone ∧ dep ∉ missing then missing ++ [dep]
    else missing) []

theorem foldl_missing_eq_nil {P : η → Prop} [DecidablePred P] (deps missing : List η) :
    deps.foldl (fun missing dep => if P dep ∧ dep ∉ missing then missing ++ [dep] else missing)
      missing = [] ↔ missing = [] ∧ ∀ dep ∈ deps, ¬ P dep := by
  induction deps generalizing missing with
  | nil => simp
  | cons dep deps ih =>
    rw [List.foldl_cons, ih]
    by_cases hP : P dep
    · constructor
      · rintro ⟨hnil, -⟩
        by_cases hmem : dep ∈ missing
        · rw [if_neg (by simp [hmem])] at hnil
          exact absurd (hnil ▸ hmem) List.not_mem_nil
        · rw [if_pos ⟨hP, hmem⟩] at hnil
          simp at hnil
      · rintro ⟨-, hall⟩
        exact absurd hP (hall dep List.mem_cons_self)
    · rw [if_neg fun h => hP h.1]
      simp [hP]

/-- Nothing is missing when every dependency has its blob. -/
theorem missingDependencyBlobs_eq_nil {ca : Program κ η} :
    missingDependencyBlobs ca = [] ↔ ∀ e ∈ ca.functionStore, ∀ d ∈ e.2.dependencies,
      (FunctionStore.get ca.functionStore d).isSome := by
  unfold missingDependencyBlobs
  rw [foldl_missing_eq_nil (P := fun dep => (FunctionStore.get ca.functionStore dep).isNone = true)]
  constructor
  · rintro ⟨-, hall⟩ e he d hd
    have hd' := hall d (List.mem_flatMap.mpr ⟨e, he, hd⟩)
    cases hget : FunctionStore.get ca.functionStore d with
    | none => simp [hget] at hd'
    | some b => rfl
  · intro hall
    refine ⟨rfl, fun d hd => ?_⟩
    obtain ⟨e, he, hd⟩ := List.mem_flatMap.mp hd
    obtain ⟨b, hb⟩ := Option.isSome_iff_exists.mp (hall e he d hd)
    simp [hb]

end Sender

/-! ## What a function needs -/

/-- `n` has a module binding to the function `m`. -/
def Binds (unit : Compilation (Body κ)) (program : BytecodeProgram κ η) (n m : String) : Prop :=
  m ∈ unit.names ∧ ∃ x ∈ unit.builders, x.name = n ∧ ∃ idx ∈ x.body.moduleBindings,
    program.moduleBindingNames[idx.toNat]? = some m ∧ m ∈ program.functions

/-- `n` calls `m`, or has a module binding to it. -/
def Ships (unit : Compilation (Body κ)) (program : BytecodeProgram κ η) (n m : String) : Prop :=
  Calls unit n m ∨ Binds unit program n m

/-- Nothing `f` needs is recursive or on a call cycle, and every closure's layout can be
reconstructed. -/
def Shippable (unit : Compilation (Body κ)) (program : BytecodeProgram κ η) (f : String) : Prop :=
  ∀ x ∈ unit.builders, ReflTransGen (Ships unit program) f x.name →
    (∀ callee ∈ x.calledFunctions, PlainCall unit x.name callee) ∧
      (x.body.isClosure = true → ∃ layout, reconstructTransferredClosureLayout x.body = .ok layout)

section Remote

variable [DecidableEq η]

/-- A compiled program, its content-addressed form and its own linked form. The hashes by function id
are those of the names, and every function operand refers to a callee of its function. -/
structure Sender (H : Sha256 (Body κ) η) (unit : Compilation (Body κ))
    (program : BytecodeProgram κ η) (ca : Program κ η) (lp : LinkedProgram κ η) : Prop where
  contentAddressed : program.contentAddressed = some ca
  produced : Produced H unit ca lp
  hashes : program.functionBlobHashes
    = program.functions.map (buildContentAddressedProgram H unit).blobNameToHash
  foreignFunctions : program.foreignFunctions = ca.foreignFunctions
  inRange : ∀ x ∈ unit.builders, ReferencesInRange x

/-- The request for `f` is enough for a receiver with nothing in its cache. -/
def ClosureSufficient (H : Sha256 (Body κ) η) (unit : Compilation (Body κ))
    (program : BytecodeProgram κ η) (lp : LinkedProgram κ η) (f : String) : Prop :=
  ∀ entryHash, (buildContentAddressedProgram H unit).blobNameToHash f = some entryHash →
    ∃ request, buildCallRequest program entryHash = some request ∧
      ∃ received, receivedProgram request.transferred = some received ∧
        missingDependencyBlobs received = [] ∧ ∃ lq, link H.zero received = .ok lq ∧
          ∀ n, ReflTransGen (Ships unit program) f n → ∃ g ∈ lq.functions, g.name = n ∧
            ∀ g' ∈ lp.functions, g'.name = n → g'.blobHash = g.blobHash ∧
              ∀ k, lq.calleeHash g k = lp.calleeHash g' k

variable {H : Sha256 (Body κ) η} {unit : Compilation (Body κ)} {program : BytecodeProgram κ η}
  {ca : Program κ η} {lp : LinkedProgram κ η}

/-! ## The closure -/

variable {hash : η}

theorem Sender.bindingTarget_eq_some (h : Sender H unit program ca lp) {idx : UInt16} :
    program.bindingTarget idx = some hash ↔ ∃ m, program.moduleBindingNames[idx.toNat]? = some m ∧
      m ∈ program.functions ∧ (buildContentAddressedProgram H unit).blobNameToHash m = some hash := by
  unfold BytecodeProgram.bindingTarget
  cases program.moduleBindingNames[idx.toNat]? with
  | none => simp
  | some m =>
    simp only [Option.some.injEq, exists_eq_left']
    -- the index of the first function with the binding's name selects its hash
    cases hfind : program.functions.findIdx? (· = m) with
    | none =>
      have hnot : m ∉ program.functions := by
        intro hm
        have hall := List.findIdx?_eq_none_iff.mp hfind m hm
        simp at hall
      simp [hnot]
    | some i =>
      obtain ⟨hi, hm, -⟩ := List.findIdx?_eq_some_iff_getElem.mp hfind
      have hmem : m ∈ program.functions := (of_decide_eq_true hm) ▸ List.getElem_mem hi
      have hat : program.functionBlobHashes[i]?
          = some ((buildContentAddressedProgram H unit).blobNameToHash m) := by
        rw [h.hashes, List.getElem?_map, List.getElem?_eq_getElem hi, of_decide_eq_true hm]
        rfl
      simp only [hat, hmem, true_and]
      cases (buildContentAddressedProgram H unit).blobNameToHash m with
      | none => simp
      | some hash' => simp

/-- The hashes the sender collects. -/
def neededHashes (program : BytecodeProgram κ η) (ca : Program κ η) (entryHash : η) : List η :=
  Worklist.collect (closureEdges program ca.functionStore) (fun _ => false) [entryHash]

variable {entryHash : η}

theorem mem_neededHashes : hash ∈ neededHashes program ca entryHash ↔
    ReflTransGen (fun a b => (a, b) ∈ closureEdges program ca.functionStore) entryHash hash := by
  unfold neededHashes
  rw [Worklist.mem_collect_iff]
  simp

omit [DecidableEq η] in
theorem mem_closureEdges {store : FunctionStore (Body κ) η} {a b : η} :
    (a, b) ∈ closureEdges program store ↔ ∃ blob, (a, blob) ∈ store ∧ (b ∈ blob.dependencies ∨
      ∃ idx ∈ blob.body.moduleBindings, program.bindingTarget idx = some b) := by
  unfold closureEdges
  simp only [List.mem_flatMap, List.mem_map, List.mem_append, List.mem_filterMap, Prod.mk.injEq]
  constructor
  · rintro ⟨e, he, c, hc, rfl, rfl⟩
    exact ⟨e.2, he, hc⟩
  · rintro ⟨blob, hblob, hb⟩
    exact ⟨(a, blob), hblob, b, hb, rfl, rfl⟩

variable {b : Blob κ η} {f : String}

/-- A blob among the collected hashes is of a function that is needed. -/
theorem Sender.ships_of_needed (h : Sender H unit program ca lp)
    (hentry : (buildContentAddressedProgram H unit).blobNameToHash f = some entryHash)
    (hneeded : hash ∈ neededHashes program ca entryHash) (hb : (hash, b) ∈ ca.functionStore) :
    ReflTransGen (Ships unit program) f b.name := by
  have hlinked := build_linked H unit
  have hstore := h.produced.store
  rw [mem_neededHashes] at hneeded
  induction hneeded generalizing b with
  | refl =>
    rw [hstore] at hb
    obtain ⟨c, hc, hcn⟩ := hlinked.coherent.registered f _ hentry
    have heq := List.inj_on_of_nodup_map hlinked.coherent.keys_nodup hb hc rfl
    obtain rfl : b = c := congrArg Prod.snd heq
    rw [hcn]
  | @tail a hash _ hedge ih =>
    obtain ⟨c, hc, hcases⟩ := mem_closureEdges.mp hedge
    refine (ih hc).tail ?_
    rw [hstore] at hb hc
    obtain ⟨hcb, -⟩ := hlinked.coherent.mem_iff.mp hc
    obtain ⟨hbb, hkey⟩ := hlinked.coherent.mem_iff.mp hb
    have hbn : b.name ∈ unit.names := (hlinked.isSome_iff _).mp (by rw [hbb]; rfl)
    obtain ⟨x, hx, hxn, hbody, hcallees⟩ := build_fromBuilder H unit _ c hcb
    rcases hcases with hdep | ⟨idx, hidx, htarget⟩
    · -- a dependency that is there was made for the function it leads to
      obtain ⟨i, hi⟩ := List.mem_iff_getElem?.mp hdep
      obtain ⟨callee, hcallee, rfl⟩ := (hlinked.ok _ c hcb).callee_of_digest hi
        (hkey.trans (hlinked.coherent.blob?_finalized hbb).1)
      exact Or.inl ⟨x, hx, hxn, hcallees ▸ List.mem_of_getElem? hcallee, hbn⟩
    · obtain ⟨m, hm, hfun, hhash⟩ := h.bindingTarget_eq_some.mp htarget
      obtain ⟨b', hb', hb'n⟩ := hlinked.coherent.registered m _ hhash
      have heq := List.inj_on_of_nodup_map hlinked.coherent.keys_nodup hb hb' rfl
      obtain rfl : b = b' := congrArg Prod.snd heq
      subst hb'n
      exact Or.inr ⟨hbn, x, hx, hxn, idx, hbody ▸ hidx, hm, hfun⟩

variable {n : String}

/-- Without sentinels along the way, every needed function is collected. -/
theorem Sender.needed_of_ships (h : Sender H unit program ca lp)
    (hentry : (buildContentAddressedProgram H unit).blobNameToHash f = some entryHash)
    (hzero : ∀ hash ∈ neededHashes program ca entryHash, ∀ b, (hash, b) ∈ ca.functionStore →
      H.zero ∉ b.dependencies)
    (hn : ReflTransGen (Ships unit program) f n) :
    ∃ b, (buildContentAddressedProgram H unit).blob? n = some b ∧
      b.contentHash ∈ neededHashes program ca entryHash := by
  have ht := build_tracks H unit
  have hlinked := ht.linked
  obtain ⟨blobs, hlay⟩ := h.produced.exists_layout
  induction hn with
  | refl =>
    rw [hlinked.coherent.blobNameToHash_eq] at hentry
    obtain ⟨b, hb, rfl⟩ := Option.map_eq_some_iff.mp hentry
    exact ⟨b, hb, mem_neededHashes.mpr .refl⟩
  | @tail a n _ hship ih =>
    obtain ⟨c, hc, hcneeded⟩ := ih
    -- what is needed and has a blob is expanded: its callees, then the bindings it reads
    have hcmem : (c.contentHash, c) ∈ ca.functionStore := by
      rw [h.produced.store]
      exact (hlinked.coherent.blob?_eq_some.mp hc).1
    obtain ⟨x, hx, hxn, hbody, hcallees⟩ := build_fromBuilder H unit _ c hc
    rcases hship with hcall | ⟨hnn, y, hy, hyn, idx, hidx, hname, hfun⟩
    -- a call: the pointer of the callee is its hash, since a needed blob has no sentinel
    · obtain ⟨y, hy, hyn, hmem, hnn⟩ := hcall
      obtain rfl : y = x := unit.builder_unique hy hx (hyn.trans hxn.symm)
      obtain ⟨i, hi⟩ := List.mem_iff_getElem?.mp (hcallees ▸ hmem)
      have hlt := (List.getElem?_eq_some_iff.mp hi).1
      rw [← (hlinked.ok _ c hc).aligned] at hlt
      have hd := List.getElem?_eq_getElem hlt
      rcases ht.pointer_cases (compileBlobs_linked H unit).mem_mutualEdges hlay.hashesSettle hc hi hd
        with ⟨-, b, hb, hdb⟩ | ⟨-, hz⟩
      · refine ⟨b, hb, mem_neededHashes.mpr ((mem_neededHashes.mp hcneeded).tail ?_)⟩
        refine mem_closureEdges.mpr ⟨c, hcmem, Or.inl ?_⟩
        rw [← hdb]
        exact List.getElem_mem hlt
      · exact absurd (hz ▸ List.getElem_mem hlt) (hzero _ hcneeded c hcmem)
    -- a binding that names a function
    · obtain rfl : y = x := unit.builder_unique hy hx (hyn.trans hxn.symm)
      obtain ⟨b, hb⟩ := hlinked.exists_blob hnn
      refine ⟨b, hb, mem_neededHashes.mpr ((mem_neededHashes.mp hcneeded).tail ?_)⟩
      refine mem_closureEdges.mpr ⟨c, hcmem, Or.inr ⟨idx, hbody ▸ hidx, ?_⟩⟩
      refine h.bindingTarget_eq_some.mpr ⟨n, hname, hfun, ?_⟩
      rw [hlinked.coherent.blobNameToHash_eq, hb]
      rfl

/-! ## The received program -/

theorem FunctionStore.ofList_eq {β : Type} {entries : List (η × FunctionBlob β η)}
    (hnd : (entries.map Prod.fst).Nodup) : FunctionStore.ofList entries = entries.reverse := by
  have hrun : ∀ (entries store : List (η × FunctionBlob β η)),
      ((entries ++ store).map Prod.fst).Nodup →
      entries.foldl (fun s e => FunctionStore.insert s e.1 e.2) store = entries.reverse ++ store := by
    intro entries
    induction entries with
    | nil => exact fun store _ => rfl
    | cons e entries ih =>
      intro store hnd
      rw [List.cons_append, List.map_cons, List.nodup_cons, List.map_append, List.mem_append,
        not_or] at hnd
      -- the key is new, so inserting it removes nothing
      have hremove : FunctionStore.remove store e.1 = store := by
        refine List.filter_eq_self.mpr fun e' he' => decide_eq_true fun heq => ?_
        exact hnd.1.2 (List.mem_map.mpr ⟨e', he', heq⟩)
      have hinsert : FunctionStore.insert store e.1 e.2 = e :: store := by
        rw [FunctionStore.insert, hremove]
      rw [List.foldl_cons, hinsert, ih, List.reverse_cons, List.append_assoc]
      · rfl
      · rw [List.map_append, List.map_cons]
        exact List.perm_middle.symm.nodup_iff.mp (List.nodup_cons.mpr
          ⟨by rw [List.mem_append, not_or]; exact hnd.1, hnd.2⟩)
  rw [FunctionStore.ofList, hrun entries [] (by rwa [List.append_nil]), List.append_nil]

/-- What the receiver has. -/
structure Received (ca : Program κ η) (needed : List η) (entryHash : η) (received : Program κ η) :
    Prop where
  entry : received.entry = entryHash
  foreignFunctions : received.foreignFunctions = ca.foreignFunctions
  layouts : ∀ n, received.closureFunctionLayoutsByName n = none
  keyed : WellKeyed received.functionStore
  mem_iff : ∀ hash b, (hash, b) ∈ received.functionStore ↔
    hash ∈ needed ∧ ∃ c, (hash, c) ∈ ca.functionStore ∧ b = c.transferred

/-- The blobs that are sent, as they are read back. -/
def readBack (program : BytecodeProgram κ η) (ca : Program κ η) (entryHash : η) :
    List (η × Blob κ η) :=
  ((neededHashes program ca entryHash).filterMap fun hash =>
    (FunctionStore.get ca.functionStore hash).map fun blob => (hash, blob)).map fun e =>
      (e.1, e.2.transferred)

theorem mem_readBack (hkeyed : WellKeyed ca.functionStore) :
    (hash, b) ∈ readBack program ca entryHash ↔ hash ∈ neededHashes program ca entryHash ∧
      ∃ c, (hash, c) ∈ ca.functionStore ∧ b = c.transferred := by
  constructor
  · intro hmem
    obtain ⟨e, he, heq⟩ := List.mem_map.mp hmem
    obtain ⟨hash', hneeded, hsome⟩ := List.mem_filterMap.mp he
    obtain ⟨c, hc, rfl⟩ := Option.map_eq_some_iff.mp hsome
    obtain ⟨rfl, rfl⟩ := Prod.mk.injEq .. ▸ heq
    exact ⟨hneeded, c, (FunctionStore.get_eq_some hkeyed.keys_nodup).mp hc, rfl⟩
  · rintro ⟨hneeded, c, hc, rfl⟩
    refine List.mem_map.mpr ⟨(hash, c), List.mem_filterMap.mpr ⟨hash, hneeded, ?_⟩, rfl⟩
    rw [(FunctionStore.get_eq_some hkeyed.keys_nodup).mpr hc]
    rfl

theorem readBack_keys_nodup (program : BytecodeProgram κ η) (ca : Program κ η) (entryHash : η) :
    ((readBack program ca entryHash).map Prod.fst).Nodup := by
  have hkeys : (readBack program ca entryHash).map Prod.fst
      = (neededHashes program ca entryHash).filter fun hash =>
        (FunctionStore.get ca.functionStore hash).isSome := by
    unfold readBack
    rw [List.map_map, List.map_filterMap, ← List.filterMap_eq_filter]
    refine List.filterMap_congr fun hash _ => ?_
    cases hget : FunctionStore.get ca.functionStore hash with
    | none => simp [Option.guard, hget]
    | some c => simp [Option.guard, hget]
  rw [hkeys]
  exact (Worklist.collect_nodup _ _ _).filter _

theorem readBack_wellKeyed (program : BytecodeProgram κ η) (hkeyed : WellKeyed ca.functionStore)
    (entryHash : η) :
    WellKeyed (FunctionStore.ofList (readBack program ca entryHash)) := by
  have hkeys := readBack_keys_nodup program ca entryHash
  rw [FunctionStore.ofList_eq hkeys]
  have hnd : ((readBack program ca entryHash).reverse.map Prod.fst).Nodup := by
    rw [List.map_reverse]
    exact List.nodup_reverse.mpr hkeys
  have hsource : ∀ e ∈ (readBack program ca entryHash).reverse, ∃ c, (e.1, c) ∈ ca.functionStore ∧
      e.2 = c.transferred := fun e he => ((mem_readBack hkeyed).mp (List.mem_reverse.mp he)).2
  refine ⟨hnd, fun e he => ?_, List.Nodup.map_on (fun e he e' he' hname => ?_)
    (List.Nodup.of_map _ hnd)⟩
  · obtain ⟨c, hc, hec⟩ := hsource e he
    rw [hec]
    exact hkeyed.keyed _ hc
  · obtain ⟨c, hc, hec⟩ := hsource e he
    obtain ⟨c', hc', hec'⟩ := hsource e' he'
    rw [hec, hec'] at hname
    obtain ⟨hkey, rfl⟩ := Prod.mk.injEq .. ▸ List.inj_on_of_nodup_map hkeyed.names_nodup hc hc' hname
    exact Prod.ext hkey (hec.trans hec'.symm)

theorem Sender.wellKeyed (h : Sender H unit program ca lp) : WellKeyed ca.functionStore := by
  rw [h.produced.store]
  exact (build_linked H unit).coherent.wellKeyed

theorem Sender.exists_received (h : Sender H unit program ca lp)
    (hentry : (buildContentAddressedProgram H unit).blobNameToHash f = some entryHash) :
    ∃ request received, buildCallRequest program entryHash = some request ∧
      receivedProgram request.transferred = some received ∧
      Received ca (neededHashes program ca entryHash) entryHash received := by
  have hkeyed := h.wellKeyed
  have hwell := readBack_wellKeyed program hkeyed entryHash
  -- the receiver's store: the needed blobs, as they come off the wire
  have hmem : ∀ hash b, (hash, b) ∈ FunctionStore.ofList (readBack program ca entryHash) ↔
      hash ∈ neededHashes program ca entryHash ∧ ∃ c, (hash, c) ∈ ca.functionStore ∧
        b = c.transferred := by
    intro hash b
    rw [FunctionStore.ofList_eq (readBack_keys_nodup program ca entryHash), List.mem_reverse]
    exact mem_readBack hkeyed
  -- the entry is stored, so neither the request nor the receiver's lookup fails
  obtain ⟨b, hb, -⟩ := (build_linked H unit).coherent.registered f _ hentry
  rw [← h.produced.store] at hb
  have hsent := (FunctionStore.get_eq_some hkeyed.keys_nodup).mpr hb
  have hgot := (FunctionStore.get_eq_some hwell.keys_nodup).mpr
    ((hmem entryHash b.transferred).mpr ⟨mem_neededHashes.mpr .refl, b, hb, rfl⟩)
  refine ⟨⟨createStubProgram program, entryHash, (neededHashes program ca entryHash).filterMap
      fun hash => (FunctionStore.get ca.functionStore hash).map fun blob => (hash, blob)⟩,
    ⟨entryHash, FunctionStore.ofList (readBack program ca entryHash), program.foreignFunctions,
      fun _ => none⟩, ?_, ?_, ⟨rfl, h.foreignFunctions, fun _ => rfl, hwell, hmem⟩⟩
  · unfold buildCallRequest buildMinimalBlobsByHash
    simp only [h.contentAddressed, hsent]
    rfl
  · unfold readBack at hgot
    simp only [receivedProgram, RemoteCallRequest.transferred, createStubProgram,
      programFromBlobsByHash, hgot, h.contentAddressed]
    rfl

/-! ## What is missing -/

/-- No collected blob has the sentinel among its dependencies. -/
def NoSentinel (zero : η) (ca : Program κ η) (needed : List η) : Prop :=
  ∀ hash ∈ needed, ∀ b, (hash, b) ∈ ca.functionStore → zero ∉ b.dependencies

/-- What a collected blob depends on is collected as well, and has a blob. -/
theorem Sender.dependency_needed (h : Sender H unit program ca lp)
    (hzero : NoSentinel H.zero ca (neededHashes program ca entryHash)) {d : η} {c : Blob κ η}
    (hneeded : hash ∈ neededHashes program ca entryHash) (hc : (hash, c) ∈ ca.functionStore)
    (hd : d ∈ c.dependencies) :
    d ∈ neededHashes program ca entryHash ∧ ∃ c', (d, c') ∈ ca.functionStore := by
  obtain ⟨blobs, hlay⟩ := h.produced.exists_layout
  have hne : d ≠ H.zero := fun heq => hzero hash hneeded c hc (heq ▸ hd)
  have hcb : c ∈ blobs := by
    rw [hlay.sorted.mem_iff, ← h.produced.store, ← h.wellKeyed.keyed _ hc]
    exact hc
  obtain ⟨c', hc', rfl, -⟩ := hlay.sorted.dependency c hcb d hd hne
  have hc'mem := (hlay.sorted.mem_iff c').mp hc'
  rw [← h.produced.store] at hc'mem
  exact ⟨mem_neededHashes.mpr ((mem_neededHashes.mp hneeded).tail
    (mem_closureEdges.mpr ⟨c, hc, Or.inl hd⟩)), c', hc'mem⟩

variable {received : Program κ η}

/-- The receiver misses nothing unless it takes a sentinel for a hash. -/
theorem Sender.missing_iff (h : Sender H unit program ca lp)
    (hr : Received ca (neededHashes program ca entryHash) entryHash received) :
    missingDependencyBlobs received = [] ↔
      NoSentinel H.zero ca (neededHashes program ca entryHash) := by
  have hcoh := (build_linked H unit).coherent
  rw [missingDependencyBlobs_eq_nil]
  constructor
  · intro hall hash hneeded b hb hz
    have hsome := hall _ ((hr.mem_iff hash b.transferred).mpr ⟨hneeded, b, hb, rfl⟩) H.zero hz
    obtain ⟨b', hb'⟩ := Option.isSome_iff_exists.mp hsome
    obtain ⟨-, c, hc, -⟩ := (hr.mem_iff H.zero b').mp
      ((FunctionStore.get_eq_some hr.keyed.keys_nodup).mp hb')
    rw [h.produced.store] at hc
    exact H.digest_ne_zero _ ((hcoh.finalized _ hc).symm.trans (hcoh.keyed _ hc).symm)
  · intro hzero e he d hd
    obtain ⟨hneeded, c, hc, hec⟩ := (hr.mem_iff e.1 e.2).mp he
    replace hd : d ∈ c.dependencies := by
      rw [hec] at hd
      exact hd
    obtain ⟨hneeded', c', hc'⟩ := h.dependency_needed hzero hneeded hc hd
    rw [(FunctionStore.get_eq_some hr.keyed.keys_nodup).mpr
      ((hr.mem_iff _ _).mpr ⟨hneeded', c', hc', rfl⟩)]
    rfl

/-! ## The receiver links -/

/-- A dependency other than the sentinel leads to a function below, along a plain call. -/
theorem Sender.plainCall_of_dependency (h : Sender H unit program ca lp) {c c' : Blob κ η}
    (hc : (buildContentAddressedProgram H unit).blob? c.name = some c)
    (hc' : (buildContentAddressedProgram H unit).blob? c'.name = some c')
    (hd : c'.contentHash ∈ c.dependencies) : PlainCall unit c.name c'.name := by
  have ht := build_tracks H unit
  obtain ⟨blobs, hlay⟩ := h.produced.exists_layout
  have hfin := (ht.linked.coherent.blob?_finalized hc').1
  obtain ⟨i, hi⟩ := List.mem_iff_getElem?.mp hd
  obtain ⟨callee, hcallee, rfl⟩ := (ht.linked.ok _ c hc).callee_of_digest hi hfin
  rcases ht.pointer_cases (compileBlobs_linked H unit).mem_mutualEdges hlay.hashesSettle hc hcallee hi
    with ⟨hcall, -⟩ | ⟨-, hz⟩
  · exact hcall
  · exact absurd (hfin.symm.trans hz) (H.digest_ne_zero _)

omit [DecidableEq η] in
theorem ships_of_plainCalls {m : String} (h : TransGen (PlainCall unit) n m) :
    ReflTransGen (Ships unit program) n m :=
  ReflTransGen.mono (fun _ _ hcall => Or.inl hcall.1) _ _ h.to_reflTransGen

/-- There are no more functions below a received one than there are received ones. -/
theorem Sender.plainRank_le (h : Sender H unit program ca lp)
    (hentry : (buildContentAddressedProgram H unit).blobNameToHash f = some entryHash)
    (hr : Received ca (neededHashes program ca entryHash) entryHash received)
    (hzero : NoSentinel H.zero ca (neededHashes program ca entryHash))
    (hn : ReflTransGen (Ships unit program) f n) :
    plainRank unit n ≤ received.functionStore.length := by
  classical
  have hlinked := build_linked H unit
  -- every function below is shipped, so it has a blob at the receiver
  have hblob : ∀ m, TransGen (PlainCall unit) n m → ∃ b,
      (buildContentAddressedProgram H unit).blob? m = some b ∧
        b.contentHash ∈ received.functionStore.map Prod.fst := by
    intro m hm
    obtain ⟨b, hb, hneeded⟩ := h.needed_of_ships hentry hzero (hn.trans (ships_of_plainCalls hm))
    have hmem := (hlinked.coherent.blob?_eq_some.mp hb).1
    rw [← h.produced.store] at hmem
    exact ⟨b, hb, List.mem_map.mpr ⟨_, (hr.mem_iff _ _).mpr ⟨hneeded, b, hmem, rfl⟩, rfl⟩⟩
  -- hashes bind names: different functions below have different keys in the store
  have hcard : plainRank unit n ≤ (received.functionStore.map Prod.fst).toFinset.card := by
    refine Finset.card_le_card_of_injOn (fun m =>
      ((buildContentAddressedProgram H unit).blobNameToHash m).getD H.zero) (fun m hm => ?_)
      (fun m hm m' hm' heq => ?_)
    · obtain ⟨b, hb, hin⟩ := hblob m (Finset.mem_filter.mp hm).2
      simp only [hlinked.coherent.blobNameToHash_eq, hb]
      exact List.mem_toFinset.mpr hin
    · obtain ⟨b, hb, -⟩ := hblob m (Finset.mem_filter.mp hm).2
      obtain ⟨b', hb', -⟩ := hblob m' (Finset.mem_filter.mp hm').2
      simp only [hlinked.coherent.blobNameToHash_eq, hb, hb', Option.map_some, Option.getD_some] at heq
      obtain ⟨hfin, rfl⟩ := hlinked.coherent.blob?_finalized hb
      obtain ⟨hfin', rfl⟩ := hlinked.coherent.blob?_finalized hb'
      exact FunctionBlob.name_eq hfin hfin' heq
  calc plainRank unit n
      ≤ (received.functionStore.map Prod.fst).toFinset.card := hcard
    _ ≤ (received.functionStore.map Prod.fst).length := List.toFinset_card_le _
    _ = received.functionStore.length := List.length_map ..

theorem Sender.exists_sorted (h : Sender H unit program ca lp)
    (hentry : (buildContentAddressedProgram H unit).blobNameToHash f = some entryHash)
    (hr : Received ca (neededHashes program ca entryHash) entryHash received)
    (hzero : NoSentinel H.zero ca (neededHashes program ca entryHash)) :
    ∃ blobs, sortedBlobs H.zero received = .ok blobs := by
  have hlinked := build_linked H unit
  have hpresent := missingDependencyBlobs_eq_nil.mp ((h.missing_iff hr).mpr hzero)
  -- a hash has the rank of its function
  let rank : η → Nat := fun hash =>
    ((FunctionStore.get (buildContentAddressedProgram H unit).functionStore hash).map fun b =>
      plainRank unit b.name).getD 0
  have hrank : ∀ {hash b}, (hash, b) ∈ received.functionStore → ∃ c,
      (buildContentAddressedProgram H unit).blob? c.name = some c ∧ b = c.transferred ∧
        hash = c.contentHash ∧ rank hash = plainRank unit c.name ∧
          ReflTransGen (Ships unit program) f c.name := by
    intro hash b hb
    obtain ⟨hneeded, c, hc, rfl⟩ := (hr.mem_iff hash b).mp hb
    have hships := h.ships_of_needed hentry hneeded hc
    rw [h.produced.store] at hc
    obtain ⟨hcb, hkey⟩ := hlinked.coherent.mem_iff.mp hc
    refine ⟨c, hcb, rfl, hkey, ?_, hships⟩
    simp only [rank, (FunctionStore.get_eq_some hlinked.coherent.keys_nodup).mpr hc, Option.map_some,
      Option.getD_some]
  suffices hsort : ∃ order, topoSort H.zero received.functionStore received.entry = .ok order by
    obtain ⟨order, horder⟩ := hsort
    exact sortedBlobs_ok_of_topoSort horder
  refine topoSort_ok hr.keyed rank (fun e he d hd hne => ?_) (fun e he => ?_) ?_
  · obtain ⟨b', hb'⟩ := Option.isSome_iff_exists.mp (hpresent e he d hd)
    have hmem' := (FunctionStore.get_eq_some hr.keyed.keys_nodup).mp hb'
    refine ⟨List.mem_map.mpr ⟨_, hmem', rfl⟩, ?_⟩
    obtain ⟨c, hc, hec, -, hrc, -⟩ := hrank he
    obtain ⟨c', hc', -, rfl, hrc', -⟩ := hrank hmem'
    rw [hrc, hrc']
    refine plainRank_lt (h.plainCall_of_dependency hc hc' ?_)
    rw [hec] at hd
    exact hd
  · obtain ⟨c, -, -, -, hrc, hships⟩ := hrank he
    have hle := h.plainRank_le hentry hr hzero hships
    omega
  · obtain ⟨b, hb, -⟩ := hlinked.coherent.registered f _ hentry
    rw [← h.produced.store] at hb
    rw [hr.entry]
    exact List.mem_map.mpr ⟨_, (hr.mem_iff _ _).mpr ⟨mem_neededHashes.mpr .refl, b, hb, rfl⟩, rfl⟩

theorem subperm_map {α γ : Type} (f : α → γ) {l l' : List α} (h : l.Subperm l') :
    (l.map f).Subperm (l'.map f) := by
  obtain ⟨m, hperm, hsub⟩ := h
  exact ⟨m.map f, hperm.map f, hsub.map f⟩

omit [DecidableEq η] in
/-- The bodies of blobs that are found among others, each once. -/
theorem subperm_bodies {blobs blobs' : List (Blob κ η)} (hnd : (blobs'.map (·.name)).Nodup)
    (hsub : ∀ b ∈ blobs', ∃ c ∈ blobs, c.name = b.name ∧ c.body = b.body) :
    (blobs'.map (·.body)).Subperm (blobs.map (·.body)) := by
  have hpairs : (blobs'.map fun b => (b.name, b.body)).Subperm (blobs.map fun b => (b.name, b.body)) := by
    refine List.Nodup.subperm (List.Nodup.of_map Prod.fst ?_) fun e he => ?_
    · rw [List.map_map]
      exact hnd
    · obtain ⟨b, hb, rfl⟩ := List.mem_map.mp he
      obtain ⟨c, hc, hname, hbody⟩ := hsub b hb
      exact List.mem_map.mpr ⟨c, hc, by rw [hname, hbody]⟩
  have hbodies := subperm_map Prod.snd hpairs
  rwa [List.map_map, List.map_map] at hbodies

theorem subperm_sum_le {l l' : List Nat} (h : l.Subperm l') : l.sum ≤ l'.sum := by
  obtain ⟨m, hperm, hsub⟩ := h
  rw [← hperm.sum_eq]
  exact hsub.sum_le_sum fun _ _ => Nat.zero_le _

variable {blobs' : List (Blob κ η)}

/-- The blobs of a received program, and the functions they are of. -/
theorem Sender.received_blobs (h : Sender H unit program ca lp)
    (hentry : (buildContentAddressedProgram H unit).blobNameToHash f = some entryHash)
    (hr : Received ca (neededHashes program ca entryHash) entryHash received)
    (hs : SortedBlobs H.zero received.functionStore blobs') (hb : b ∈ blobs') :
    ∃ c, (buildContentAddressedProgram H unit).blob? c.name = some c ∧
      b = c.transferred ∧ (c.contentHash, c) ∈ ca.functionStore ∧
        c.contentHash ∈ neededHashes program ca entryHash ∧
        ReflTransGen (Ships unit program) f c.name := by
  obtain ⟨hneeded, c, hc, hbc⟩ := (hr.mem_iff _ _).mp ((hs.mem_iff b).mp hb)
  have hships := h.ships_of_needed hentry hneeded hc
  have hcb := hc
  rw [h.produced.store] at hcb
  subst hbc
  exact ⟨c, ((build_linked H unit).coherent.mem_iff.mp hcb).1, rfl, hc, hneeded, hships⟩

/-- They are found among the sender's own. -/
theorem Sender.received_subperm (h : Sender H unit program ca lp) {f : String} {entryHash : η}
    (hentry : (buildContentAddressedProgram H unit).blobNameToHash f = some entryHash)
    {received : Program κ η}
    (hr : Received ca (neededHashes program ca entryHash) entryHash received)
    {blobs blobs' : List (Blob κ η)} (hlay : Layout H unit ca lp blobs)
    (hs : SortedBlobs H.zero received.functionStore blobs') :
    (blobs'.map (·.body)).Subperm (blobs.map (·.body)) := by
  refine subperm_bodies hs.names_nodup fun b hb => ?_
  obtain ⟨c, hc, rfl, -⟩ := h.received_blobs hentry hr hs hb
  exact ⟨c, (hlay.sorted.blob? c).mpr hc, rfl, rfl⟩

theorem Sender.linkable_iff (h : Sender H unit program ca lp)
    (hentry : (buildContentAddressedProgram H unit).blobNameToHash f = some entryHash)
    (hr : Received ca (neededHashes program ca entryHash) entryHash received)
    (hs : SortedBlobs H.zero received.functionStore blobs') :
    Linkable received blobs' ↔ ∀ b ∈ blobs', b.body.isClosure = true →
      ∃ layout, reconstructTransferredClosureLayout b.body = .ok layout := by
  obtain ⟨blobs, hlay⟩ := h.produced.exists_layout
  have hbodies := h.received_subperm hentry hr hlay hs
  -- the receiver links a part of the sender's blobs, so its pools are no larger
  have hsum : ∀ size : Body κ → Nat, (blobs'.map fun b => size b.body).sum
      ≤ (blobs.map fun b => size b.body).sum := by
    intro size
    have hle := subperm_sum_le (subperm_map size hbodies)
    rwa [List.map_map, List.map_map] at hle
  constructor
  -- the layouts did not come along, so those of closures were reconstructed
  · intro hlink b hb hclosure
    rcases hlink.layouts b hb with hsome | hfalse | hok
    · rw [hr.layouts] at hsome
      cases hsome
    · exact absurd (hclosure.symm.trans hfalse) nofun
    · exact hok
  · intro hlayouts
    refine ⟨(hsum (·.constants.length)).trans hlay.linkable.constants,
      (hsum (·.strings.length)).trans hlay.linkable.strings, fun b hb => ?_, fun b hb => ?_⟩
    · cases hclosure : b.body.isClosure with
      | false => exact Or.inr (Or.inl hclosure)
      | true => exact Or.inr (Or.inr (hlayouts b hb hclosure))
    · obtain ⟨c, hc, rfl, -⟩ := h.received_blobs hentry hr hs hb
      rw [hr.foreignFunctions]
      exact hlay.linkable.foreign c ((hlay.sorted.blob? c).mpr hc)

/-! ## The calls are the same -/

/-- Without sentinels, a needed function calls the same functions at the receiver. -/
theorem Sender.same_callees (h : Sender H unit program ca lp)
    (hentry : (buildContentAddressedProgram H unit).blobNameToHash f = some entryHash)
    (hr : Received ca (neededHashes program ca entryHash) entryHash received)
    (hzero : NoSentinel H.zero ca (neededHashes program ca entryHash))
    (hs : SortedBlobs H.zero received.functionStore blobs') {lq : LinkedProgram κ η}
    (hq : IsLinked H.zero received blobs' lq) (hn : ReflTransGen (Ships unit program) f n) :
    ∃ g ∈ lq.functions, g.name = n ∧ ∀ g' ∈ lp.functions, g'.name = n → g'.blobHash = g.blobHash ∧
      ∀ k, lq.calleeHash g k = lp.calleeHash g' k := by
  obtain ⟨blobs, hlay⟩ := h.produced.exists_layout
  have hlinked := build_linked H unit
  obtain ⟨b, hb, hneeded⟩ := h.needed_of_ships hentry hzero hn
  obtain ⟨hbmem, hbn⟩ := hlinked.coherent.blob?_eq_some.mp hb
  rw [← h.produced.store] at hbmem
  have hin : b.transferred ∈ blobs' :=
    (hs.mem_iff _).mpr ((hr.mem_iff _ _).mpr ⟨hneeded, b, hbmem, rfl⟩)
  -- the blob of the function at the receiver, then the one at the sender
  obtain ⟨placed', hplaced', hpb'⟩ := exists_placedBlobs hin
  refine ⟨linkedFunction placed'.1.1 placed'.1.2, ?_, ?_, fun g' hg' hg'n => ?_⟩
  · rw [hq.functions]
    exact List.mem_map.mpr ⟨placed', hplaced', rfl⟩
  · show placed'.1.1.name = n
    rw [hpb']
    exact hbn
  obtain ⟨placed, hplaced, rfl, hpb⟩ := hlay.exists_placed hg'
  obtain rfl : b = placed.1.1 := by
    have hpn : placed.1.1.name = n := hg'n
    rw [hpn] at hpb
    exact Option.some.inj (hb.symm.trans hpb)
  -- the receiver has no more blobs than the sender, so its indices fit as well
  have hfits' : blobs'.length ≤ 65536 := by
    have hlen := (h.received_subperm hentry hr hlay hs).length_le
    rw [List.length_map, List.length_map] at hlen
    exact hlen.trans (h.produced.blobs_fit hlay)
  refine ⟨?_, fun k => ?_⟩
  · show placed.1.1.contentHash = placed'.1.1.contentHash
    rw [hpb']
    rfl
  obtain ⟨x, hx, hxn, hbody, hcallees⟩ := build_fromBuilder H unit _ _ hb
  rw [hq.calleeHash_eq hplaced', hlay.linked.calleeHash_eq hplaced, hpb']
  show (placed.1.1.body.instructions[k]?.bind _).bind _ = _
  cases hk : placed.1.1.body.instructions[k]? with
  | none => rfl
  | some instr =>
    rw [Option.bind_some]
    cases hcallee : instr.callee with
    | none => rfl
    | some idx =>
      have hidx := h.inRange x hx instr (hbody ▸ List.mem_of_getElem? hk) idx hcallee
      rw [← hcallees, ← (hlinked.ok _ _ hb).aligned] at hidx
      have hd := List.getElem?_eq_getElem hidx
      -- without sentinels both links follow the same hash
      have hne : placed.1.1.dependencies[idx.toNat] ≠ H.zero :=
        fun heq => hzero _ hneeded _ hbmem (heq ▸ List.getElem_mem hidx)
      have hd' : placed'.1.1.dependencies[idx.toNat]? = some placed.1.1.dependencies[idx.toNat] := by
        rw [hpb']
        exact hd
      rw [Option.bind_some, Option.bind_some,
        hlay.sorted.reference_of_ne_zero (h.produced.blobs_fit hlay) hplaced hd hne,
        hs.reference_of_ne_zero hfits' hplaced' hd' hne]

/-! ## When the request is enough -/

/-- Where every call that is shipped is a plain one, no sentinel is shipped. -/
theorem Sender.noSentinel_of_plain (h : Sender H unit program ca lp)
    (hentry : (buildContentAddressedProgram H unit).blobNameToHash f = some entryHash)
    (hplain : ∀ x ∈ unit.builders, ReflTransGen (Ships unit program) f x.name →
      ∀ callee ∈ x.calledFunctions, PlainCall unit x.name callee) :
    NoSentinel H.zero ca (neededHashes program ca entryHash) := by
  intro hash hneeded b hb hz
  have ht := build_tracks H unit
  have hships := h.ships_of_needed hentry hneeded hb
  rw [h.produced.store] at hb
  obtain ⟨hbb, -⟩ := ht.linked.coherent.mem_iff.mp hb
  obtain ⟨x, hx, hxn, -, hcallees⟩ := build_fromBuilder H unit _ b hbb
  obtain ⟨i, hi⟩ := List.mem_iff_getElem?.mp hz
  have hlt := (List.getElem?_eq_some_iff.mp hi).1
  rw [(ht.linked.ok _ b hbb).aligned] at hlt
  have hm := List.getElem?_eq_getElem hlt
  have hcall : PlainCall unit x.name b.calleeNames[i] :=
    hplain x hx (hxn ▸ hships) _ (hcallees ▸ List.getElem_mem hlt)
  rw [hxn] at hcall
  rcases (ht.eq_zero_iff (compileBlobs_linked H unit).mem_mutualEdges hbb hm hi).mp rfl with
    hself | hcyc | hunknown
  · exact hcall.2.1 hself.symm
  · exact hcall.2.2 hcyc.2.2
  · obtain ⟨-, -, -, -, hin⟩ := hcall.1
    exact hunknown hin

/-- **The request is enough exactly when nothing it ships is recursive** and every closure's layout can
be reconstructed. -/
theorem remote_closure_iff (H : Sha256 (Body κ) η) (unit : Compilation (Body κ))
    (program : BytecodeProgram κ η) (ca : Program κ η) (lp : LinkedProgram κ η)
    (h : Sender H unit program ca lp) (f : String) (hf : f ∈ unit.names) :
    ClosureSufficient H unit program lp f ↔ Shippable unit program f := by
  have ht := build_tracks H unit
  obtain ⟨blobs, hlay⟩ := h.produced.exists_layout
  constructor
  -- the receiver misses no blob, so no needed blob has a sentinel: nothing that is shipped is
  -- recursive
  · intro hsuff
    obtain ⟨b₀, hb₀⟩ := ht.linked.exists_blob hf
    have hentry : (buildContentAddressedProgram H unit).blobNameToHash f = some b₀.contentHash := by
      rw [ht.linked.coherent.blobNameToHash_eq, hb₀]
      rfl
    obtain ⟨request, hreq, received, hrec, hmissing, lq, hlq, -⟩ := hsuff _ hentry
    obtain ⟨request', received', hreq', hrec', hr⟩ := h.exists_received hentry
    obtain rfl := Option.some.inj (hreq.symm.trans hreq')
    obtain rfl := Option.some.inj (hrec.symm.trans hrec')
    have hzero := (h.missing_iff hr).mp hmissing
    unfold link at hlq
    obtain ⟨blobs', hblobs', hlq'⟩ := Fallible.bind_eq_ok.mp hlq
    have hs := sortedBlobs_spec hr.keyed hblobs'
    have hlayouts := (h.linkable_iff hentry hr hs).mp (linkBlobs_ok hlq').1
    intro x hx hreach
    obtain ⟨b, hb, hneeded⟩ := h.needed_of_ships hentry hzero hreach
    have hmem := (ht.linked.coherent.blob?_eq_some.mp hb).1
    rw [← h.produced.store] at hmem
    obtain ⟨y, hy, hyn, hbody, hcallees⟩ := build_fromBuilder H unit _ b hb
    obtain rfl : y = x := unit.builder_unique hy hx hyn
    refine ⟨fun callee hcallee => ?_, fun hclosure => ?_⟩
    -- a callee behind a pointer that is no sentinel is a plain call
    · obtain ⟨i, hi⟩ := List.mem_iff_getElem?.mp (hcallees ▸ hcallee)
      have hlt := (List.getElem?_eq_some_iff.mp hi).1
      rw [← (ht.linked.ok _ b hb).aligned] at hlt
      rcases ht.pointer_cases (compileBlobs_linked H unit).mem_mutualEdges hlay.hashesSettle hb hi
        (List.getElem?_eq_getElem hlt) with ⟨hcall, -⟩ | ⟨-, hz⟩
      · exact hcall
      · exact absurd (hz ▸ List.getElem_mem hlt) (hzero _ hneeded b hmem)
    · have hin : b.transferred ∈ blobs' :=
        (hs.mem_iff _).mpr ((hr.mem_iff _ _).mpr ⟨hneeded, b, hmem, rfl⟩)
      rw [← hbody] at hclosure ⊢
      exact hlayouts b.transferred hin hclosure
  -- without recursion there is no sentinel, and the receiver sorts, links and finds the same
  -- callees
  · intro hship entryHash hentry
    obtain ⟨request, received, hreq, hrec, hr⟩ := h.exists_received hentry
    have hzero := h.noSentinel_of_plain hentry fun x hx hreach => (hship x hx hreach).1
    obtain ⟨blobs', hblobs'⟩ := h.exists_sorted hentry hr hzero
    have hs := sortedBlobs_spec hr.keyed hblobs'
    have hlinkable := (h.linkable_iff hentry hr hs).mpr fun b hb hclosure => by
      obtain ⟨c, hc, rfl, -, -, hreach⟩ := h.received_blobs hentry hr hs hb
      obtain ⟨x, hx, hxn, hbody, -⟩ := build_fromBuilder H unit _ c hc
      show ∃ layout, reconstructTransferredClosureLayout c.body = .ok layout
      rw [hbody]
      exact (hship x hx (hxn ▸ hreach)).2 (hbody ▸ hclosure)
    obtain ⟨lq, hlq⟩ := exists_linkBlobs H.zero hlinkable
    refine ⟨request, hreq, received, hrec, (h.missing_iff hr).mpr hzero, lq, ?_, fun n hn =>
      h.same_callees hentry hr hzero hs (linkBlobs_ok hlq).2 hn⟩
    unfold link
    rw [hblobs']
    exact hlq

end Remote

/-! ## A call, and a recursive function -/

/-- The compiled program of a compilation without module bindings. -/
def compiledBytecode (unit : Compilation (Body Unit)) :
    BytecodeProgram Unit (ContentDigest (Body Unit)) where
  contentAddressed := some (compiledProgram unit)
  moduleBindingNames := []
  functions := unit.names
  functionBlobHashes := unit.names.map
    (buildContentAddressedProgram (contentSha256 (Body Unit)) unit).blobNameToHash
  foreignFunctions := []

theorem sender_of_produced {unit : Compilation (Body Unit)}
    {lp : LinkedProgram Unit (ContentDigest (Body Unit))}
    (hp : Produced (contentSha256 (Body Unit)) unit (compiledProgram unit) lp)
    (hrange : ∀ x ∈ unit.builders, ReferencesInRange x) :
    Sender (contentSha256 (Body Unit)) unit (compiledBytecode unit) (compiledProgram unit) lp :=
  ⟨rfl, hp, rfl, rfl, hrange⟩

theorem referencesInRange_callBody {name : String} {called : List String} {perms : PermissionSet}
    {idxs : List UInt16} (h : ∀ idx ∈ idxs, idx.toNat < called.length) :
    ReferencesInRange (⟨name, called, perms, callBody idxs⟩ : FunctionBlobBuilder (Body Unit)) := by
  intro instr hinstr idx hidx
  obtain ⟨i, hi, rfl⟩ := List.mem_map.mp hinstr
  obtain rfl : i = idx := Option.some.inj hidx
  exact h i hi

/-- The functions are compiled, and none of them calls itself, directly or by way of others. -/
structure WithoutCallCycles (unit : Compilation (Body κ)) : Prop where
  compiled : ∀ x ∈ unit.builders, ∀ callee ∈ x.calledFunctions, callee ∈ unit.names
  acyclic : ∀ n, ¬ TransGen (Calls unit) n n

theorem WithoutCallCycles.plainCall {unit : Compilation (Body κ)} (h : WithoutCallCycles unit)
    {x : FunctionBlobBuilder (Body κ)} (hx : x ∈ unit.builders) {callee : String}
    (hcallee : callee ∈ x.calledFunctions) :
    PlainCall unit x.name callee := by
  have hcall : Calls unit x.name callee := ⟨x, hx, rfl, hcallee, h.compiled x hx callee hcallee⟩
  refine ⟨hcall, fun heq => ?_, fun hback => ?_⟩
  · exact h.acyclic x.name (.single (heq ▸ hcall))
  · exact h.acyclic x.name (TransGen.head' hcall hback)

/-- Calls that go down have no cycles. -/
theorem WithoutCallCycles.of_rank {unit : Compilation (Body κ)} (rank : String → Nat)
    (h : ∀ x ∈ unit.builders, ∀ callee ∈ x.calledFunctions, callee ∈ unit.names ∧
      rank callee < rank x.name) :
    WithoutCallCycles unit := by
  have hdown : ∀ {n m}, TransGen (Calls unit) n m → rank m < rank n := by
    intro n m hcalls
    induction hcalls with
    | single hcall =>
      obtain ⟨x, hx, rfl, hcallee, -⟩ := hcall
      exact (h x hx _ hcallee).2
    | tail _ hcall ih =>
      obtain ⟨x, hx, rfl, hcallee, -⟩ := hcall
      exact (h x hx _ hcallee).2.trans ih
  exact ⟨fun x hx callee hcallee => (h x hx callee hcallee).1, fun n hn => lt_irrefl _ (hdown hn)⟩

/-- `f` calls `g`, and `g` calls `h`. -/
def chainUnit : Compilation (Body Unit) where
  builders := [⟨"h", [], ∅, callBody []⟩, ⟨"g", ["h"], ∅, callBody [0]⟩, ⟨"f", ["g"], ∅, callBody [0]⟩,
    ⟨"__main__", ["f"], ∅, callBody [0]⟩]
  names_nodup := by decide

theorem chainUnit_withoutCallCycles : WithoutCallCycles chainUnit :=
  .of_rank (fun name => if name = "h" then 0 else if name = "g" then 1 else if name = "f" then 2 else 3)
    (by decide)

theorem sender_chainUnit : ∃ lp, Sender (contentSha256 (Body Unit)) chainUnit (compiledBytecode chainUnit)
    (compiledProgram chainUnit) lp := by
  obtain ⟨lp, hp⟩ := produced_of_isOk chainUnit (by decide) (by decide +kernel) (by decide +kernel)
  have hrange : ∀ x ∈ chainUnit.builders, ReferencesInRange x := by
    intro x hx
    simp only [chainUnit, List.mem_cons, List.not_mem_nil, or_false] at hx
    rcases hx with rfl | rfl | rfl | rfl
    · exact referencesInRange_callBody (by simp)
    · exact referencesInRange_callBody (by simp)
    · exact referencesInRange_callBody (by simp)
    · exact referencesInRange_callBody (by simp)
  exact ⟨lp, sender_of_produced hp hrange⟩

/-- `f` is shipped with `g`, which it calls, and `h`, which `g` calls. -/
theorem remote_closure_chainUnit :
    ∃ lp, Sender (contentSha256 (Body Unit)) chainUnit (compiledBytecode chainUnit)
      (compiledProgram chainUnit) lp ∧
      "f" ∈ chainUnit.names ∧ Shippable chainUnit (compiledBytecode chainUnit) "f" ∧
      ClosureSufficient (contentSha256 (Body Unit)) chainUnit (compiledBytecode chainUnit) lp "f" := by
  obtain ⟨lp, hs⟩ := sender_chainUnit
  have hin : "f" ∈ chainUnit.names := by decide
  have hship : Shippable chainUnit (compiledBytecode chainUnit) "f" := by
    intro x hx _
    refine ⟨fun callee hcallee => chainUnit_withoutCallCycles.plainCall hx hcallee, fun hclosure => ?_⟩
    have hnone : ∀ x ∈ chainUnit.builders, x.body.isClosure = false := by decide
    rw [hnone x hx] at hclosure
    cases hclosure
  exact ⟨lp, hs, hin, hship, (remote_closure_iff (contentSha256 (Body Unit)) chainUnit
    (compiledBytecode chainUnit) (compiledProgram chainUnit) lp hs "f" hin).mpr hship⟩

/-- **A recursive function cannot be called remotely**: the receiver asks for the blob of the
sentinel. -/
theorem recursive_function_not_shippable :
    ¬ ∀ (H : Sha256 (Body Unit) (ContentDigest (Body Unit))) (unit : Compilation (Body Unit))
        (program : BytecodeProgram Unit (ContentDigest (Body Unit)))
        (ca : Program Unit (ContentDigest (Body Unit)))
        (lp : LinkedProgram Unit (ContentDigest (Body Unit))),
      Sender H unit program ca lp → ∀ f ∈ unit.names, ClosureSufficient H unit program lp f := by
  intro hclaim
  obtain ⟨lp, hp⟩ := produced_of_isOk selfCallUnit (by decide) (by decide +kernel) (by decide +kernel)
  have hrange : ∀ x ∈ selfCallUnit.builders, ReferencesInRange x := by
    intro x hx
    simp only [selfCallUnit, List.mem_cons, List.not_mem_nil, or_false] at hx
    rcases hx with rfl | rfl
    · exact referencesInRange_callBody (by simp)
    · exact referencesInRange_callBody (by simp)
  have hsuff := hclaim _ _ _ _ lp (sender_of_produced hp hrange) "f" (by decide)
  -- the receiver's answer, evaluated: it misses ZERO
  have hmissing : ∃ entryHash ∈ (buildContentAddressedProgram (contentSha256 (Body Unit))
      selfCallUnit).blobNameToHash "f",
      ∀ request ∈ buildCallRequest (compiledBytecode selfCallUnit) entryHash,
        ∀ received ∈ receivedProgram request.transferred, missingDependencyBlobs received = [.zero] := by
    decide +kernel
  obtain ⟨entryHash, hentry, hall⟩ := hmissing
  obtain ⟨request, hreq, received, hrec, hnil, -⟩ := hsuff entryHash hentry
  have hone := hall request hreq received hrec
  rw [hnil] at hone
  cases hone

end ShapeLang.Bytecode
