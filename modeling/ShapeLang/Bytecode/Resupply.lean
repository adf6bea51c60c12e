import ShapeLang.Bytecode.Remote

/-!
# ShapeLang — resupplying missing blobs

A remote call may leave out blobs that the receiver is thought to have. A receiver that cannot link what it
got answers with the hashes it misses, and `call_with_resupply` (`crates/shape-vm/src/remote.rs`) adds their
blobs and sends the call once more.

`missing_dependency_blobs` "accumulates ALL of them so the sender can resupply in a single round-trip". But
the receiver reads dependencies off the blobs it has: below a missing blob it sees nothing. A chain of two
left-out functions takes two rounds, and there is only one.

  * `callWithResupply` — the sender's side, over any callback;
  * `runRemoteCall` — the receiver's, up to the point where the program is linked;
  * `one_resupply_iff` — one resupply is enough exactly when whatever a reported blob depends on was
    sent or is reported as well.
-/

namespace ShapeLang.Bytecode

open Relation

/-! ## Errors -/

inductive RemoteErrorKind where
  | functionNotFound | argumentError | runtimeError | missingModuleFunction | permissionDenied
  | hashMismatch | versionSkew | unsupportedCapture | authRequired | resourceLimitExceeded | timeout
  | transport
  deriving DecidableEq, Repr

structure RemoteCallError (η : Type) where
  message : String
  kind : RemoteErrorKind
  missingBlobs : Option (List η)

namespace RemoteCallError

def new {η : Type} (kind : RemoteErrorKind) (message : String) : RemoteCallError η :=
  ⟨message, kind, none⟩

def missingModuleFunction {η : Type} (message : String) (missing : List η) : RemoteCallError η :=
  ⟨message, .missingModuleFunction, some missing⟩

end RemoteCallError

abbrev RemoteCallResponse (η V : Type) := Except (RemoteCallError η) V

variable {κ η V : Type}

/-- The answer is that blobs are missing. -/
def RemoteCallResponse.IsMissing (response : RemoteCallResponse η V) : Prop :=
  ∃ e, response = .error e ∧ e.kind = .missingModuleFunction

/-- The hashes a sender can act on: those of a missing-blob answer, if it names any. -/
def RemoteCallResponse.retryable (response : RemoteCallResponse η V) : Option (List η) :=
  match response with
  | .ok _ => none
  | .error e =>
    if e.kind = .missingModuleFunction then
      match e.missingBlobs with
      | some (hash :: hashes) => some (hash :: hashes)
      | _ => none
    else none

/-! ## The sender -/

section Sender

variable [DecidableEq η] (shortHash : η → String)

/-- `build_call_request_negotiated`: the request without the blobs the receiver is thought to have. -/
def buildCallRequestNegotiated (program : BytecodeProgram κ η) (functionHash : η) (knownHashes : List η) :
    Option (RemoteCallRequest κ η) :=
  (buildCallRequest program functionHash).map fun request =>
    { request with functionBlobs := request.functionBlobs.filter fun e => e.1 ∉ knownHashes }

/-- The blobs of the missing hashes, or the first hash that the sender does not have either. -/
def resupplyBlobs (store : FunctionStore (Body κ) η) : List η → Except η (List (η × Blob κ η))
  | [] => .ok []
  | hash :: hashes =>
    match FunctionStore.get store hash with
    | some blob => do
      let resupply ← resupplyBlobs store hashes
      .ok ((hash, blob) :: resupply)
    | none => .error hash

/-- The request with more blobs. A request without blobs is one with none. -/
def RemoteCallRequest.attach (request : RemoteCallRequest κ η) (resupply : List (η × Blob κ η)) :
    RemoteCallRequest κ η :=
  { request with
    functionBlobs := request.functionBlobs ++
      resupply.filter fun e => e.1 ∉ request.functionBlobs.map Prod.fst }

/-- What becomes of the second answer. -/
def exhausted (second : RemoteCallResponse η V) : RemoteCallResponse η V :=
  match second with
  | .ok value => .ok value
  | .error e =>
    if e.kind = .missingModuleFunction then
      let still := (e.missingBlobs.getD []).length
      .error (.missingModuleFunction
        ("receiver still missing " ++ toString still ++ " blob(s) after resupply") (e.missingBlobs.getD []))
    else .error e

/-- `call_with_resupply`. The callback may have a state of its own. -/
def callWithResupply {σ : Type} (program : BytecodeProgram κ η) (request : RemoteCallRequest κ η)
    (send : σ → RemoteCallRequest κ η → RemoteCallResponse η V × σ) (s : σ) : RemoteCallResponse η V × σ :=
  let (first, s) := send s request
  match first.retryable with
  | none => (first, s)
  | some missing =>
    match program.contentAddressed with
    | none =>
      (.error (.missingModuleFunction
        "receiver reported missing blobs but the sender has no content-addressed store to resupply from"
        missing), s)
    | some ca =>
      match resupplyBlobs ca.functionStore missing with
      | .error hash =>
        (.error (.missingModuleFunction
          ("receiver is missing blob " ++ shortHash hash ++ " and the sender cannot resupply it")
            [hash]), s)
      | .ok resupply =>
        let (second, s) := send s (request.attach resupply)
        (exhausted second, s)

/-- A request and the answer to it. -/
abbrev Exchange (κ η V : Type) := RemoteCallRequest κ η × RemoteCallResponse η V

/-- The callback, and a record of what went through it. -/
def recorded {σ : Type} (send : σ → RemoteCallRequest κ η → RemoteCallResponse η V × σ)
    (s : σ × List (Exchange κ η V)) (request : RemoteCallRequest κ η) :
    RemoteCallResponse η V × σ × List (Exchange κ η V) :=
  let (response, s') := send s.1 request
  (response, s', s.2 ++ [(request, response)])

/-- What goes through the callback in a call. -/
def exchanges {σ : Type} (program : BytecodeProgram κ η) (request : RemoteCallRequest κ η)
    (send : σ → RemoteCallRequest κ η → RemoteCallResponse η V × σ) (s : σ) : List (Exchange κ η V) :=
  (callWithResupply shortHash program request (recorded send) (s, [])).2.2

end Sender

/-! ## The receiver -/

section Receiver

variable [DecidableEq η]

/-- An error from linking, loading or running the program. None of them is that blobs are missing. -/
structure LaterError where
  kind : RemoteErrorKind
  message : String
  not_missing : kind ≠ .missingModuleFunction

/-- `run_remote_call`, for a call without captures. `execute` is what follows once no blob is missing. -/
def runRemoteCall (H : Sha256 (Body κ) η) (shortHash : η → String) (functionName : String)
    (execute : Option (Program κ η) → Except LaterError V) (request : RemoteCallRequest κ η) :
    RemoteCallResponse η V :=
  let contentAddressed :=
    match receivedProgram request with
    | some ca => some ca
    | none => request.program.contentAddressed
  let run := (execute contentAddressed).mapError fun e => .new e.kind e.message
  match contentAddressed with
  | none => run
  | some ca =>
    match ca.functionStore.find? fun e => e.2.computeHash H ≠ e.1 with
    | some (claimed, blob) =>
      .error (.new .hashMismatch ("blob " ++ shortHash claimed ++
        " failed content verification — rejected (recomputed " ++ shortHash (blob.computeHash H) ++ ")"))
    | none =>
      match missingDependencyBlobs ca with
      | [] => run
      | missing =>
        .error (.missingModuleFunction ("cannot link '" ++ functionName ++ "': missing " ++
          toString missing.length ++ " dependency blob(s)") missing)

end Receiver

/-! ## One call -/

variable {response : RemoteCallResponse η V}

theorem RemoteCallResponse.isMissing_of_retryable {missing : List η}
    (h : response.retryable = some missing) :
    ∃ e, response = .error e ∧ e.kind = .missingModuleFunction ∧ e.missingBlobs = some missing := by
  unfold RemoteCallResponse.retryable at h
  split at h
  · cases h
  · rename_i e
    split at h
    · rename_i hkind
      split at h
      · rename_i hash hashes hblobs
        exact ⟨e, rfl, hkind, hblobs.trans h⟩
      · cases h
    · cases h

theorem RemoteCallResponse.retryable_eq_none (h : ¬ response.IsMissing) :
    response.retryable = none := by
  cases hretry : response.retryable with
  | none => rfl
  | some missing =>
    obtain ⟨e, he, hkind, -⟩ := isMissing_of_retryable hretry
    exact absurd ⟨e, he, hkind⟩ h

section Call

variable [DecidableEq η] (shortHash : η → String) (program : BytecodeProgram κ η)
  (request : RemoteCallRequest κ η) {σ : Type} (send : σ → RemoteCallRequest κ η →
    RemoteCallResponse η V × σ)
  (s : σ)

/-- What a call sends: the request, and when the answer names missing blobs that the sender has, the request
with these blobs. -/
theorem exchanges_cases :
    (exchanges shortHash program request send s = [(request, (send s request).1)] ∧
      ∀ missing ca resupply, (send s request).1.retryable = some missing →
        program.contentAddressed = some ca →
        resupplyBlobs ca.functionStore missing ≠ .ok resupply) ∨
    ∃ missing ca resupply, (send s request).1.retryable = some missing ∧ program.contentAddressed =
      some ca ∧
      resupplyBlobs ca.functionStore missing = .ok resupply ∧
      exchanges shortHash program request send s =
        [(request, (send s request).1),
          (request.attach resupply, (send (send s request).2 (request.attach resupply)).1)] := by
  unfold exchanges callWithResupply recorded
  -- the second request is made only for an answer that names blobs, by a sender that has them all
  cases hretry : (send s request).1.retryable with
  | none => exact Or.inl ⟨by simp [hretry], fun _ _ _ h => nomatch h⟩
  | some missing =>
    cases hca : program.contentAddressed with
    | none => exact Or.inl ⟨by simp [hretry], fun _ _ _ _ h => nomatch h⟩
    | some ca =>
      cases hresupply : resupplyBlobs ca.functionStore missing with
      | error hash =>
        refine Or.inl ⟨by simp [hretry, hresupply], fun missing' ca' resupply h h' => ?_⟩
        obtain rfl := Option.some.inj h
        obtain rfl := Option.some.inj h'
        rw [hresupply]
        exact nofun
      | ok resupply =>
        exact Or.inr ⟨missing, ca, resupply, rfl, rfl, hresupply, by simp [hretry, hresupply]⟩

variable {missing : List η}

theorem exchanges_two {ca : Program κ η} {resupply : List (η × Blob κ η)}
    (hretry : (send s request).1.retryable = some missing) (hca : program.contentAddressed = some ca)
    (hok : resupplyBlobs ca.functionStore missing = .ok resupply) :
    exchanges shortHash program request send s =
      [(request, (send s request).1),
        (request.attach resupply, (send (send s request).2 (request.attach resupply)).1)] := by
  rcases exchanges_cases shortHash program request send s with
    ⟨-, hno⟩ | ⟨missing', ca', resupply', hretry', hca', hok', heq⟩
  · exact absurd hok (hno missing ca resupply hretry hca)
  · obtain rfl := Option.some.inj (hretry'.symm.trans hretry)
    obtain rfl := Option.some.inj (hca'.symm.trans hca)
    obtain rfl := Except.ok.inj (hok'.symm.trans hok)
    exact heq

/-- **A call sends at most twice**, the second time after an answer that names missing blobs. -/
theorem exchanges_bounded :
    (exchanges shortHash program request send s).length ≤ 2 ∧
      ∀ first second, exchanges shortHash program request send s = [first, second] →
        ∃ missing, first.2.retryable = some missing := by
  rcases exchanges_cases shortHash program request send s
    with ⟨hone, -⟩ | ⟨missing, ca, resupply, hretry, -, -, htwo⟩
  · rw [hone]
    exact ⟨by simp, fun first second h => by simp at h⟩
  · rw [htwo]
    refine ⟨le_rfl, fun first second h => ⟨missing, ?_⟩⟩
    obtain ⟨rfl, -⟩ := List.cons.inj h
    exact hretry

theorem resupplyBlobs_ok {store : FunctionStore (Body κ) η}
    (h : ∀ hash ∈ missing, (FunctionStore.get store hash).isSome) :
    ∃ resupply, resupplyBlobs store missing = .ok resupply ∧ resupply.map Prod.fst = missing ∧
      ∀ e ∈ resupply, FunctionStore.get store e.1 = some e.2 := by
  induction missing with
  | nil => exact ⟨[], rfl, rfl, by simp⟩
  | cons hash hashes ih =>
    obtain ⟨blob, hblob⟩ := Option.isSome_iff_exists.mp (h hash (by simp))
    obtain ⟨resupply, hok, hkeys, hget⟩ := ih fun hash' h' => h hash' (by simp [h'])
    refine ⟨(hash, blob) :: resupply,
      by simp [resupplyBlobs, hblob, hok, bind, Except.bind], by simp [hkeys], ?_⟩
    intro e he
    rcases List.mem_cons.mp he with rfl | he
    · exact hblob
    · exact hget e he

end Call

/-! ## What a receiver misses -/

section Missing

variable [DecidableEq η]

theorem mem_foldl_missing {P : η → Prop} [DecidablePred P] {deps missing : List η}
    (hnodup : missing.Nodup) :
    (deps.foldl (fun missing dep => if P dep ∧ dep ∉ missing then missing ++ [dep] else missing)
      missing).Nodup ∧
      ∀ hash, hash ∈ deps.foldl
        (fun missing dep => if P dep ∧ dep ∉ missing then missing ++ [dep] else missing) missing ↔
          hash ∈ missing ∨ (hash ∈ deps ∧ P hash) := by
  induction deps generalizing missing with
  | nil => exact ⟨hnodup, by simp⟩
  | cons dep deps ih =>
    rw [List.foldl_cons]
    -- a dependency is noted once
    by_cases hnew : P dep ∧ dep ∉ missing
    · rw [if_pos hnew]
      have hnodup' : (missing ++ [dep]).Nodup :=
        List.nodup_append.mpr ⟨hnodup, List.nodup_singleton dep, fun a ha b hb heq => by
          rw [List.mem_singleton.mp hb] at heq
          exact hnew.2 (heq ▸ ha)⟩
      refine ⟨(ih hnodup').1, fun hash => ?_⟩
      rw [(ih hnodup').2]
      constructor
      · rintro (h | h)
        · rcases List.mem_append.mp h with h | h
          · exact Or.inl h
          · obtain rfl := List.mem_singleton.mp h
            exact Or.inr ⟨List.mem_cons_self, hnew.1⟩
        · exact Or.inr ⟨List.mem_cons_of_mem _ h.1, h.2⟩
      · rintro (h | ⟨h, hP⟩)
        · exact Or.inl (List.mem_append_left _ h)
        · rcases List.mem_cons.mp h with rfl | h
          · exact Or.inl (List.mem_append_right _ List.mem_cons_self)
          · exact Or.inr ⟨h, hP⟩
    · rw [if_neg hnew]
      refine ⟨(ih hnodup).1, fun hash => ?_⟩
      rw [(ih hnodup).2]
      constructor
      · exact Or.imp_right fun h => ⟨List.mem_cons_of_mem _ h.1, h.2⟩
      · rintro (h | ⟨h, hP⟩)
        · exact Or.inl h
        · rcases List.mem_cons.mp h with rfl | h
          · by_cases hmem : hash ∈ missing
            · exact Or.inl hmem
            · exact absurd ⟨hP, hmem⟩ hnew
          · exact Or.inr ⟨h, hP⟩

theorem missingDependencyBlobs_nodup (ca : Program κ η) : (missingDependencyBlobs ca).Nodup :=
  (mem_foldl_missing List.nodup_nil).1

variable {hash : η}

theorem mem_missingDependencyBlobs {ca : Program κ η} :
    hash ∈ missingDependencyBlobs ca ↔
      (∃ e ∈ ca.functionStore, hash ∈ e.2.dependencies) ∧
        (FunctionStore.get ca.functionStore hash).isNone := by
  unfold missingDependencyBlobs
  rw [(mem_foldl_missing (P := fun dep => (FunctionStore.get ca.functionStore dep).isNone = true)
    List.nodup_nil).2, List.mem_flatMap]
  simp

theorem get_isNone_iff {store : FunctionStore (Body κ) η} :
    (FunctionStore.get store hash).isNone ↔ hash ∉ store.map Prod.fst := by
  unfold FunctionStore.get
  rw [Option.isNone_map, Option.isNone_iff_eq_none, List.find?_eq_none, List.mem_map]
  simp only [decide_eq_true_eq, not_exists, not_and]

/-- Blobs of the sender's store, each once. -/
structure Shipment (ca : Program κ η) (entries : List (η × Blob κ η)) : Prop where
  nodup : (entries.map Prod.fst).Nodup
  stored : ∀ e ∈ entries, e ∈ ca.functionStore

variable {H : Sha256 (Body κ) η} {unit : Compilation (Body κ)} {program : BytecodeProgram κ η}
  {ca : Program κ η} {lp : LinkedProgram κ η} {request : RemoteCallRequest κ η}

omit [DecidableEq η] in
theorem not_isMissing_mapError (x : Except LaterError V) :
    ¬ RemoteCallResponse.IsMissing
      (x.mapError fun e => (RemoteCallError.new e.kind e.message : RemoteCallError η)) := by
  rintro ⟨e, he, hkind⟩
  cases x with
  | ok value => cases he
  | error e' =>
    obtain rfl := Except.error.inj he
    exact e'.not_missing hkind

/-- What the receiver has after a shipment with the entry in it. -/
theorem Shipment.received (h : Shipment ca request.functionBlobs)
    (hentry : request.functionHash ∈ request.functionBlobs.map Prod.fst) :
    ∃ received, receivedProgram request.transferred = some received ∧
      received.functionStore = (request.functionBlobs.map fun e => (e.1, e.2.transferred)).reverse := by
  -- the blobs lose what the wire does not carry, and their keys stay
  have hkeys : ((request.functionBlobs.map fun e => (e.1, e.2.transferred)).map Prod.fst) =
      request.functionBlobs.map Prod.fst := by
    rw [List.map_map]
    rfl
  have hstore : FunctionStore.ofList request.transferred.functionBlobs =
      (request.functionBlobs.map fun e => (e.1, e.2.transferred)).reverse :=
    FunctionStore.ofList_eq (hkeys ▸ h.nodup)
  obtain ⟨e, he, heq⟩ := List.mem_map.mp hentry
  have hnodup : (((request.functionBlobs.map fun e => (e.1, e.2.transferred)).reverse).map
    Prod.fst).Nodup := by
    rw [List.map_reverse, hkeys]
    exact List.nodup_reverse.mpr h.nodup
  have hget : FunctionStore.get ((request.functionBlobs.map fun e => (e.1, e.2.transferred)).reverse)
      request.functionHash = some e.2.transferred := by
    rw [FunctionStore.get_eq_some hnodup, List.mem_reverse]
    exact List.mem_map.mpr ⟨e, he, by rw [← heq]⟩
  unfold receivedProgram programFromBlobsByHash
  simp only [hstore]
  rw [if_neg]
  · exact ⟨_, rfl, rfl⟩
  · show ¬ (FunctionStore.get _ request.functionHash).isNone = true
    rw [hget]
    simp

theorem Sender.verified (h : Sender H unit program ca lp) {e : η × Blob κ η} (he : e ∈ ca.functionStore) :
    e.2.transferred.computeHash H = e.1 := by
  have hcoh := (build_linked H unit).coherent
  rw [h.produced.store] at he
  have hfinal : e.2.contentHash = e.2.computeHash H := hcoh.finalized e he
  rw [hcoh.keyed e he, hfinal]
  rfl

/-- **The answer to a shipment.** The receiver misses the dependencies of what came that did not come. -/
theorem Sender.answer (h : Sender H unit program ca lp) (shortHash : η → String) (functionName : String)
    (execute : Option (Program κ η) → Except LaterError V) (hship : Shipment ca request.functionBlobs)
    (hentry : request.functionHash ∈ request.functionBlobs.map Prod.fst) :
    ∃ missing : List η, missing.Nodup ∧
      (∀ hash, hash ∈ missing ↔ hash ∉ request.functionBlobs.map Prod.fst ∧
        ∃ e ∈ request.functionBlobs, hash ∈ e.2.dependencies) ∧
      (missing = [] → ¬ (runRemoteCall H shortHash functionName execute request.transferred).IsMissing) ∧
      (missing ≠ [] →
        (runRemoteCall H shortHash functionName execute request.transferred).retryable = some missing) := by
  obtain ⟨received, hreceived, hstore⟩ := hship.received hentry
  -- the receiver checks the hash of each blob, and what the wire drops is not hashed
  have hverified : received.functionStore.find? (fun e => e.2.computeHash H ≠ e.1) = none := by
    rw [List.find?_eq_none, hstore]
    intro e he
    obtain ⟨e', he', rfl⟩ := List.mem_map.mp (List.mem_reverse.mp he)
    simp [h.verified (hship.stored e' he')]
  have hrun : runRemoteCall H shortHash functionName execute request.transferred =
      match missingDependencyBlobs received with
      | [] => (execute (some received)).mapError fun e => .new e.kind e.message
      | missing => .error (.missingModuleFunction ("cannot link '" ++ functionName ++ "': missing " ++
          toString missing.length ++ " dependency blob(s)") missing) := by
    simp only [runRemoteCall, hreceived, hverified]
  -- what is missing at the receiver, in terms of the request
  refine ⟨missingDependencyBlobs received, missingDependencyBlobs_nodup received, fun hash => ?_, ?_, ?_⟩
  · rw [mem_missingDependencyBlobs, get_isNone_iff, hstore, List.map_reverse, List.mem_reverse,
      List.map_map, and_comm]
    refine and_congr Iff.rfl ⟨?_, ?_⟩
    · rintro ⟨e, he, hdep⟩
      obtain ⟨e', he', rfl⟩ := List.mem_map.mp (List.mem_reverse.mp he)
      exact ⟨e', he', hdep⟩
    · rintro ⟨e, he, hdep⟩
      exact ⟨_, List.mem_reverse.mpr (List.mem_map.mpr ⟨e, he, rfl⟩), hdep⟩
  · intro hnil
    rw [hrun, hnil]
    exact not_isMissing_mapError _
  · intro hne
    rw [hrun]
    cases hmissing : missingDependencyBlobs received with
    | nil => exact absurd hmissing hne
    | cons hash hashes => rfl

/-! ## When one resupply is enough -/

/-- The blob of `hash` depends on that of `dep`. -/
def DependsOn (ca : Program κ η) (hash dep : η) : Prop :=
  ∃ blob, (hash, blob) ∈ ca.functionStore ∧ dep ∈ blob.dependencies

/-- A blob of the closure that is sent. -/
def SentFirst (program : BytecodeProgram κ η) (ca : Program κ η) (entryHash : η)
    (knownHashes : List η) (hash : η) :
    Prop :=
  hash ∈ neededHashes program ca entryHash ∧ hash ∉ knownHashes ∧ ∃ blob, (hash, blob) ∈ ca.functionStore

/-- Whatever a left-out dependency of a blob that is sent depends on is sent, or is itself a dependency of a
blob that is sent. -/
def Covered (program : BytecodeProgram κ η) (ca : Program κ η) (entryHash : η)
    (knownHashes : List η) : Prop :=
  ∀ sent missing dep, SentFirst program ca entryHash knownHashes sent → DependsOn ca sent missing →
    missing ∈ knownHashes → DependsOn ca missing dep →
      dep ∉ knownHashes ∨ ∃ sent', SentFirst program ca entryHash knownHashes sent' ∧ DependsOn ca sent' dep

/-- One resupply is enough. Whatever the callback does, it is called twice at most, and again only after an
answer that names missing blobs. With a receiver that has nothing but what it is sent, the second request
carries every blob below those it named, and is not answered with missing blobs. -/
structure OneResupplyEnough (H : Sha256 (Body κ) η) (shortHash : η → String) (functionName : String)
    (execute : Option (Program κ η) → Except LaterError V) (program : BytecodeProgram κ η)
    (ca : Program κ η) (request : RemoteCallRequest κ η) : Prop where
  twice : ∀ (σ : Type) (send : σ → RemoteCallRequest κ η → RemoteCallResponse η V × σ) (s : σ),
    (exchanges shortHash program request send s).length ≤ 2
  afterMissing : ∀ (σ : Type) (send : σ → RemoteCallRequest κ η → RemoteCallResponse η V × σ) (s : σ)
    (first second : Exchange κ η V), exchanges shortHash program request send s = [first, second] →
      ∃ missing, first.2.retryable = some missing
  carries : ∀ (first second : Exchange κ η V) missing,
    exchanges shortHash program request
      (fun s request => (runRemoteCall H shortHash functionName execute request.transferred, s)) () =
        [first, second] →
    first.2.retryable = some missing → ∀ hash ∈ missing, ∀ dep, ReflTransGen (DependsOn ca) hash dep →
      dep ∈ second.1.functionBlobs.map Prod.fst
  answered : ∀ first second : Exchange κ η V,
    exchanges shortHash program request
      (fun s request => (runRemoteCall H shortHash functionName execute request.transferred, s)) () =
        [first, second] → ¬ second.2.IsMissing

/-- A first answer without missing blobs ends the call. -/
theorem OneResupplyEnough.of_not_missing {shortHash : η → String} {functionName : String}
    {execute : Option (Program κ η) → Except LaterError V}
    (hnot : ¬ (runRemoteCall H shortHash functionName execute request.transferred).IsMissing) :
    OneResupplyEnough H shortHash functionName execute program ca request := by
  have hlen : ∀ first second : Exchange κ η V, exchanges shortHash program request
      (fun s request => (runRemoteCall H shortHash functionName execute request.transferred, s)) () ≠
        [first, second] := by
    intro first second htwo
    rcases exchanges_cases shortHash program request
      (fun s request => (runRemoteCall H shortHash functionName execute request.transferred, s)) () with
      ⟨heq, -⟩ | ⟨missing', _, _, hretry', -⟩
    · have hlen := congrArg List.length (heq.symm.trans htwo)
      simp at hlen
    · rw [RemoteCallResponse.retryable_eq_none hnot] at hretry'
      cases hretry'
  exact ⟨fun σ send s => (exchanges_bounded ..).1, fun σ send s => (exchanges_bounded ..).2,
    fun first second _ htwo => absurd htwo (hlen first second),
    fun first second htwo => absurd htwo (hlen first second)⟩

/-! ## The first request -/

variable {entryHash : η}

/-- The first request carries the blobs of the closure that are not left out. -/
theorem Sender.negotiated (h : Sender H unit program ca lp) {f : String}
    (hentry : (buildContentAddressedProgram H unit).blobNameToHash f = some entryHash)
    (knownHashes : List η) :
    ∃ request, buildCallRequestNegotiated program entryHash knownHashes = some request ∧
      request.program = createStubProgram program ∧ request.functionHash = entryHash ∧
      Shipment ca request.functionBlobs ∧
      ∀ hash, hash ∈ request.functionBlobs.map Prod.fst ↔ SentFirst program ca entryHash knownHashes
        hash := by
  have hkeyed := h.wellKeyed
  obtain ⟨b, hb, -⟩ := (build_linked H unit).coherent.registered f _ hentry
  rw [← h.produced.store] at hb
  have hget := (FunctionStore.get_eq_some hkeyed.keys_nodup).mpr hb
  let blobs := (neededHashes program ca entryHash).filterMap fun hash =>
    (FunctionStore.get ca.functionStore hash).map fun blob => (hash, blob)
  have hblobs : buildMinimalBlobsByHash program entryHash = some blobs := by
    unfold buildMinimalBlobsByHash
    simp only [h.contentAddressed, hget]
    rfl
  -- the blobs of the closure are the stored ones among the needed hashes
  have hmem : ∀ hash blob, (hash, blob) ∈ blobs ↔
      hash ∈ neededHashes program ca entryHash ∧ (hash, blob) ∈ ca.functionStore := by
    intro hash blob
    rw [List.mem_filterMap, ← FunctionStore.get_eq_some hkeyed.keys_nodup]
    constructor
    · rintro ⟨hash', hneeded, hsome⟩
      obtain ⟨c, hc, heq⟩ := Option.map_eq_some_iff.mp hsome
      obtain ⟨rfl, rfl⟩ := Prod.mk.inj heq
      exact ⟨hneeded, hc⟩
    · rintro ⟨hneeded, hc⟩
      exact ⟨hash, hneeded, by rw [hc]; rfl⟩
  have hnodup : (blobs.map Prod.fst).Nodup := by
    have hkeys := readBack_keys_nodup program ca entryHash
    rwa [readBack, List.map_map] at hkeys
  refine ⟨⟨createStubProgram program, entryHash, blobs.filter fun e => e.1 ∉ knownHashes⟩, ?_, rfl, rfl,
    ⟨?_, ?_⟩, ?_⟩
  · unfold buildCallRequestNegotiated buildCallRequest
    rw [hblobs]
    rfl
  · exact hnodup.sublist (List.filter_sublist.map _)
  · intro e he
    exact ((hmem e.1 e.2).mp (List.mem_filter.mp he).1).2
  · intro hash
    rw [List.mem_map]
    constructor
    · rintro ⟨e, he, rfl⟩
      obtain ⟨he, hknown⟩ := List.mem_filter.mp he
      obtain ⟨hneeded, hstored⟩ := (hmem e.1 e.2).mp he
      exact ⟨hneeded, of_decide_eq_true hknown, e.2, hstored⟩
    · rintro ⟨hneeded, hknown, blob, hblob⟩
      exact ⟨(hash, blob), List.mem_filter.mpr ⟨(hmem hash blob).mpr ⟨hneeded, hblob⟩,
        decide_eq_true hknown⟩, rfl⟩

/-- Without the entry the receiver falls back on the program of the request, which has no blobs: it misses
nothing. -/
theorem not_isMissing_without_entry (H : Sha256 (Body κ) η) (shortHash : η → String) (functionName : String)
    (execute : Option (Program κ η) → Except LaterError V)
    (hstub : request.program = createStubProgram program) (hship : Shipment ca request.functionBlobs)
    (hentry : request.functionHash ∉ request.functionBlobs.map Prod.fst) :
    ¬ (runRemoteCall H shortHash functionName execute request.transferred).IsMissing := by
  have hkeys : ((request.functionBlobs.map fun e => (e.1, e.2.transferred)).map Prod.fst) =
      request.functionBlobs.map Prod.fst := by
    rw [List.map_map]
    rfl
  -- the entry is looked up among the blobs that came, and is not there
  have hnone : receivedProgram request.transferred = none := by
    have hget : (FunctionStore.get (FunctionStore.ofList request.transferred.functionBlobs)
        request.functionHash).isNone := by
      show (FunctionStore.get
        (FunctionStore.ofList (request.functionBlobs.map fun e => (e.1, e.2.transferred)))
        request.functionHash).isNone
      rw [get_isNone_iff, FunctionStore.ofList_eq (hkeys ▸ hship.nodup), List.map_reverse,
        List.mem_reverse, hkeys]
      exact hentry
    unfold receivedProgram programFromBlobsByHash
    exact if_pos hget
  -- the stub was sent with an empty store
  have hprogram : request.transferred.program.contentAddressed =
      program.contentAddressed.map fun ca => Program.transferred { ca with functionStore := [] } := by
    show request.program.contentAddressed.map Program.transferred = _
    rw [hstub]
    exact Option.map_map ..
  unfold runRemoteCall
  rw [hnone]
  dsimp only
  rw [hprogram]
  cases program.contentAddressed with
  | none => exact not_isMissing_mapError _
  | some ca => exact not_isMissing_mapError _

/-! ## The second request -/

theorem Shipment.mem_dependencies (h : Sender H unit program ca lp) {entries : List (η × Blob κ η)}
    (hship : Shipment ca entries) {dep : η} :
    (∃ e ∈ entries, dep ∈ e.2.dependencies) ↔ ∃ hash ∈ entries.map Prod.fst, DependsOn ca hash dep := by
  constructor
  · rintro ⟨e, he, hdep⟩
    exact ⟨e.1, List.mem_map.mpr ⟨e, he, rfl⟩, e.2, hship.stored e he, hdep⟩
  · rintro ⟨hash, hhash, blob, hblob, hdep⟩
    obtain ⟨e, he, rfl⟩ := List.mem_map.mp hhash
    have heq := List.inj_on_of_nodup_map h.wellKeyed.keys_nodup (hship.stored e he) hblob rfl
    exact ⟨e, he, by rw [heq]; exact hdep⟩

/-- The blobs that were missing come on top of those that were sent. -/
theorem Shipment.attach {resupply : List (η × Blob κ η)} (h : Sender H unit program ca lp)
    (hship : Shipment ca request.functionBlobs) (hnodup : (resupply.map Prod.fst).Nodup)
    (hget : ∀ e ∈ resupply, FunctionStore.get ca.functionStore e.1 = some e.2) :
    Shipment ca (request.attach resupply).functionBlobs ∧
      ∀ hash, hash ∈ (request.attach resupply).functionBlobs.map Prod.fst ↔
        hash ∈ request.functionBlobs.map Prod.fst ∨ hash ∈ resupply.map Prod.fst := by
  have hattach : (request.attach resupply).functionBlobs = request.functionBlobs ++
      resupply.filter fun e => e.1 ∉ request.functionBlobs.map Prod.fst := rfl
  rw [hattach]
  -- only blobs that were not sent before are attached
  refine ⟨⟨?_, fun e he => ?_⟩, fun hash => ?_⟩
  · rw [List.map_append, List.nodup_append]
    refine ⟨hship.nodup, hnodup.sublist (List.filter_sublist.map _), fun a ha b hb heq => ?_⟩
    obtain ⟨e, he, rfl⟩ := List.mem_map.mp hb
    exact of_decide_eq_true (List.mem_filter.mp he).2 (heq ▸ ha)
  · rcases List.mem_append.mp he with he | he
    · exact hship.stored e he
    · exact (FunctionStore.get_eq_some h.wellKeyed.keys_nodup).mp (hget e (List.mem_filter.mp he).1)
  · rw [List.map_append, List.mem_append]
    constructor
    · rintro (hhash | hhash)
      · exact Or.inl hhash
      · obtain ⟨e, he, rfl⟩ := List.mem_map.mp hhash
        exact Or.inr (List.mem_map_of_mem (List.mem_filter.mp he).1)
    · rintro (hhash | hhash)
      · exact Or.inl hhash
      · by_cases hsent : hash ∈ request.functionBlobs.map Prod.fst
        · exact Or.inl hsent
        · obtain ⟨e, he, rfl⟩ := List.mem_map.mp hhash
          exact Or.inr (List.mem_map_of_mem (List.mem_filter.mpr ⟨he, decide_eq_true hsent⟩))

/-- The blobs of the second request: those that were sent, and the dependencies of these. -/
def SentSecond (program : BytecodeProgram κ η) (ca : Program κ η) (entryHash : η) (knownHashes : List η)
    (hash : η) : Prop :=
  SentFirst program ca entryHash knownHashes hash ∨
    ∃ sent, SentFirst program ca entryHash knownHashes sent ∧ DependsOn ca sent hash

variable {knownHashes : List η}

theorem Sender.covered_iff (h : Sender H unit program ca lp)
    (hzero : NoSentinel H.zero ca (neededHashes program ca entryHash)) :
    (∀ hash dep, SentSecond program ca entryHash knownHashes hash → DependsOn ca hash dep →
      SentSecond program ca entryHash knownHashes dep) ↔ Covered program ca entryHash knownHashes := by
  -- a dependency is in the closure with its blob, so that it is sent unless it is left out
  have hbelow : ∀ {hash dep}, hash ∈ neededHashes program ca entryHash → DependsOn ca hash dep →
      dep ∈ neededHashes program ca entryHash ∧ ∃ blob, (dep, blob) ∈ ca.functionStore := by
    rintro hash dep hneeded ⟨blob, hblob, hdep⟩
    exact h.dependency_needed hzero hneeded hblob hdep
  constructor
  · intro hclosed sent missing dep hsent hmissing hknown hdep
    rcases hclosed missing dep (Or.inr ⟨sent, hsent, hmissing⟩) hdep with hfirst | hsecond
    · exact Or.inl hfirst.2.1
    · exact Or.inr hsecond
  · rintro hcovered hash dep (hfirst | ⟨sent, hsent, hhash⟩) hdep
    · exact Or.inr ⟨hash, hfirst, hdep⟩
    · obtain ⟨hneeded, -⟩ := hbelow hsent.1 hhash
      obtain ⟨hneeded', hstored⟩ := hbelow hneeded hdep
      by_cases hknown : hash ∈ knownHashes
      · rcases hcovered sent hash dep hsent hhash hknown hdep with hunknown | hother
        · exact Or.inl ⟨hneeded', hunknown, hstored⟩
        · exact Or.inr hother
      · exact Or.inr ⟨hash, ⟨hneeded, hknown, hdep.imp fun _ h => h.1⟩, hdep⟩

theorem Sender.reach_of_closed
    (hclosed : ∀ hash dep, SentSecond program ca entryHash knownHashes hash →
      DependsOn ca hash dep → SentSecond program ca entryHash knownHashes dep)
    {dep : η} (hhash : SentSecond program ca entryHash knownHashes hash)
    (hreach : ReflTransGen (DependsOn ca) hash dep) :
    SentSecond program ca entryHash knownHashes dep := by
  induction hreach with
  | refl => exact hhash
  | tail _ hdep ih => exact hclosed _ _ ih hdep

/-- **One resupply is enough exactly when no gap is two blobs deep**: whatever a left-out dependency
needs was sent, or is reported along with it. -/
theorem one_resupply_iff (H : Sha256 (Body κ) η) (unit : Compilation (Body κ))
    (program : BytecodeProgram κ η) (ca : Program κ η) (lp : LinkedProgram κ η)
    (h : Sender H unit program ca lp) (hcycles : WithoutCallCycles unit) (f : String)
    (entryHash : η)
    (hentry : (buildContentAddressedProgram H unit).blobNameToHash f = some entryHash)
    (knownHashes : List η) (shortHash : η → String) (functionName : String)
    (execute : Option (Program κ η) → Except LaterError V) :
    ∃ request, buildCallRequestNegotiated program entryHash knownHashes = some request ∧
      (OneResupplyEnough H shortHash functionName execute program ca request ↔
        entryHash ∈ knownHashes ∨ Covered program ca entryHash knownHashes) := by
  have hzero : NoSentinel H.zero ca (neededHashes program ca entryHash) :=
    h.noSentinel_of_plain hentry fun x hx _ callee hcallee => hcycles.plainCall hx hcallee
  obtain ⟨request, hrequest, hstub, hhash, hship, hkeys⟩ := h.negotiated hentry knownHashes
  refine ⟨request, hrequest, ?_⟩
  by_cases hknown : entryHash ∈ knownHashes
  · refine iff_of_true (OneResupplyEnough.of_not_missing ?_) (Or.inl hknown)
    refine not_isMissing_without_entry H shortHash functionName execute hstub hship fun hin => ?_
    exact ((hkeys _).mp hin).2.1 (hhash ▸ hknown)
  rw [or_iff_right hknown]
  obtain ⟨entry, hstored, -⟩ := (build_linked H unit).coherent.registered f _ hentry
  rw [← h.produced.store] at hstored
  have hin : request.functionHash ∈ request.functionBlobs.map Prod.fst := by
    rw [hkeys, hhash]
    exact ⟨mem_neededHashes.mpr .refl, hknown, entry, hstored⟩
  obtain ⟨missing, hnodup, hmem, hnil, hcons⟩ := h.answer shortHash functionName execute hship hin
  replace hmem : ∀ hash, hash ∈ missing ↔ ¬ SentFirst program ca entryHash knownHashes hash ∧
      ∃ sent, SentFirst program ca entryHash knownHashes sent ∧ DependsOn ca sent hash := by
    intro hash
    rw [hmem, hkeys, hship.mem_dependencies h]
    simp only [hkeys]
  by_cases hempty : missing = []
  · refine iff_of_true (.of_not_missing (hnil hempty)) ((h.covered_iff hzero).mp ?_)
    have hall : ∀ hash, SentSecond program ca entryHash knownHashes hash →
        SentFirst program ca entryHash knownHashes hash := by
      rintro hash (hfirst | hdep)
      · exact hfirst
      · by_contra hnot
        exact List.not_mem_nil (hempty ▸ (hmem hash).mpr ⟨hnot, hdep⟩)
    exact fun hash dep hsent hdep => Or.inr ⟨hash, hall hash hsent, hdep⟩
  -- the sender has all that is reported, and sends it
  have hstore : ∀ hash ∈ missing, (FunctionStore.get ca.functionStore hash).isSome := by
    intro hash hhash
    obtain ⟨-, sent, hsent, blob, hblob, hdep⟩ := (hmem hash).mp hhash
    obtain ⟨-, blob', hblob'⟩ := h.dependency_needed hzero hsent.1 hblob hdep
    rw [(FunctionStore.get_eq_some h.wellKeyed.keys_nodup).mpr hblob']
    rfl
  obtain ⟨resupply, hresupply, hresupplied, hget⟩ := resupplyBlobs_ok hstore
  obtain ⟨hship', hkeys'⟩ := hship.attach h (hresupplied ▸ hnodup) hget
  replace hkeys' : ∀ hash, hash ∈ (request.attach resupply).functionBlobs.map Prod.fst ↔
      SentSecond program ca entryHash knownHashes hash := by
    intro hash
    rw [hkeys', hresupplied, hmem, hkeys]
    unfold SentSecond
    by_cases hfirst : SentFirst program ca entryHash knownHashes hash
    · simp [hfirst]
    · simp [hfirst]
  have htwo := exchanges_two shortHash program request
    (fun s request => (runRemoteCall H shortHash functionName execute request.transferred, s)) ()
    (hcons hempty) h.contentAddressed hresupply
  have hin' : (request.attach resupply).functionHash ∈ (request.attach resupply).functionBlobs.map
      Prod.fst := by
    rw [hkeys']
    exact Or.inl ((hkeys _).mp hin)
  obtain ⟨still, -, hstill, hnil', hcons'⟩ := h.answer shortHash functionName execute hship' hin'
  replace hstill : ∀ hash, hash ∈ still ↔ ¬ SentSecond program ca entryHash knownHashes hash ∧
      ∃ sent, SentSecond program ca entryHash knownHashes sent ∧ DependsOn ca sent hash := by
    intro hash
    rw [hstill, hkeys', hship'.mem_dependencies h]
    simp only [hkeys']
  rw [← h.covered_iff hzero]
  constructor
  · intro henough hash dep hsent hdep
    by_contra hnot
    have hne : still ≠ [] := List.ne_nil_of_mem ((hstill dep).mpr ⟨hnot, hash, hsent, hdep⟩)
    obtain ⟨e, he, hkind, -⟩ := RemoteCallResponse.isMissing_of_retryable (hcons' hne)
    exact henough.answered _ _ htwo ⟨e, he, hkind⟩
  · intro hclosed
    have hstillNil : still = [] := by
      rw [List.eq_nil_iff_forall_not_mem]
      intro hash hhash
      obtain ⟨hnot, sent, hsent, hdep⟩ := (hstill hash).mp hhash
      exact hnot (hclosed sent hash hsent hdep)
    refine ⟨fun σ send s => (exchanges_bounded ..).1, fun σ send s => (exchanges_bounded ..).2, ?_, ?_⟩
    · intro first second missing' heq hretry hash hhash dep hreach
      obtain ⟨rfl, hrest⟩ := List.cons.inj (htwo.symm.trans heq)
      obtain ⟨rfl, -⟩ := List.cons.inj hrest
      obtain rfl : missing = missing' := Option.some.inj ((hcons hempty).symm.trans hretry)
      rw [hkeys']
      exact Sender.reach_of_closed hclosed (Or.inr ((hmem hash).mp hhash).2) hreach
    · intro first second heq
      obtain ⟨-, hrest⟩ := List.cons.inj (htwo.symm.trans heq)
      obtain ⟨rfl, -⟩ := List.cons.inj hrest
      exact hnil' hstillNil

end Missing

/-! ## A chain of calls -/

/-- The hashes of the named functions. -/
def chainHashes (names : List String) : List (ContentDigest (Body Unit)) :=
  names.filterMap (buildContentAddressedProgram (contentSha256 (Body Unit)) chainUnit).blobNameToHash

/-- With `h` left out, `g` is sent and reports it. -/
theorem one_resupply_chainUnit : ∃ lp entryHash request,
    Sender (contentSha256 (Body Unit)) chainUnit (compiledBytecode chainUnit)
      (compiledProgram chainUnit) lp ∧
    WithoutCallCycles chainUnit ∧
    (buildContentAddressedProgram (contentSha256 (Body Unit)) chainUnit).blobNameToHash "f" =
      some entryHash ∧
    buildCallRequestNegotiated (compiledBytecode chainUnit) entryHash (chainHashes ["h"]) = some request ∧
    (OneResupplyEnough (contentSha256 (Body Unit)) (fun _ => "") "f" (fun _ => .ok ())
      (compiledBytecode chainUnit)
        (compiledProgram chainUnit) request ↔
      entryHash ∈ chainHashes ["h"] ∨
        Covered (compiledBytecode chainUnit) (compiledProgram chainUnit) entryHash
          (chainHashes ["h"])) := by
  obtain ⟨lp, hs⟩ := sender_chainUnit
  have hsome : ((buildContentAddressedProgram (contentSha256 (Body Unit)) chainUnit).blobNameToHash
      "f").isSome = true := by decide +kernel
  obtain ⟨entryHash, hentry⟩ := Option.isSome_iff_exists.mp hsome
  obtain ⟨request, hrequest, hiff⟩ := one_resupply_iff (contentSha256 (Body Unit)) chainUnit
    (compiledBytecode chainUnit)
    (compiledProgram chainUnit) lp hs chainUnit_withoutCallCycles "f" entryHash hentry
    (chainHashes ["h"]) (fun _ => "") "f" (fun _ => .ok ())
  exact ⟨lp, entryHash, request, hs, chainUnit_withoutCallCycles, hentry, hrequest, hiff⟩

/-- **Two left-out functions in a row take two rounds**: with `g` and `h` left out the receiver
first asks for `g`, and then for `h`. -/
theorem second_request_still_missing :
    ¬ ∀ (H : Sha256 (Body Unit) (ContentDigest (Body Unit))) (unit : Compilation (Body Unit))
        (program : BytecodeProgram Unit (ContentDigest (Body Unit)))
        (ca : Program Unit (ContentDigest (Body Unit)))
        (lp : LinkedProgram Unit (ContentDigest (Body Unit))),
      Sender H unit program ca lp → WithoutCallCycles unit → ∀ f entryHash,
        (buildContentAddressedProgram H unit).blobNameToHash f = some entryHash → ∀ knownHashes request,
          buildCallRequestNegotiated program entryHash knownHashes = some request →
          ∀ (shortHash : ContentDigest (Body Unit) → String) (functionName : String)
            (execute : Option (Program Unit (ContentDigest (Body Unit))) → Except LaterError Unit),
            OneResupplyEnough H shortHash functionName execute program ca request := by
  intro hclaim
  obtain ⟨lp, hs⟩ := sender_chainUnit
  -- the two answers, evaluated: first `g` is missing, then `h`
  have hmissing : ∃ entryHash ∈ (buildContentAddressedProgram (contentSha256 (Body Unit))
      chainUnit).blobNameToHash "f",
      ∃ request ∈ buildCallRequestNegotiated (compiledBytecode chainUnit) entryHash
        (chainHashes ["g", "h"]),
        ((exchanges (fun _ => "") (compiledBytecode chainUnit) request (fun s request =>
          (runRemoteCall (contentSha256 (Body Unit)) (fun _ => "") "f"
            (fun _ => .ok ()) request.transferred, s))
            ()).map fun exchange => exchange.2.retryable) =
              [some (chainHashes ["g"]), some (chainHashes ["h"])] := by
    decide +kernel
  obtain ⟨entryHash, hentry, request, hrequest, hanswers⟩ := hmissing
  have henough := hclaim _ _ _ _ lp hs chainUnit_withoutCallCycles "f" entryHash hentry
      (chainHashes ["g", "h"])
    request hrequest (fun _ => "") "f" (fun _ => .ok ())
  obtain ⟨first, rest, hexchanges, -, hrest⟩ := List.map_eq_cons_iff.mp hanswers
  obtain ⟨second, rest', rfl, hsecond, hrest'⟩ := List.map_eq_cons_iff.mp hrest
  obtain rfl := List.map_eq_nil_iff.mp hrest'
  obtain ⟨e, he, hkind, -⟩ := RemoteCallResponse.isMissing_of_retryable hsecond
  exact henough.answered first second hexchanges ⟨e, he, hkind⟩

end ShapeLang.Bytecode
