import ShapeLang.Lib.Capped
import ShapeLang.Lib.Worklist

/-!
# ShapeLang — content-addressed function blobs

A compiled function is a blob stored under the hash of its content
(`crates/shape-vm/src/bytecode/content_addressed.rs`). The content names the blobs it calls by
their hashes, so a change to a callee re-hashes its callers, and so on up. The compiler
(`compiler_impl_initialization.rs`) resolves these hashes and propagates required permissions from
callees to callers in one joint loop:

  * `compileBlobs` — the blobs in the order they are compiled; a callee compiled later is `ZERO`;
  * `mutualEdges` — the calls that lie on a call cycle; they stay `ZERO`;
  * `depIteration`, `permIteration` — one pass of each inner loop;
  * `jointLoop` — both, each capped at ten passes, at most ten times.

What of a blob nothing here reads (instructions, constants, layout, …) is one component `body` of
type `β`. The hash function is a parameter (`Sha256`).
-/

namespace ShapeLang.Bytecode

/-! ## Permissions -/

inductive Permission where
  | fsRead | fsWrite | fsScoped
  | netConnect | netListen | netScoped
  | process | env | time | random
  | vfs | deterministic | capture | memLimited | timeLimited | outputLimited
  | ffi
  deriving DecidableEq, Repr

namespace Permission

def allVariants : List Permission :=
  [fsRead, fsWrite, fsScoped, netConnect, netListen, netScoped, process, env, time, random,
    vfs, deterministic, capture, memLimited, timeLimited, outputLimited, ffi]

def name : Permission → String
  | fsRead => "fs.read"
  | fsWrite => "fs.write"
  | fsScoped => "fs.scoped"
  | netConnect => "net.connect"
  | netListen => "net.listen"
  | netScoped => "net.scoped"
  | process => "sys.process"
  | env => "sys.env"
  | time => "sys.time"
  | random => "sys.random"
  | vfs => "sandbox.vfs"
  | deterministic => "sandbox.deterministic"
  | capture => "sandbox.capture"
  | memLimited => "sandbox.mem_limited"
  | timeLimited => "sandbox.time_limited"
  | outputLimited => "sandbox.output_limited"
  | ffi => "ffi.call"

theorem mem_allVariants (p : Permission) : p ∈ allVariants := by cases p <;> decide

theorem name_injective : Function.Injective name := by
  intro p q h
  have hnodup : (allVariants.map name).Nodup := by decide
  exact List.inj_on_of_nodup_map hnodup (mem_allVariants p) (mem_allVariants q) h

end Permission

abbrev PermissionSet := Finset Permission

/-- The members in the order of the ordered set. -/
def PermissionSet.iter (s : PermissionSet) : List Permission :=
  Permission.allVariants.filter (· ∈ s)

theorem PermissionSet.names_injective {s t : PermissionSet}
    (h : s.iter.map Permission.name = t.iter.map Permission.name) : s = t := by
  have hiter : s.iter = t.iter := List.map_injective_iff.mpr Permission.name_injective h
  ext p
  have hmem : ∀ u : PermissionSet, p ∈ u.iter ↔ p ∈ u := by
    intro u
    simp [PermissionSet.iter, Permission.mem_allVariants]
  rw [← hmem s, hiter, hmem t]

/-! ## Blobs and their hashes -/

structure FunctionBlob (β η : Type) where
  contentHash : η
  name : String
  requiredPermissions : PermissionSet
  body : β
  /-- Hashes of the callees, aligned with `calleeNames`. -/
  dependencies : List η
  calleeNames : List String
  deriving DecidableEq

structure FunctionBlobHashInput (β η : Type) where
  name : String
  body : β
  dependencies : List η
  requiredPermissionNames : List String
  deriving DecidableEq

/-- SHA-256 over the serialised input, as far as the compiler relies on it: different inputs have
different digests, and none of them is the sentinel. -/
structure Sha256 (β η : Type) where
  zero : η
  digest : FunctionBlobHashInput β η → η
  digest_injective : Function.Injective digest
  digest_ne_zero : ∀ input, digest input ≠ zero

variable {β η : Type}

namespace FunctionBlob

def computeHash (H : Sha256 β η) (blob : FunctionBlob β η) : η :=
  H.digest ⟨blob.name, blob.body, blob.dependencies,
    blob.requiredPermissions.iter.map Permission.name⟩

def finalize (H : Sha256 β η) (blob : FunctionBlob β η) : FunctionBlob β η :=
  { blob with contentHash := blob.computeHash H }

end FunctionBlob

/-- What the builder of a function has gathered when its body is compiled. -/
structure FunctionBlobBuilder (β : Type) where
  name : String
  calledFunctions : List String
  requiredPermissions : PermissionSet
  body : β
  deriving DecidableEq

def FunctionBlobBuilder.finalize (H : Sha256 β η) (builder : FunctionBlobBuilder β)
    (blobNameToHash : String → Option η) : FunctionBlob β η :=
  FunctionBlob.finalize H
    { contentHash := H.zero
      name := builder.name
      requiredPermissions := builder.requiredPermissions
      body := builder.body
      dependencies := builder.calledFunctions.map fun callee =>
        (blobNameToHash callee).getD H.zero
      calleeNames := builder.calledFunctions }

/-! ## The store -/

/-- The hash map of blobs, as its entries in some order. -/
abbrev FunctionStore (β η : Type) := List (η × FunctionBlob β η)

section Store

variable [DecidableEq η]

def FunctionStore.get (store : FunctionStore β η) (hash : η) : Option (FunctionBlob β η) :=
  (store.find? (·.1 = hash)).map Prod.snd

def FunctionStore.remove (store : FunctionStore β η) (hash : η) : FunctionStore β η :=
  store.filter (·.1 ≠ hash)

def FunctionStore.insert (store : FunctionStore β η) (hash : η) (blob : FunctionBlob β η) :
    FunctionStore β η :=
  (hash, blob) :: store.remove hash

/-- Write through `get_mut`: the entry keeps its key. -/
def FunctionStore.set (store : FunctionStore β η) (hash : η) (blob : FunctionBlob β η) :
    FunctionStore β η :=
  store.map fun e => if e.1 = hash then (hash, blob) else e

end Store

structure LinkState (β η : Type) where
  functionStore : FunctionStore β η
  blobNameToHash : String → Option η

/-- A compilation: its functions in the order their bodies are finished, `__main__` last. Functions
are called by name, so names are distinct. -/
structure Compilation (β : Type) where
  builders : List (FunctionBlobBuilder β)
  names_nodup : (builders.map (·.name)).Nodup

section Compile

variable [DecidableEq η] (H : Sha256 β η)

/-- Finish one function: finalize, register its name, store it. -/
def compileBlob (st : LinkState β η) (builder : FunctionBlobBuilder β) : LinkState β η :=
  let blob := builder.finalize H st.blobNameToHash
  { functionStore := FunctionStore.insert st.functionStore blob.contentHash blob
    blobNameToHash := Function.update st.blobNameToHash blob.name (some blob.contentHash) }

def compileBlobs (unit : Compilation β) : LinkState β η :=
  unit.builders.foldl (compileBlob H) { functionStore := [], blobNameToHash := fun _ => none }

end Compile

/-! ## Call cycles -/

/-- The call graph without self-calls. -/
def callAdj (store : FunctionStore β η) : List (String × String) :=
  store.flatMap fun e => (e.2.calleeNames.filter (· ≠ e.2.name)).map (e.2.name, ·)

/-- The search from `source` stops when it takes `target` from its stack. -/
def reaches (adj : List (String × String)) (source target : String) : Bool :=
  target ∈ Worklist.collect adj (· == target) [source]

/-- The calls `a → b` for which `b` reaches `a`. -/
def mutualEdges (store : FunctionStore β η) : List (String × String) :=
  (callAdj store).filter fun e => reaches (callAdj store) e.2 e.1

/-! ## The joint loop -/

section Loop

variable [DecidableEq η] (H : Sha256 β η) (cyclic : List (String × String))

def maxIterations : Nat := 10

/-- What becomes of one dependency: self-calls and cycle edges are not resolved. -/
def resolveDep (st : LinkState β η) (blobName callee : String) (dep : η) : η :=
  if callee = blobName then dep
  else if (blobName, callee) ∈ cyclic then H.zero
  else (st.blobNameToHash callee).getD dep

def resolveDeps (st : LinkState β η) (blob : FunctionBlob β η) : List η :=
  blob.dependencies.zipIdx.map fun (dep, i) =>
    match blob.calleeNames[i]? with
    | some callee => resolveDep H cyclic st blob.name callee dep
    | none => dep

/-- Move a re-hashed blob to its new key and register its hash. -/
def rekey (st : LinkState β η) (entry : η × FunctionBlob β η) : LinkState β η :=
  { functionStore :=
      FunctionStore.insert (FunctionStore.remove st.functionStore entry.1)
        entry.2.contentHash entry.2
    blobNameToHash := Function.update st.blobNameToHash entry.2.name (some entry.2.contentHash) }

/-- The blobs whose dependencies change, with the hash they were stored under. -/
def recomputed (st : LinkState β η) : List (η × FunctionBlob β η) :=
  st.functionStore.filterMap fun e =>
    let deps := resolveDeps H cyclic st e.2
    if deps = e.2.dependencies then none
    else
      let updated := FunctionBlob.finalize H { e.2 with dependencies := deps }
      if updated.contentHash ≠ e.2.contentHash then some (e.2.contentHash, updated) else none

def depIteration (st : LinkState β η) : LinkState β η × Bool :=
  ((recomputed H cyclic st).foldl rekey st, !(recomputed H cyclic st).isEmpty)

/-- A blob's permissions and those of the dependencies that are in the store. -/
def accumulated (st : LinkState β η) (blob : FunctionBlob β η) : PermissionSet :=
  blob.dependencies.foldl (fun acc dep =>
    match FunctionStore.get st.functionStore dep with
    | some depBlob => acc ∪ depBlob.requiredPermissions
    | none => acc) blob.requiredPermissions

def permUpdates (st : LinkState β η) : List (η × PermissionSet) :=
  st.functionStore.filterMap fun e =>
    if accumulated st e.2 ≠ e.2.requiredPermissions then some (e.1, accumulated st e.2) else none

/-- Write one blob's permissions in place; note it when its hash has changed. -/
def writePermissions (r : FunctionStore β η × List (η × FunctionBlob β η))
    (update : η × PermissionSet) : FunctionStore β η × List (η × FunctionBlob β η) :=
  match FunctionStore.get r.1 update.1 with
  | none => r
  | some blob =>
      let blob' := FunctionBlob.finalize H { blob with requiredPermissions := update.2 }
      (FunctionStore.set r.1 update.1 blob',
        if blob'.contentHash ≠ blob.contentHash then r.2 ++ [(blob.contentHash, blob')] else r.2)

def permIteration (st : LinkState β η) : LinkState β η × Bool :=
  let written := (permUpdates st).foldl (writePermissions H) (st.functionStore, [])
  (written.2.foldl rekey { st with functionStore := written.1 }, !(permUpdates st).isEmpty)

def jointIteration (st : LinkState β η) : LinkState β η × Bool :=
  let deps := Capped.run (depIteration H cyclic) maxIterations st
  let perms := Capped.run (permIteration H) maxIterations deps.1
  (perms.1, deps.2 || perms.2)

end Loop

def jointLoop [DecidableEq η] (H : Sha256 β η) (st : LinkState β η) : LinkState β η :=
  (Capped.run (jointIteration H (mutualEdges st.functionStore)) maxIterations st).1

/-- The blobs of a finished compilation. -/
def buildContentAddressedProgram [DecidableEq η] (H : Sha256 β η) (unit : Compilation β) :
    LinkState β η :=
  jointLoop H (compileBlobs H unit)

end ShapeLang.Bytecode
