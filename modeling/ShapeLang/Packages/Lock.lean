import ShapeLang.Lib.Delimited
import ShapeLang.Lib.OrderedMap
import ShapeLang.Lib.Runs
import ShapeLang.Packages.Registry

/-!
# The lockfile

`shape.lock` holds the resolved packages and a cache of compile-time artifacts
(`crates/shape-runtime/src/package_lock.rs`). An artifact is found again by the hash of its inputs,
so the hash decides whether it is up to date.

The hash is taken over one map: the fingerprints of an external artifact are merged into its inputs
under prefixed keys. What is there wins, and a new artifact keeps the merged map as its inputs, so
that hashing it again gives the same. The merged map is written as key, `0`, value, `0xff` for each
entry. No string holds `0xff`, and a key without NUL ends at the first `0`: then the bytes determine
the merged map.

SHA-256 comes from a crate and is a parameter; the payload is kept as text.
-/

namespace ShapeLang.Packages

open Lib

/-! ## Data -/

inductive LockedSource where
  | path (path : String)
  | git (url rev : String)
  | registry (version : String) (registry path : Option String)
  deriving DecidableEq

structure LockedPackage where
  name : String
  version : String
  source : LockedSource
  contentHash : String
  dependencies : List String
  deriving DecidableEq

abbrev Inputs := OrderedMap String String

inductive ArtifactDeterminism where
  | hermetic
  | external (fingerprints : Inputs)

structure LockedArtifact where
  nameSpace : String
  key : String
  producer : String
  determinism : ArtifactDeterminism
  inputs : Inputs
  inputsHash : String
  createdAt : String
  payloadJson : String

structure PackageLock where
  version : String
  packages : List LockedPackage
  artifacts : List LockedArtifact

/-! ## Hashing -/

namespace ArtifactDeterminism

/-- The fingerprints; a hermetic artifact has none. -/
def fingerprints : ArtifactDeterminism → Inputs
  | .hermetic => .empty
  | .external fingerprints => fingerprints

def validate : ArtifactDeterminism → Except String Unit
  | .hermetic => .ok ()
  | .external fingerprints =>
    if fingerprints.entries.isEmpty then
      .error "external artifact determinism requires at least one fingerprint"
    else .ok ()

def mergedKey (key : String) : String := "external::" ++ key

def augmentInputs (determinism : ArtifactDeterminism) (inputs : Inputs) : Inputs :=
  match determinism with
  | .hermetic => inputs
  | .external fingerprints =>
    fingerprints.entries.foldl (fun inputs entry => inputs.orInsert (mergedKey entry.1) entry.2) inputs

end ArtifactDeterminism

/-- `{:x}` of a byte. -/
def hexByte (byte : UInt8) : List Char := [Nat.digitChar (byte.toNat / 16), Nat.digitChar (byte.toNat % 16)]

/-- `{:x}` of a digest. -/
def lowerHex (bytes : List UInt8) : String := String.ofList (bytes.flatMap hexByte)

/-- What `hash_inputs` feeds to the hasher for an entry, but for the closing `0xff`. -/
def entryBytes (entry : String × String) : List UInt8 := utf8 entry.1 ++ 0 :: utf8 entry.2

def inputBytes (inputs : Inputs) : List UInt8 :=
  inputs.entries.flatMap fun entry => entryBytes entry ++ [0xff]

section

variable (sha256 : List UInt8 → List UInt8)

def hashInputs (inputs : Inputs) : String := "sha256:" ++ lowerHex (sha256 (inputBytes inputs))

def artifactInputsHash (inputs : Inputs) (determinism : ArtifactDeterminism) : Except String String := do
  determinism.validate
  .ok (hashInputs sha256 (determinism.augmentInputs inputs))

/-! ## Artifacts -/

/-- The payload has been encoded; `createdAt` is the time of the call. -/
def LockedArtifact.new (nameSpace key producer : String) (determinism : ArtifactDeterminism)
    (inputs : Inputs) (createdAt payloadJson : String) : Except String LockedArtifact := do
  determinism.validate
  let inputs := determinism.augmentInputs inputs
  .ok { nameSpace, key, producer, determinism, inputs, inputsHash := hashInputs sha256 inputs
        createdAt, payloadJson }

namespace PackageLock

def new : PackageLock := { version := "1", packages := [], artifacts := [] }

def requiresExternalDeterminism (nameSpace producer : String) : Bool :=
  ["schema.infer"].contains nameSpace
    || ["external.", "comptime.external."].any (fun start => start.isPrefixOf nameSpace)
    || ["shape-runtime/schema_inference@v1"].contains producer

def validateArtifact (artifact : LockedArtifact) : Except String Unit := do
  artifact.determinism.validate
  let expectedHash ← artifactInputsHash sha256 artifact.inputs artifact.determinism
  let nameSpace := artifact.nameSpace
  let key := artifact.key
  if artifact.inputsHash ≠ expectedHash then .error s!"artifact inputs_hash mismatch for {nameSpace}:{key}"
  else
    match requiresExternalDeterminism nameSpace artifact.producer, artifact.determinism with
    | true, .hermetic =>
      .error s!"artifact {nameSpace}:{key} must declare external determinism fingerprints"
    | _, _ => .ok ()

/-- The first artifact that matches is replaced; without one the new artifact goes to the end. -/
def replaceOrPush (isSlot : LockedArtifact → Bool) (artifact : LockedArtifact) :
    List LockedArtifact → List LockedArtifact
  | [] => [artifact]
  | existing :: rest =>
    if isSlot existing then artifact :: rest else existing :: replaceOrPush isSlot artifact rest

/-- By `(namespace, key)`. -/
def upsertArtifact (lock : PackageLock) (artifact : LockedArtifact) : Except String PackageLock := do
  validateArtifact sha256 artifact
  let isSlot (existing : LockedArtifact) : Bool :=
    existing.nameSpace = artifact.nameSpace && existing.key = artifact.key
  .ok { lock with artifacts := replaceOrPush isSlot artifact lock.artifacts }

/-- By `(namespace, key, inputs_hash)`. -/
def upsertArtifactVariant (lock : PackageLock) (artifact : LockedArtifact) : Except String PackageLock := do
  validateArtifact sha256 artifact
  let isSlot (existing : LockedArtifact) : Bool :=
    existing.nameSpace = artifact.nameSpace && existing.key = artifact.key && existing.inputsHash =
      artifact.inputsHash
  .ok { lock with artifacts := replaceOrPush isSlot artifact lock.artifacts }

def artifact (lock : PackageLock) (nameSpace key inputsHash : String) : Option LockedArtifact :=
  lock.artifacts.find? fun found => found.nameSpace = nameSpace && found.key = key &&
    found.inputsHash = inputsHash

end PackageLock

end

/-! ## What the hash determines -/

/-- No key holds a NUL. -/
def Inputs.NulFree (inputs : Inputs) : Prop := ∀ key ∈ inputs.keys, '\x00' ∉ key.toList

theorem hexByte_injective : Function.Injective hexByte := by
  have hdigit : ∀ a b : Fin 16, Nat.digitChar a = Nat.digitChar b → a = b := by decide
  intro a b h
  obtain ⟨hhigh, hlow⟩ := List.cons.inj h
  have ha := a.toNat_lt
  have hb := b.toNat_lt
  have hdiv := hdigit ⟨a.toNat / 16, by omega⟩ ⟨b.toNat / 16, by omega⟩ hhigh
  have hmod := hdigit ⟨a.toNat % 16, by omega⟩ ⟨b.toNat % 16, by omega⟩ (List.cons.inj hlow).1
  rw [Fin.mk.injEq] at hdiv hmod
  apply UInt8.toNat_inj.mp
  omega

theorem lowerHex_injective : Function.Injective lowerHex := by
  intro xs ys h
  have hchars : xs.flatMap hexByte = ys.flatMap hexByte := by
    simpa [lowerHex] using congrArg String.toList h
  clear h
  induction xs generalizing ys with
  | nil =>
    cases ys with
    | nil => rfl
    | cons y ys => simp [hexByte] at hchars
  | cons x xs ih =>
    cases ys with
    | nil => simp [hexByte] at hchars
    | cons y ys =>
      rw [List.flatMap_cons, List.flatMap_cons] at hchars
      -- Every byte takes two characters.
      obtain ⟨hhead, htail⟩ := List.append_inj hchars rfl
      rw [hexByte_injective hhead, ih htail]

theorem hashInputs_inj {sha256 : List UInt8 → List UInt8} (hsha : Function.Injective sha256)
    {a b : Inputs} :
    hashInputs sha256 a = hashInputs sha256 b ↔ inputBytes a = inputBytes b := by
  refine ⟨fun h => ?_, fun h => by rw [hashInputs, hashInputs, h]⟩
  exact hsha (lowerHex_injective ((String.append_right_inj _).mp h))

theorem entryBytes_inj {a b : String × String} (ha : '\x00' ∉ a.1.toList) (hb : '\x00' ∉ b.1.toList)
    (h : entryBytes a = entryBytes b) : a = b := by
  have hzero : (0 : UInt8) ∉ utf8 a.1 := fun hmem => ha (zero_mem_utf8 hmem)
  have hzero' : (0 : UInt8) ∉ utf8 b.1 := fun hmem => hb (zero_mem_utf8 hmem)
  obtain ⟨hkey, hvalue⟩ := (append_delimiter_inj hzero hzero').mp h
  exact Prod.ext (utf8_injective hkey) (utf8_injective hvalue)

theorem ff_notMem_entryBytes (entry : String × String) : (0xff : UInt8) ∉ entryBytes entry := by
  unfold entryBytes
  rw [List.mem_append, List.mem_cons]
  rintro (hkey | hzero | hvalue)
  · exact ff_notMem_utf8 _ hkey
  · cases hzero
  · exact ff_notMem_utf8 _ hvalue

theorem inputBytes_inj {a b : Inputs} (ha : a.NulFree) (hb : b.NulFree)
    (h : inputBytes a = inputBytes b) : a = b := by
  have hentries : a.entries = b.entries :=
    flatMap_delimited_inj (fun entry : String × String => '\x00' ∉ entry.1.toList) ff_notMem_entryBytes
      (fun _ _ hx hy => entryBytes_inj hx hy) (fun entry hmem => ha _ (List.mem_map_of_mem hmem))
      (fun entry hmem => hb _ (List.mem_map_of_mem hmem)) h
  refine OrderedMap.ext_lookup fun key => ?_
  rw [OrderedMap.lookup, OrderedMap.lookup, hentries]

/-! ### The merged map -/

namespace ArtifactDeterminism

theorem mergedKey_injective : Function.Injective mergedKey := fun _ _ h => (String.append_right_inj _).mp h

/-- The entries in turn: what is there stays, and the first entry of a key comes in. -/
theorem lookup_foldl_orInsert (entries : List (String × String)) (inputs : Inputs) (key : String) :
    (entries.foldl (fun inputs entry => inputs.orInsert (mergedKey entry.1) entry.2) inputs).lookup key =
      (inputs.lookup key).or ((entries.find? fun entry => mergedKey entry.1 = key).map Prod.snd) := by
  induction entries generalizing inputs with
  | nil => simp
  | cons entry entries ih =>
    rw [List.foldl_cons, ih, OrderedMap.lookup_orInsert, Option.or_assoc]
    congr 1
    by_cases hkey : mergedKey entry.1 = key
    · rw [if_pos hkey.symm, List.find?_cons_of_pos (by simpa using hkey)]
      rfl
    · rw [if_neg (Ne.symm hkey), List.find?_cons_of_neg (by simpa using hkey), Option.none_or]

variable (determinism : ArtifactDeterminism)

theorem lookup_augmentInputs (inputs : Inputs) (key : String) :
    (determinism.augmentInputs inputs).lookup key =
      (inputs.lookup key).or
        ((determinism.fingerprints.entries.find? fun entry => mergedKey entry.1 = key).map
        Prod.snd) := by
  cases determinism with
  | hermetic => exact Option.or_none.symm
  | external fingerprints => exact lookup_foldl_orInsert fingerprints.entries inputs key

theorem lookup_augmentInputs_mergedKey (inputs : Inputs) (key : String) :
    (determinism.augmentInputs inputs).lookup (mergedKey key) =
      (inputs.lookup (mergedKey key)).or (determinism.fingerprints.lookup key) := by
  have hkeys : (fun entry : String × String => decide (mergedKey entry.1 = mergedKey key)) =
      fun entry => decide (entry.1 = key) := by
    funext entry
    exact decide_eq_decide.mpr mergedKey_injective.eq_iff
  rw [lookup_augmentInputs, hkeys]
  rfl

theorem lookup_augmentInputs_of_ne {key : String} (hne : ∀ k, key ≠ mergedKey k)
    (determinism : ArtifactDeterminism) (inputs : Inputs) :
    (determinism.augmentInputs inputs).lookup key = inputs.lookup key := by
  have hnone : determinism.fingerprints.entries.find? (fun entry => mergedKey entry.1 = key) = none :=
    List.find?_eq_none.mpr fun entry _ => by simpa using Ne.symm (hne entry.1)
  rw [lookup_augmentInputs, hnone]
  exact Option.or_none

/-- Merging once more changes nothing: a new artifact hashes the same with the inputs that it keeps. -/
theorem augmentInputs_idem (inputs : Inputs) :
    determinism.augmentInputs (determinism.augmentInputs inputs) = determinism.augmentInputs inputs := by
  refine OrderedMap.ext_lookup fun key => ?_
  rw [lookup_augmentInputs, lookup_augmentInputs, Option.or_assoc, Option.or_self]

theorem nulFree_augmentInputs {determinism : ArtifactDeterminism} {inputs : Inputs}
    (hinputs : inputs.NulFree) (hfingerprints : determinism.fingerprints.NulFree) :
    (determinism.augmentInputs inputs).NulFree := by
  intro key hmem
  rw [OrderedMap.mem_keys_iff] at hmem
  by_cases hmerged : ∃ k, key = mergedKey k
  · obtain ⟨k, rfl⟩ := hmerged
    rw [lookup_augmentInputs_mergedKey] at hmem
    cases hlookup : inputs.lookup (mergedKey k) with
    | some value => exact hinputs _ (OrderedMap.mem_keys_iff.mpr (by rw [hlookup]; rfl))
    | none =>
      rw [hlookup, Option.none_or] at hmem
      have hfree := hfingerprints k (OrderedMap.mem_keys_iff.mpr hmem)
      unfold mergedKey
      rw [String.toList_append, List.mem_append]
      rintro (hstart | hrest)
      · exact absurd hstart (by decide)
      · exact hfree hrest
  · rw [lookup_augmentInputs_of_ne fun k heq => hmerged ⟨k, heq⟩] at hmem
    exact hinputs key (OrderedMap.mem_keys_iff.mpr hmem)

/-- No input has a key that a fingerprint could take. -/
def Apart (inputs : Inputs) : Prop := ∀ key, inputs.lookup (mergedKey key) = none

/-- From inputs that keep apart, the merged map tells both maps. -/
theorem augmentInputs_inj {a b : Inputs} {da db : ArtifactDeterminism} (ha : Apart a) (hb : Apart b)
    (h : da.augmentInputs a = db.augmentInputs b) : a = b ∧ da.fingerprints = db.fingerprints := by
  constructor
  · refine OrderedMap.ext_lookup fun key => ?_
    by_cases hmerged : ∃ k, key = mergedKey k
    · obtain ⟨k, rfl⟩ := hmerged
      rw [ha k, hb k]
    · have hne : ∀ k, key ≠ mergedKey k := fun k heq => hmerged ⟨k, heq⟩
      rw [← lookup_augmentInputs_of_ne hne da a, h, lookup_augmentInputs_of_ne hne]
  · refine OrderedMap.ext_lookup fun key => ?_
    have hlookup := lookup_augmentInputs_mergedKey da a key
    rw [h, lookup_augmentInputs_mergedKey, ha key, hb key, Option.none_or, Option.none_or] at hlookup
    exact hlookup.symm

end ArtifactDeterminism

/-! ### Hashes -/

section

variable {sha256 : List UInt8 → List UInt8}

theorem artifactInputsHash_of_valid {determinism : ArtifactDeterminism} (h : determinism.validate = .ok ())
    (inputs : Inputs) :
    artifactInputsHash sha256 inputs determinism = .ok
      (hashInputs sha256 (determinism.augmentInputs inputs)) := by
  unfold artifactInputsHash
  rw [h]
  rfl

theorem artifactInputsHash_inj (hsha : Function.Injective sha256) {a b : Inputs}
    {da db : ArtifactDeterminism} (hda : da.validate = .ok ()) (hdb : db.validate = .ok ())
    (ha : a.NulFree) (hfa : da.fingerprints.NulFree) (hb : b.NulFree)
    (hfb : db.fingerprints.NulFree) :
    artifactInputsHash sha256 a da = artifactInputsHash sha256 b db ↔ da.augmentInputs a =
      db.augmentInputs b := by
  rw [artifactInputsHash_of_valid hda, artifactInputsHash_of_valid hdb, Except.ok.injEq,
    hashInputs_inj hsha]
  have hma := ArtifactDeterminism.nulFree_augmentInputs ha hfa
  have hmb := ArtifactDeterminism.nulFree_augmentInputs hb hfb
  exact ⟨inputBytes_inj hma hmb, fun h => by rw [h]⟩

/-- A map with one entry. -/
def Inputs.single (key value : String) : Inputs := OrderedMap.empty.orInsert key value

/-! ### The artifacts of a lock -/

variable {artifact : LockedArtifact}

theorem validateArtifact_eq_ok (h : PackageLock.validateArtifact sha256 artifact = .ok ()) :
    artifact.determinism.validate = .ok () ∧
      artifactInputsHash sha256 artifact.inputs artifact.determinism = .ok artifact.inputsHash := by
  unfold PackageLock.validateArtifact at h
  obtain ⟨valid, hvalid, h⟩ := Fallible.bind_eq_ok.mp h
  obtain ⟨expected, hexpected, h⟩ := Fallible.bind_eq_ok.mp h
  split at h
  · cases h
  · rename_i hmatch
    rw [not_not] at hmatch
    rw [hmatch]
    exact ⟨hvalid, hexpected⟩

theorem mem_replaceOrPush {isSlot : LockedArtifact → Bool} {found : LockedArtifact}
    {artifacts : List LockedArtifact}
    (h : found ∈ PackageLock.replaceOrPush isSlot artifact artifacts) :
    found = artifact ∨ found ∈ artifacts := by
  induction artifacts with
  | nil => exact Or.inl (List.mem_singleton.mp h)
  | cons existing rest ih =>
    unfold PackageLock.replaceOrPush at h
    split at h
    · exact (List.mem_cons.mp h).imp_right (List.mem_cons_of_mem _)
    · rcases List.mem_cons.mp h with rfl | hrest
      · exact Or.inr List.mem_cons_self
      · exact (ih hrest).imp_right (List.mem_cons_of_mem _)

/-- The two ways to put an artifact into a lock. -/
inductive Upsert where
  | artifact (artifact : LockedArtifact)
  | variant (artifact : LockedArtifact)

/-- A refused artifact leaves the lock as it is. -/
def PackageLock.upsert (sha256 : List UInt8 → List UInt8) (lock : PackageLock) : Upsert → PackageLock
  | .artifact artifact => ((lock.upsertArtifact sha256 artifact).toOption).getD lock
  | .variant artifact => ((lock.upsertArtifactVariant sha256 artifact).toOption).getD lock

def PackageLock.Validated (sha256 : List UInt8 → List UInt8) (lock : PackageLock) : Prop :=
  ∀ artifact ∈ lock.artifacts, PackageLock.validateArtifact sha256 artifact = .ok ()

variable {lock : PackageLock}

theorem validated_replaceOrPush (hlock : lock.Validated sha256)
    (h : PackageLock.validateArtifact sha256 artifact = .ok ()) (isSlot : LockedArtifact → Bool) :
    PackageLock.Validated sha256
      { lock with artifacts := PackageLock.replaceOrPush isSlot artifact lock.artifacts } := by
  intro found hmem
  rcases mem_replaceOrPush hmem with rfl | hold
  · exact h
  · exact hlock found hold

theorem validated_getD (hlock : lock.Validated sha256) {outcome : Except String PackageLock}
    (h : ∀ next, outcome = .ok next → next.Validated sha256) :
    (outcome.toOption.getD lock).Validated sha256 := by
  cases outcome with
  | error e => exact hlock
  | ok next => exact h next rfl

theorem validated_upsert (hlock : lock.Validated sha256) (upsert : Upsert) :
    (lock.upsert sha256 upsert).Validated sha256 := by
  cases upsert with
  | artifact artifact =>
    refine validated_getD hlock fun next hnext => ?_
    obtain ⟨done, hvalid, hnext⟩ := Fallible.bind_eq_ok.mp hnext
    rw [← Except.ok.inj hnext]
    exact validated_replaceOrPush hlock hvalid _
  | variant artifact =>
    refine validated_getD hlock fun next hnext => ?_
    obtain ⟨done, hvalid, hnext⟩ := Fallible.bind_eq_ok.mp hnext
    rw [← Except.ok.inj hnext]
    exact validated_replaceOrPush hlock hvalid _

/-- Keys without NUL in the inputs and in the fingerprints. -/
def NulFreeKeys (inputs : Inputs) (determinism : ArtifactDeterminism) : Prop :=
  inputs.NulFree ∧ determinism.fingerprints.NulFree

/-- Where no key holds a NUL: the hash is equal exactly when the merged maps are, and then both maps
are equal if the inputs keep apart from the prefixed keys; an artifact that a lock gives for a hash
has the merged map that was hashed. -/
theorem inputs_hash_determines_merged_inputs (hsha : Function.Injective sha256) :
    (∀ a da b db, da.validate = .ok () → db.validate = .ok () → NulFreeKeys a da → NulFreeKeys b db →
      (artifactInputsHash sha256 a da = artifactInputsHash sha256 b db ↔ da.augmentInputs a =
        db.augmentInputs b) ∧
      (ArtifactDeterminism.Apart a → ArtifactDeterminism.Apart b →
        artifactInputsHash sha256 a da = artifactInputsHash sha256 b db → a = b ∧ da.fingerprints =
          db.fingerprints)) ∧
    (∀ (upserts : List Upsert) nameSpace key inputs determinism hash found,
      artifactInputsHash sha256 inputs determinism = .ok hash →
      (upserts.foldl (PackageLock.upsert sha256) .new).artifact nameSpace key hash = some found →
      NulFreeKeys inputs determinism → NulFreeKeys found.inputs found.determinism →
      found.determinism.augmentInputs found.inputs = determinism.augmentInputs inputs) := by
  constructor
  · intro a da b db hda hdb ha hb
    have hiff := artifactInputsHash_inj hsha hda hdb ha.1 ha.2 hb.1 hb.2
    exact ⟨hiff, fun haparta hapartb h => ArtifactDeterminism.augmentInputs_inj haparta hapartb (hiff.mp h)⟩
  · intro upserts nameSpace key inputs determinism hash found hhash hfound hkeys hfoundkeys
    -- every stored artifact was validated when it was put in
    have hlock : Throughout (PackageLock.upsert sha256) .new upserts (PackageLock.Validated sha256) :=
      throughout_of_invariant (fun lock upsert h => validated_upsert h upsert) fun artifact hmem =>
        by cases hmem
    unfold PackageLock.artifact at hfound
    obtain ⟨hvalid, hstored⟩ := validateArtifact_eq_ok (hlock.last found (List.mem_of_find?_eq_some hfound))
    have hsame : found.inputsHash = hash := by
      have hmatch := List.find?_some hfound
      simp only [Bool.and_eq_true, decide_eq_true_eq] at hmatch
      exact hmatch.2
    have hdeterminism : determinism.validate = .ok () := by
      unfold artifactInputsHash at hhash
      obtain ⟨done, hdone, -⟩ := Fallible.bind_eq_ok.mp hhash
      exact hdone
    refine (artifactInputsHash_inj hsha hvalid hdeterminism hfoundkeys.1 hfoundkeys.2 hkeys.1 hkeys.2).mp ?_
    rw [hstored, hhash, hsame]

end

/-! ### Finding an artifact again -/

namespace PackageLock

variable {sha256 : List UInt8 → List UInt8} {artifact : LockedArtifact}

/-- Accepted, and where `artifact` looks. -/
def acceptsAt (sha256 : List UInt8 → List UInt8) (nameSpace key hash : String)
    (artifact : LockedArtifact) : Bool :=
  (validateArtifact sha256 artifact).isOk &&
    (artifact.nameSpace = nameSpace && artifact.key = key && artifact.inputsHash = hash)

theorem find?_replaceOrPush {isSlot test : LockedArtifact → Bool}
    (htest : ∀ found, test found → isSlot found = test artifact) (artifacts : List LockedArtifact) :
    (replaceOrPush isSlot artifact artifacts).find? test =
      if test artifact then some artifact else artifacts.find? test := by
  induction artifacts with
  | nil => cases hfound : test artifact <;> simp [replaceOrPush, hfound]
  | cons existing rest ih =>
    unfold replaceOrPush
    grind

variable (lock : PackageLock) (nameSpace key hash : String)

theorem artifact_upsertVariant (artifact : LockedArtifact) :
    (lock.upsert sha256 (.variant artifact)).artifact nameSpace key hash =
      if acceptsAt sha256 nameSpace key hash artifact then some artifact
        else lock.artifact nameSpace key hash := by
  unfold acceptsAt
  simp only [upsert, upsertArtifactVariant]
  cases validateArtifact sha256 artifact with
  | error error => rfl
  | ok done =>
    refine (find?_replaceOrPush (fun found hfound => ?_) lock.artifacts).trans ?_
    · grind
    · rfl

/-- The last variant that was accepted for a namespace, a key and a hash is the one that is found. -/
theorem last_variant_found (variants : List LockedArtifact) :
    ((variants.map Upsert.variant).foldl (upsert sha256) lock).artifact nameSpace key hash =
      (variants.reverse.find? (acceptsAt sha256 nameSpace key hash)).or
        (lock.artifact nameSpace key hash) := by
  induction variants generalizing lock with
  | nil => rfl
  | cons artifact variants ih =>
    rw [List.map_cons, List.foldl_cons, ih, artifact_upsertVariant, List.reverse_cons,
      List.find?_append, Option.or_assoc]
    congr 1
    split
    · rename_i hfound
      rw [List.find?_cons_of_pos hfound, Option.some_or]
    · rename_i hnot
      rw [List.find?_cons_of_neg hnot]
      rfl

/-- A new artifact has the hash of the inputs that it was made from, and is accepted unless it has
to be external and is not: it keeps the merged map, and merging once more changes nothing. -/
theorem new_artifact_accepted (producer createdAt payloadJson : String) (determinism : ArtifactDeterminism)
    (inputs : Inputs) :
    let new := LockedArtifact.new sha256 nameSpace key producer determinism inputs createdAt payloadJson
    new.map LockedArtifact.inputsHash = artifactInputsHash sha256 inputs determinism ∧
      new.bind (validateArtifact sha256) = determinism.validate.bind fun _ =>
        match requiresExternalDeterminism nameSpace producer, determinism with
        | true, .hermetic =>
          .error s!"artifact {nameSpace}:{key} must declare external determinism fingerprints"
        | _, _ => .ok () := by
  intro new
  unfold new LockedArtifact.new artifactInputsHash
  cases hvalid : determinism.validate with
  | error error => exact ⟨rfl, rfl⟩
  | ok done =>
    refine ⟨rfl, ?_⟩
    show validateArtifact sha256 _ = _
    unfold validateArtifact
    dsimp only
    rw [artifactInputsHash_of_valid hvalid, ArtifactDeterminism.augmentInputs_idem, hvalid]
    exact if_neg (not_not.mpr rfl)

end PackageLock

def oneFingerprint : ArtifactDeterminism := .external (.single "data.csv" "f1")

theorem changed_source_changes_hash :
    NulFreeKeys (.single "source" "v1") oneFingerprint ∧
      artifactInputsHash id (.single "source" "v1") oneFingerprint ≠
        artifactInputsHash id (.single "source" "v2") oneFingerprint := by
  have hfree : ∀ value, NulFreeKeys (.single "source" value) oneFingerprint := by
    intro value
    constructor
    · intro key hmem
      rw [show key = "source" from List.mem_singleton.mp hmem]
      decide
    · intro key hmem
      rw [show key = "data.csv" from List.mem_singleton.mp hmem]
      decide
  have hmerged := (inputs_hash_determines_merged_inputs Function.injective_id).1
      (.single "source" "v1") oneFingerprint
    (.single "source" "v2") oneFingerprint rfl rfl (hfree "v1") (hfree "v2")
  refine ⟨hfree "v1", fun h => ?_⟩
  have hsame := congrArg (fun inputs : Inputs => inputs.lookup "source") (hmerged.1.mp h)
  exact absurd hsame (by decide)

/-- The inputs that a new artifact keeps are the merged ones: hashed again with the same
fingerprints they give the same, although they are not the inputs that it was made from. -/
theorem merged_inputs_hash_alike :
    ¬ ∀ sha256 : List UInt8 → List UInt8, Function.Injective sha256 → ∀ a da b db hash,
      artifactInputsHash sha256 a da = .ok hash → artifactInputsHash sha256 b db = .ok hash →
      a = b ∧ da.fingerprints = db.fingerprints := by
  intro hclaim
  have hhash : artifactInputsHash id (oneFingerprint.augmentInputs .empty) oneFingerprint =
      .ok (hashInputs id (oneFingerprint.augmentInputs .empty)) := by
    rw [artifactInputsHash_of_valid rfl, ArtifactDeterminism.augmentInputs_idem]
  obtain ⟨hempty, -⟩ := hclaim id Function.injective_id .empty oneFingerprint _ oneFingerprint _ rfl hhash
  have hlength := congrArg (fun inputs : Inputs => inputs.entries.length) hempty
  exact absurd hlength (by decide)

end ShapeLang.Packages
