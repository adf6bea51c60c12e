import ShapeLang.Bytecode.ContentAddressed
import ShapeLang.Lib.HashMap

/-!
# ShapeLang — hot reload

When a source file changes, the functions in it are compiled again and the new blobs take the place
of the old ones under their names (`crates/shape-vm/src/hot_reload.rs`). An old blob stays in the
store as long as a call frame runs it; `gc` drops the blobs that no name maps to and no frame runs.

The frames report themselves: one `add_active_reference` when a frame is entered, one
`remove_active_reference` when it exits. What is kept of these reports is a set of hashes. `adds`
and `removes` count the reports of a run, so their difference is the number of frames that run the
blob.

The watched paths and the time of a reload event are left out: no operation reads them.
-/

namespace ShapeLang.Bytecode

open Lib

structure ReloadEvent (η : Type) where
  oldHash : η
  newHash : η
  functionName : String

structure HotReloader (β η : Type) where
  currentMappings : HashMap String η
  blobStore : HashMap η (FunctionBlob β η)
  activeReferences : Finset η
  updateHistory : List (ReloadEvent η)

structure ReloadResult where
  functionsUpdated : List String
  functionsUnchanged : List String
  oldBlobsRetained : Nat

structure FunctionPatch (β η : Type) where
  functionName : String
  oldHash : Option η
  newBlob : FunctionBlob β η

namespace HotReloader

variable {β η : Type} [DecidableEq η]

/-! ## Operations -/

omit [DecidableEq η] in
def new : HotReloader β η := ⟨∅, ∅, ∅, []⟩

def registerFunction (r : HotReloader β η) (name : String) (blob : FunctionBlob β η) : HotReloader β η :=
  { r with
    currentMappings := r.currentMappings.insert name blob.contentHash
    blobStore := r.blobStore.insert blob.contentHash blob }

def addActiveReference (r : HotReloader β η) (hash : η) : HotReloader β η :=
  { r with activeReferences := insert hash r.activeReferences }

def removeActiveReference (r : HotReloader β η) (hash : η) : HotReloader β η :=
  { r with activeReferences := r.activeReferences.erase hash }

/-- The end of the loop body of `apply_patches`: the new blob takes the name. -/
def installPatch (r : HotReloader β η) (patch : FunctionPatch β η) : HotReloader β η :=
  { r with
    currentMappings := r.currentMappings.insert patch.functionName patch.newBlob.contentHash
    blobStore := r.blobStore.insert patch.newBlob.contentHash patch.newBlob }

/-- The loop body of `apply_patches`. -/
def applyPatch (acc : HotReloader β η × ReloadResult) (patch : FunctionPatch β η) :
    HotReloader β η × ReloadResult :=
  let (r, result) := acc
  let updated := result.functionsUpdated ++ [patch.functionName]
  match r.currentMappings.lookup patch.functionName with
  | none => (r.installPatch patch, { result with functionsUpdated := updated })
  | some existingHash =>
    if existingHash = patch.newBlob.contentHash then
      (r, { result with functionsUnchanged := result.functionsUnchanged ++ [patch.functionName] })
    else
      let event := ⟨existingHash, patch.newBlob.contentHash, patch.functionName⟩
      let retained := if existingHash ∈ r.activeReferences then 1 else 0
      (installPatch { r with updateHistory := r.updateHistory ++ [event] } patch,
        { result with functionsUpdated := updated, oldBlobsRetained := result.oldBlobsRetained + retained })

def applyPatches (r : HotReloader β η) (patches : List (FunctionPatch β η)) :
    HotReloader β η × ReloadResult :=
  patches.foldl applyPatch (r, ⟨[], [], 0⟩)

/-- The hashes that some name maps to. -/
def liveHashes (r : HotReloader β η) : List η := r.currentMappings.entries.map fun entry => entry.2

def toRemove (r : HotReloader β η) : List η :=
  r.blobStore.keys.filter fun hash => hash ∉ r.liveHashes ∧ hash ∉ r.activeReferences

def gc (r : HotReloader β η) : HotReloader β η × Nat :=
  ({ r with blobStore := r.toRemove.foldl (fun store hash => store.erase hash) r.blobStore },
    r.toRemove.length)

/-! ## Runs -/

inductive Op (β η : Type) where
  | registerFunction (name : String) (blob : FunctionBlob β η)
  | applyPatches (patches : List (FunctionPatch β η))
  | addActiveReference (hash : η)
  | removeActiveReference (hash : η)
  | gc

def step (r : HotReloader β η) : Op β η → HotReloader β η
  | .registerFunction name blob => r.registerFunction name blob
  | .applyPatches patches => (r.applyPatches patches).1
  | .addActiveReference hash => r.addActiveReference hash
  | .removeActiveReference hash => r.removeActiveReference hash
  | .gc => r.gc.1

def run (ops : List (Op β η)) : HotReloader β η := ops.foldl step new

def Op.isAdd (hash : η) : Op β η → Bool
  | .addActiveReference hash' => hash' = hash
  | _ => false

def Op.isRemove (hash : η) : Op β η → Bool
  | .removeActiveReference hash' => hash' = hash
  | _ => false

/-- How often a frame that runs the blob was entered. -/
def adds (ops : List (Op β η)) (hash : η) : Nat := ops.countP (Op.isAdd hash)

/-- How often such a frame exited. -/
def removes (ops : List (Op β η)) (hash : η) : Nat := ops.countP (Op.isRemove hash)

/-! ## What `gc` takes -/

omit [DecidableEq η] in
theorem mem_liveHashes {r : HotReloader β η} {hash : η} :
    hash ∈ r.liveHashes ↔ ∃ name, r.currentMappings.lookup name = some hash := by
  unfold liveHashes
  rw [List.mem_map]
  constructor
  · rintro ⟨⟨name, value⟩, hmem, rfl⟩
    exact ⟨name, AList.mem_lookup_iff.mpr hmem⟩
  · rintro ⟨name, h⟩
    exact ⟨⟨name, hash⟩, AList.mem_lookup_iff.mp h, rfl⟩

theorem mem_eraseAll {hashes : List η} {store : HashMap η (FunctionBlob β η)} {hash : η} :
    hash ∈ hashes.foldl (fun store hash => store.erase hash) store ↔ hash ∈ store ∧ hash ∉ hashes := by
  induction hashes generalizing store with
  | nil => simp
  | cons head hashes ih =>
    rw [List.foldl_cons, ih, AList.mem_erase, List.mem_cons]
    tauto

/-- `gc` takes the blobs of the store that no name maps to and that are not in the set. -/
theorem mem_gc {r : HotReloader β η} {hash : η} :
    hash ∈ r.gc.1.blobStore ↔
      hash ∈ r.blobStore ∧ ((∃ name, r.currentMappings.lookup name = some hash) ∨
        hash ∈ r.activeReferences) := by
  have hremove : hash ∈ r.toRemove ↔ hash ∈ r.blobStore ∧ hash ∉ r.liveHashes ∧
      hash ∉ r.activeReferences := by
    unfold toRemove
    rw [List.mem_filter, decide_eq_true_iff, AList.mem_keys]
  rw [← mem_liveHashes]
  show hash ∈ r.toRemove.foldl (fun store hash => store.erase hash) r.blobStore ↔ _
  rw [mem_eraseAll, hremove]
  tauto

/-! ## The set against the counts -/

theorem run_snoc (ops : List (Op β η)) (op : Op β η) : run (ops ++ [op]) = (run ops).step op := by
  unfold run
  rw [List.foldl_append]
  rfl

theorem applyPatch_activeReferences (acc : HotReloader β η × ReloadResult) (patch : FunctionPatch β η) :
    (applyPatch acc patch).1.activeReferences = acc.1.activeReferences := by
  unfold applyPatch
  dsimp only
  split
  · rfl
  · split <;> rfl

theorem applyPatches_activeReferences (r : HotReloader β η) (patches : List (FunctionPatch β η)) :
    (r.applyPatches patches).1.activeReferences = r.activeReferences := by
  have hfold : ∀ acc : HotReloader β η × ReloadResult,
      (patches.foldl applyPatch acc).1.activeReferences = acc.1.activeReferences := by
    induction patches with
    | nil => exact fun acc => rfl
    | cons patch patches ih => exact fun acc => (ih _).trans (applyPatch_activeReferences acc patch)
  exact hfold _

/-- The set moves with the reports alone. -/
theorem mem_step_activeReferences {r : HotReloader β η} {op : Op β η} {hash : η} :
    hash ∈ (r.step op).activeReferences ↔
      op.isAdd hash = true ∨ (hash ∈ r.activeReferences ∧ op.isRemove hash = false) := by
  cases op with
  | registerFunction name blob => simp [step, registerFunction, Op.isAdd, Op.isRemove]
  | applyPatches patches => simp [step, applyPatches_activeReferences, Op.isAdd, Op.isRemove]
  | addActiveReference hash' => simp [step, addActiveReference, Op.isAdd, Op.isRemove, eq_comm]
  | removeActiveReference hash' =>
    simp [step, removeActiveReference, Op.isAdd, Op.isRemove, eq_comm, and_comm]
  | gc => simp [step, gc, Op.isAdd, Op.isRemove]

/-- When a frame exits, no other frame runs its blob. -/
def ExitsLast (ops : List (Op β η)) : Prop :=
  ∀ before hash after, ops = before ++ .removeActiveReference hash :: after →
    adds before hash ≤ removes before hash + 1

theorem ExitsLast.before {ops after : List (Op β η)} (h : ExitsLast (ops ++ after)) : ExitsLast ops := by
  rintro before hash rest rfl
  exact h before hash (rest ++ after) (by simp)

/-- A blob outside the set has no frame left. -/
theorem mem_activeReferences_or_le {ops : List (Op β η)} (h : ExitsLast ops) (hash : η) :
    hash ∈ (run ops).activeReferences ∨ adds ops hash ≤ removes ops hash := by
  induction ops using List.reverseRecOn with
  | nil => exact Or.inr le_rfl
  | append_singleton ops op ih =>
    rw [run_snoc, mem_step_activeReferences]
    unfold adds removes
    rw [List.countP_append, List.countP_append, List.countP_singleton, List.countP_singleton]
    cases hadd : op.isAdd hash with
    | true => exact Or.inl (Or.inl rfl)
    | false =>
      cases hremove : op.isRemove hash with
      | true =>
        -- the last frame exits: the two counts are level again
        obtain ⟨hash', rfl⟩ : ∃ hash', op = .removeActiveReference hash' := by
          cases op <;> simp_all [Op.isRemove]
        have heq : hash' = hash := by simpa [Op.isRemove] using hremove
        have hlast := h ops hash' [] rfl
        rw [heq] at hlast
        exact Or.inr (by simpa [adds, removes] using hlast)
      | false =>
        rcases ih h.before with hmem | hle
        · exact Or.inl (Or.inr ⟨hmem, rfl⟩)
        · exact Or.inr (by simpa [adds, removes] using hle)

/-- In a run where a frame exits only as the last one of its blob, what a `gc` takes is no longer
run and has no name. -/
theorem gc_spares_running {ops before after : List (Op β η)} (hexit : ExitsLast ops)
    (hops : ops = before ++ .gc :: after) {hash : η} (hin : hash ∈ (run before).blobStore)
    (hout : hash ∉ (run (before ++ [.gc])).blobStore) :
    adds before hash ≤ removes before hash ∧ ∀ name, (run before).currentMappings.lookup name ≠
      some hash := by
  subst hops
  rw [run_snoc] at hout
  change hash ∉ (run before).gc.1.blobStore at hout
  rw [mem_gc] at hout
  have hnone : ∀ name, (run before).currentMappings.lookup name ≠ some hash := by
    intro name hname
    exact hout ⟨hin, Or.inl ⟨name, hname⟩⟩
  refine ⟨?_, hnone⟩
  rcases mem_activeReferences_or_le hexit.before hash with hmem | hle
  · exact absurd ⟨hin, Or.inr hmem⟩ hout
  · exact hle

/-! ## Two versions of one function -/

def version (hash : Nat) : FunctionBlob Unit Nat :=
  { contentHash := hash, name := "f", requiredPermissions := ∅, body := (), dependencies := []
    calleeNames := [] }

/-- A frame runs the first version while the second is loaded, and exits. -/
def oneFrame : List (Op Unit Nat) :=
  [.registerFunction "f" (version 1), .addActiveReference 1, .applyPatches [⟨"f", some 1, version 2⟩],
    .removeActiveReference 1]

theorem exitsLast_oneFrame : ExitsLast (oneFrame ++ [.gc]) := by
  rintro before hash after hops
  have hbefore : adds before hash ≤ adds (oneFrame ++ [.gc]) hash := by
    rw [hops]
    exact (List.sublist_append_left before _).countP_le
  have hone : adds (oneFrame ++ [.gc]) hash ≤ 1 := by
    by_cases hhash : 1 = hash <;> simp [adds, oneFrame, Op.isAdd, hhash]
  omega

theorem gc_spares_running_oneFrame :
    1 ∈ (run oneFrame).blobStore ∧ 1 ∉ (run (oneFrame ++ [.gc])).blobStore ∧ adds oneFrame 1 ≤
      removes oneFrame 1 ∧
      ∀ name, (run oneFrame).currentMappings.lookup name ≠ some 1 :=
  have hin : 1 ∈ (run oneFrame).blobStore := by decide
  have hout : 1 ∉ (run (oneFrame ++ [.gc])).blobStore := by decide
  ⟨hin, hout, gc_spares_running exitsLast_oneFrame rfl hin hout⟩

/-- Two frames run the first version while the second is loaded, and one of them exits. -/
def twoFrames : List (Op Unit Nat) :=
  [.registerFunction "f" (version 1), .addActiveReference 1, .addActiveReference 1,
    .applyPatches [⟨"f", some 1, version 2⟩], .removeActiveReference 1]

/-- The blob goes although the other frame still runs it. -/
theorem twoFrames_collected :
    1 ∈ (run twoFrames).blobStore ∧ 1 ∉ (run (twoFrames ++ [.gc])).blobStore ∧
      ¬ adds twoFrames 1 ≤ removes twoFrames 1 := by
  decide

end HotReloader

end ShapeLang.Bytecode
