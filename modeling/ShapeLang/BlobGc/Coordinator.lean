import ShapeLang.Lib.HashMap

/-!
# The blob collector's coordinator

Every node reports which blobs it uses and which it has pinned. The coordinator knows a status for
each blob; a cycle drops the reports that are stale, takes the union of the others and moves every
known blob on: pinned, active, or unreferenced since the first cycle that found it so, and after the
grace period marked for collection.

An `Instant` is a number of ticks, `duration_since` is subtraction down to zero, and the time of a
call is an argument. The order of the blobs in a result is that of a hash map, and nothing here
depends on it. The reference counts, which a cycle writes and nothing reads, are left out.
-/

namespace ShapeLang.BlobGc

open Lib

abbrev NodeId := UInt64

abbrev BlobHash := Vector UInt8 32

structure NodeBlobReport where
  nodeId : NodeId
  activeBlobs : Finset BlobHash
  pinnedBlobs : Finset BlobHash
  timestamp : Nat
  deriving DecidableEq

inductive BlobStatus where
  | active
  | pinned
  | unreferenced (since : Nat)
  | markedForCollection
  deriving DecidableEq

structure GcConfig where
  gracePeriod : Nat
  staleReportThreshold : Nat
  minNodesReporting : Nat

structure CollectionEvent where
  timestamp : Nat
  blobsCollected : List BlobHash
  blobsPreserved : Nat
  nodesReporting : Nat

structure GcCoordinator where
  config : GcConfig
  nodeReports : HashMap NodeId NodeBlobReport
  knownBlobs : HashMap BlobHash BlobStatus
  collectionLog : List CollectionEvent

structure GcCycleResult where
  eligibleForCollection : List BlobHash
  activeCount : Nat
  pinnedCount : Nat
  staleNodes : List NodeId

def GcConfig.isStale (config : GcConfig) (now : Nat) (report : NodeBlobReport) : Bool :=
  config.staleReportThreshold ≤ now - report.timestamp

def GcConfig.isEligible (config : GcConfig) (now : Nat) : BlobStatus → Bool
  | .unreferenced since => config.gracePeriod ≤ now - since
  | .markedForCollection => true
  | _ => false

namespace GcCoordinator

def new (config : GcConfig) : GcCoordinator :=
  { config, nodeReports := ∅, knownBlobs := ∅, collectionLog := [] }

def reportActiveBlobs (gc : GcCoordinator) (report : NodeBlobReport) : GcCoordinator :=
  { gc with nodeReports := gc.nodeReports.insert report.nodeId report }

def computeStaleNodes (gc : GcCoordinator) (now : Nat) : List NodeId :=
  (gc.nodeReports.entries.filter fun entry => gc.config.isStale now entry.2).map fun entry => entry.1

def pruneStaleNodes (gc : GcCoordinator) (now : Nat) : GcCoordinator :=
  { gc with
    nodeReports := (gc.computeStaleNodes now).foldl (fun reports node => reports.erase node)
      gc.nodeReports }

def reports (gc : GcCoordinator) : List NodeBlobReport := gc.nodeReports.entries.map fun entry => entry.2

def globalActive (gc : GcCoordinator) : Finset BlobHash :=
  gc.reports.foldl (fun blobs report => blobs ∪ report.activeBlobs) ∅

/-- The blobs whose status passes a test. -/
def withStatus (known : HashMap BlobHash BlobStatus) (test : BlobStatus → Bool) : List BlobHash :=
  (known.entries.filter fun entry => test entry.2).map fun entry => entry.1

/-- The blobs whose status is pinned, and those that the nodes have pinned. -/
def globalPinned (gc : GcCoordinator) : Finset BlobHash :=
  let pinned := withStatus gc.knownBlobs fun status => status = .pinned
  gc.reports.foldl (fun blobs report => blobs ∪ report.pinnedBlobs) pinned.toFinset

/-- One blob that is known, after the union has been taken. -/
def updateStatus (globalPinned globalActive : Finset BlobHash) (now : Nat)
    (known : HashMap BlobHash BlobStatus) (hash : BlobHash) : HashMap BlobHash BlobStatus :=
  if hash ∈ globalPinned then known.insert hash .pinned
  else if hash ∈ globalActive then known.insert hash .active
  else
    match known.lookup hash with
    | some (.unreferenced _) => known
    | some .markedForCollection => known
    | _ => known.insert hash (.unreferenced now)

def updateStatuses (gc : GcCoordinator) (now : Nat) : HashMap BlobHash BlobStatus :=
  gc.knownBlobs.keys.foldl (updateStatus gc.globalPinned gc.globalActive now) gc.knownBlobs

def runGcCycle (gc : GcCoordinator) (now : Nat) : GcCoordinator × GcCycleResult :=
  let staleNodes := gc.computeStaleNodes now
  let gc := gc.pruneStaleNodes now
  if gc.nodeReports.entries.length < gc.config.minNodesReporting then
    (gc, { eligibleForCollection := [], activeCount := 0, pinnedCount := 0, staleNodes })
  else
    let known := gc.updateStatuses now
    let eligible := withStatus known (gc.config.isEligible now)
    let activeCount := (withStatus known fun status => status = .active).length
    let pinnedCount := (withStatus known fun status => status = .pinned).length
    let event : CollectionEvent :=
      { timestamp := now, blobsCollected := eligible, blobsPreserved := activeCount + pinnedCount
        nodesReporting := gc.nodeReports.entries.length }
    ({ gc with
        knownBlobs := eligible.foldl (fun known hash => known.insert hash .markedForCollection) known
        collectionLog := if eligible.isEmpty then gc.collectionLog else gc.collectionLog ++ [event] },
      { eligibleForCollection := eligible, activeCount, pinnedCount, staleNodes })

def pinBlob (gc : GcCoordinator) (hash : BlobHash) : GcCoordinator :=
  { gc with knownBlobs := gc.knownBlobs.insert hash .pinned }

def unpinBlob (gc : GcCoordinator) (hash : BlobHash) : GcCoordinator :=
  if gc.knownBlobs.lookup hash = some .pinned then
    { gc with knownBlobs := gc.knownBlobs.insert hash .active } else gc

def registerBlob (gc : GcCoordinator) (hash : BlobHash) : GcCoordinator :=
  { gc with knownBlobs := orInsert gc.knownBlobs hash .active }

def getStatus (gc : GcCoordinator) (hash : BlobHash) : Option BlobStatus := gc.knownBlobs.lookup hash

end GcCoordinator

/-! ## Runs -/

inductive Call where
  | registerBlob (hash : BlobHash)
  | reportActiveBlobs (report : NodeBlobReport)
  | pinBlob (hash : BlobHash)
  | unpinBlob (hash : BlobHash)
  | runGcCycle (now : Nat)
  | pruneStaleNodes (now : Nat)
  deriving DecidableEq

def GcCoordinator.call (gc : GcCoordinator) : Call → GcCoordinator
  | .registerBlob hash => gc.registerBlob hash
  | .reportActiveBlobs report => gc.reportActiveBlobs report
  | .pinBlob hash => gc.pinBlob hash
  | .unpinBlob hash => gc.unpinBlob hash
  | .runGcCycle now => (gc.runGcCycle now).1
  | .pruneStaleNodes now => gc.pruneStaleNodes now

/-- The coordinator after some calls, the latest first. -/
def GcConfig.after (config : GcConfig) (history : List Call) : GcCoordinator :=
  history.foldr (fun call gc => gc.call call) (.new config)

/-! ## What the calls do to one entry -/

namespace GcCoordinator

variable {gc : GcCoordinator}

theorem nodup_keys_filter {κ β : Type} (map : HashMap κ β) (keep : β → Bool) :
    ((map.entries.filter fun entry => keep entry.2).map fun entry => entry.1).Nodup :=
  List.Sublist.nodup (List.filter_sublist.map _) map.nodupKeys

theorem mem_keys_filter {κ β : Type} [DecidableEq κ] {map : HashMap κ β} {keep : β → Bool} {key : κ} :
    key ∈ (map.entries.filter fun entry => keep entry.2).map (fun entry => entry.1) ↔
      ∃ value, map.lookup key = some value ∧ keep value = true := by
  simp only [List.mem_map, List.mem_filter]
  constructor
  · rintro ⟨entry, ⟨hentry, hkeep⟩, rfl⟩
    exact ⟨entry.2, AList.mem_lookup_iff.mpr hentry, hkeep⟩
  · rintro ⟨value, hvalue, hkeep⟩
    exact ⟨⟨key, value⟩, ⟨AList.mem_lookup_iff.mp hvalue, hkeep⟩, rfl⟩

theorem lookup_pruneStaleNodes (gc : GcCoordinator) (now : Nat) (node : NodeId) :
    (gc.pruneStaleNodes now).nodeReports.lookup node =
      (gc.nodeReports.lookup node).filter fun report => !gc.config.isStale now report := by
  have hself : ∀ (reports : HashMap NodeId NodeBlobReport) node, (reports.erase node).lookup node = none :=
    fun reports node => AList.lookup_erase node reports
  have hother : ∀ (reports : HashMap NodeId NodeBlobReport) node other, other ≠ node →
      (reports.erase node).lookup other = reports.lookup other := fun _ _ _ h => AList.lookup_erase_ne h
  -- the fold removes each stale node once, so a lookup sees only its own step
  have hnodup : (gc.computeStaleNodes now).Nodup := nodup_keys_filter _ _
  have hmem : node ∈ gc.computeStaleNodes now ↔
      ∃ report, gc.nodeReports.lookup node = some report ∧ gc.config.isStale now report = true :=
        mem_keys_filter
  refine (lookup_foldl_local (fun _ _ => none) hself hother hnodup gc.nodeReports node).trans ?_
  cases hreport : gc.nodeReports.lookup node with
  | none => exact ite_self _
  | some report =>
    rw [hreport] at hmem
    cases hstale : gc.config.isStale now report with
    | true =>
      rw [if_pos (hmem.mpr ⟨report, rfl, hstale⟩), Option.filter_some_neg]
      rw [hstale]
      decide
    | false =>
      -- a report that is not stale has no second one under its node
      have hnot : node ∉ gc.computeStaleNodes now := by
        intro hin
        obtain ⟨other, hother, htrue⟩ := hmem.mp hin
        rw [← Option.some.inj hother, hstale] at htrue
        cases htrue
      rw [if_neg hnot, Option.filter_some_pos (by rw [hstale]; rfl)]

/-- What `updateStatus` does to the status of its blob. -/
def nextStatus (pinned active : Bool) (now : Nat) (status : BlobStatus) : BlobStatus :=
  if pinned then .pinned
  else if active then .active
  else
    match status with
    | .unreferenced since => .unreferenced since
    | .markedForCollection => .markedForCollection
    | _ => .unreferenced now

theorem lookup_updateStatuses (gc : GcCoordinator) (now : Nat) (hash : BlobHash) :
    (gc.updateStatuses now).lookup hash =
      (gc.knownBlobs.lookup hash).map
        (nextStatus (hash ∈ gc.globalPinned) (hash ∈ gc.globalActive) now) := by
  -- what a cycle does to the entry of one blob, as a function of that entry alone
  let next : BlobHash → Option BlobStatus → Option BlobStatus := fun hash status =>
    some (nextStatus (hash ∈ gc.globalPinned) (hash ∈ gc.globalActive) now (status.getD .active))
  have hself : ∀ known hash, (updateStatus gc.globalPinned gc.globalActive now known hash).lookup hash =
      next hash (known.lookup hash) := by
    intro known hash
    show _ = some (nextStatus _ _ _ _)
    unfold updateStatus nextStatus
    simp only [decide_eq_true_eq]
    split
    · exact AList.lookup_insert known
    · split
      · exact AList.lookup_insert known
      · cases hstatus : known.lookup hash with
        | none => exact AList.lookup_insert known
        | some status =>
          cases status with
          | active => exact AList.lookup_insert known
          | pinned => exact AList.lookup_insert known
          | unreferenced since => exact hstatus
          | markedForCollection => exact hstatus
  have hother : ∀ known hash other, other ≠ hash →
      (updateStatus gc.globalPinned gc.globalActive now known hash).lookup other = known.lookup other := by
    intro known hash other hne
    unfold updateStatus
    split
    · exact AList.lookup_insert_ne hne
    · split
      · exact AList.lookup_insert_ne hne
      · split
        · rfl
        · rfl
        · exact AList.lookup_insert_ne hne
  -- the loop goes over the keys of the map it changes: each entry is moved once
  refine (lookup_foldl_local next hself hother gc.knownBlobs.keys_nodup gc.knownBlobs hash).trans ?_
  cases hstatus : gc.knownBlobs.lookup hash with
  | none =>
    exact if_neg fun hin =>
      by rw [← AList.mem_keys, ← AList.lookup_isSome, hstatus] at hin; cases hin
  | some status => exact if_pos (by rw [← AList.mem_keys, ← AList.lookup_isSome, hstatus]; rfl)

variable {hash : BlobHash}

theorem mem_withStatus {known : HashMap BlobHash BlobStatus} {test : BlobStatus → Bool} :
    hash ∈ withStatus known test ↔ ∃ status, known.lookup hash = some status ∧ test status = true :=
  mem_keys_filter

theorem lookup_mark (known : HashMap BlobHash BlobStatus) (test : BlobStatus → Bool) (hash : BlobHash) :
    ((withStatus known test).foldl (fun known hash => known.insert hash .markedForCollection)
      known).lookup hash =
      (known.lookup hash).map fun status => if test status then .markedForCollection else status := by
  have hself : ∀ (known : HashMap BlobHash BlobStatus) hash,
      (known.insert hash .markedForCollection).lookup hash = some .markedForCollection := fun known _ =>
    AList.lookup_insert known
  have hother : ∀ (known : HashMap BlobHash BlobStatus) hash other, other ≠ hash →
      (known.insert hash .markedForCollection).lookup other = known.lookup other := fun _ _ _ h =>
    AList.lookup_insert_ne h
  have hnodup : (withStatus known test).Nodup := nodup_keys_filter _ _
  refine (lookup_foldl_local (fun _ _ => some .markedForCollection) hself hother hnodup known hash).trans ?_
  simp only [mem_withStatus]
  cases known.lookup hash with
  | none => exact if_neg nofun
  | some status =>
    by_cases htest : test status = true
    · rw [if_pos ⟨status, rfl, htest⟩, Option.map_some, if_pos htest]
    · rw [if_neg (fun h => htest
        (by obtain ⟨other, hsome, hother⟩ := h; rw [Option.some.inj hsome]; exact hother)),
        Option.map_some, if_neg htest]

theorem mem_reports {gc : GcCoordinator} {report : NodeBlobReport} :
    report ∈ gc.reports ↔ ∃ node, gc.nodeReports.lookup node = some report := by
  unfold reports
  rw [List.mem_map]
  constructor
  · rintro ⟨entry, hentry, rfl⟩
    exact ⟨entry.1, AList.mem_lookup_iff.mpr hentry⟩
  · rintro ⟨node, hnode⟩
    exact ⟨⟨node, report⟩, AList.mem_lookup_iff.mp hnode, rfl⟩

theorem mem_foldl_union (blobs : NodeBlobReport → Finset BlobHash) (reports : List NodeBlobReport)
    (start : Finset BlobHash) :
    hash ∈ reports.foldl (fun union report => union ∪ blobs report) start ↔
      hash ∈ start ∨ ∃ report ∈ reports, hash ∈ blobs report := by
  induction reports generalizing start with
  | nil => simp
  | cons report reports ih => rw [List.foldl_cons, ih, Finset.mem_union, or_assoc, List.exists_mem_cons_iff]

theorem mem_globalActive {gc : GcCoordinator} :
    hash ∈ gc.globalActive ↔ ∃ report ∈ gc.reports, hash ∈ report.activeBlobs := by
  unfold globalActive
  rw [mem_foldl_union]
  exact or_iff_right (Finset.notMem_empty hash)

theorem mem_globalPinned {gc : GcCoordinator} :
    hash ∈ gc.globalPinned ↔ gc.knownBlobs.lookup hash = some .pinned ∨
      ∃ report ∈ gc.reports, hash ∈ report.pinnedBlobs := by
  unfold globalPinned
  rw [mem_foldl_union, List.mem_toFinset, mem_withStatus]
  simp only [decide_eq_true_eq, exists_eq_right]

end GcCoordinator

end ShapeLang.BlobGc
