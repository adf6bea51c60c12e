import ShapeLang.BlobGc.Coordinator

/-!
# Which blobs a cycle reports

The history of the calls alone says which blobs a cycle may report: enough nodes report, the blob is
in no report that counts and is not pinned, and some cycle a grace period ago or earlier found it
free, with nothing in between to hold it. The status that the coordinator keeps for a blob is a
digest of that history, and `StatusFits` says of what.

It is a digest with one fault. A cycle gives a blob that some node has pinned the status of one
pinned at the coordinator, and the next cycle cannot tell them apart: until `unpin_blob` is called
the blob stays pinned, also when no node reports it any longer. `PinLeft` is the trace of such a
pin.
-/

namespace ShapeLang.BlobGc

open Lib GcCoordinator

/-! ## What a history says, the latest call first -/

def Call.reportOf (node : NodeId) : Call → Option NodeBlobReport
  | .reportActiveBlobs report => if report.nodeId = node then some report else none
  | _ => none

def latestReport (history : List Call) (node : NodeId) : Option NodeBlobReport :=
  history.findSome? (Call.reportOf node)

def Call.pins (hash : BlobHash) : Call → Option Bool
  | .pinBlob other => if other = hash then some true else none
  | .unpinBlob other => if other = hash then some false else none
  | _ => none

/-- Whether the last call of `pin_blob` and `unpin_blob` on a blob was a pin. -/
def lastPinCall (history : List Call) (hash : BlobHash) : Option Bool := history.findSome? (Call.pins hash)

def Known (history : List Call) (hash : BlobHash) : Prop :=
  .registerBlob hash ∈ history ∨ .pinBlob hash ∈ history

def Call.node : Call → Option NodeId
  | .reportActiveBlobs report => some report.nodeId
  | _ => none

/-- The instant that a call reads off the clock. -/
def Call.time : Call → Option Nat
  | .runGcCycle now => some now
  | .pruneStaleNodes now => some now
  | _ => none

/-- No call has read a later time than `now`. -/
def Before (history : List Call) (now : Nat) : Prop :=
  ∀ call ∈ history, ∀ before, call.time = some before → before ≤ now

/-- The clock does not go back. -/
def Clocked (history : List Call) : Prop :=
  (history.filterMap Call.time).Pairwise fun later earlier => earlier ≤ later

instance (history : List Call) : Decidable (Clocked history) :=
  inferInstanceAs (Decidable (List.Pairwise _ _))

section

variable (config : GcConfig)

/-- The latest report of a node, where it is not stale. -/
def IsCurrent (history : List Call) (now : Nat) (report : NodeBlobReport) : Prop :=
  latestReport history report.nodeId = some report ∧ config.isStale now report = false

def reportingNodes (history : List Call) (now : Nat) : List NodeId :=
  (history.filterMap Call.node).dedup.filter fun node =>
    (latestReport history node).any fun report => !config.isStale now report

def EnoughNodes (history : List Call) (now : Nat) : Prop :=
  config.minNodesReporting ≤ (reportingNodes config history now).length

instance (history : List Call) (now : Nat) : Decidable (EnoughNodes config history now) :=
  inferInstanceAs (Decidable (_ ≤ _))

variable (hash : BlobHash)

def NodeActive (history : List Call) (now : Nat) : Prop :=
  ∃ report, IsCurrent config history now report ∧ hash ∈ report.activeBlobs

def NodePinned (history : List Call) (now : Nat) : Prop :=
  ∃ report, IsCurrent config history now report ∧ hash ∈ report.pinnedBlobs

def Referenced (history : List Call) (now : Nat) : Prop :=
  NodeActive config hash history now ∨ NodePinned config hash history now

/-- A cycle finds the blob unreferenced and unpinned. -/
structure FoundFree (history : List Call) (now : Nat) : Prop where
  enough : EnoughNodes config history now
  known : Known history hash
  unpinned : lastPinCall history hash ≠ some true
  unreferenced : ¬Referenced config hash history now

/-- A cycle finds the blob referenced or pinned. -/
def FoundHeld (history : List Call) (now : Nat) : Prop :=
  EnoughNodes config history now ∧
    (lastPinCall history hash = some true ∨ Referenced config hash history now)

/-- A cycle at `t0` after the calls `past` finds the blob free, and nothing in `since` holds it. -/
structure FreeFrom (since : List Call) (t0 : Nat) (past : List Call) : Prop where
  found : FoundFree config hash past t0
  notHeld : ∀ recent now earlier, since = recent ++ .runGcCycle now :: earlier →
    ¬FoundHeld config hash (earlier ++ .runGcCycle t0 :: past) now
  notPinned : .pinBlob hash ∉ since

def FoundPinned (history : List Call) (now : Nat) : Prop :=
  EnoughNodes config history now ∧ Known history hash ∧ NodePinned config hash history now

/-- Some cycle found the blob pinned by a node, and `unpin_blob` has not been called since. -/
def PinLeft (history : List Call) : Prop :=
  ∃ recent now earlier, history = recent ++ .runGcCycle now :: earlier ∧
    FoundPinned config hash earlier now ∧
    .unpinBlob hash ∉ recent

/-! ## One more call -/

def Held (history : List Call) : Prop := lastPinCall history hash = some true ∨ PinLeft config hash history

def FreeSince (history : List Call) (t0 : Nat) : Prop :=
  ∃ since past, history = since ++ .runGcCycle t0 :: past ∧ FreeFrom config hash since t0 past ∧
    ¬PinLeft config hash past

end

section

variable {config : GcConfig} {hash : BlobHash} {history : List Call} {call : Call} {t0 now : Nat}

theorem pinLeft_cons :
    PinLeft config hash (call :: history) ↔
      (∃ now, call = .runGcCycle now ∧ FoundPinned config hash history now) ∨
        (PinLeft config hash history ∧ call ≠ .unpinBlob hash) := by
  constructor
  · rintro ⟨recent, now, earlier, hsplit, hfound, hunpin⟩
    cases recent with
    | nil =>
      obtain ⟨rfl, rfl⟩ := List.cons.inj hsplit
      exact Or.inl ⟨now, rfl, hfound⟩
    | cons first recent =>
      obtain ⟨rfl, rfl⟩ := List.cons.inj hsplit
      rw [List.mem_cons, not_or] at hunpin
      exact Or.inr ⟨⟨recent, now, earlier, rfl, hfound, hunpin.2⟩, fun heq => hunpin.1 heq.symm⟩
  · rintro (⟨now, rfl, hfound⟩ | ⟨⟨recent, now, earlier, rfl, hfound, hunpin⟩, hcall⟩)
    · exact ⟨[], now, history, rfl, hfound, List.not_mem_nil⟩
    · refine ⟨call :: recent, now, earlier, rfl, hfound, ?_⟩
      rw [List.mem_cons, not_or]
      exact ⟨fun heq => hcall heq.symm, hunpin⟩

theorem freeSince_cons :
    FreeSince config hash (call :: history) t0 ↔
      (call = .runGcCycle t0 ∧ FoundFree config hash history t0 ∧ ¬PinLeft config hash history) ∨
        (FreeSince config hash history t0 ∧ call ≠ .pinBlob hash ∧
          ∀ now, call = .runGcCycle now → ¬FoundHeld config hash history now) := by
  -- the cycle that found the blob free is this call, or an earlier one
  constructor
  · rintro ⟨since, past, hsplit, hfree, hleft⟩
    cases since with
    | nil =>
      obtain ⟨rfl, rfl⟩ := List.cons.inj hsplit
      exact Or.inl ⟨rfl, hfree.found, hleft⟩
    | cons first since =>
      obtain ⟨rfl, rfl⟩ := List.cons.inj hsplit
      have hpin := hfree.notPinned
      rw [List.mem_cons, not_or] at hpin
      -- a later call keeps it free exactly if it neither pins it nor finds it held
      refine Or.inr ⟨⟨since, past, rfl, ⟨hfree.found, fun recent now earlier hsince => ?_, hpin.2⟩, hleft⟩,
        fun heq => hpin.1 heq.symm, fun now hcall => ?_⟩
      · exact hfree.notHeld (call :: recent) now earlier (by rw [hsince]; rfl)
      · exact hfree.notHeld [] now since (by rw [hcall]; rfl)
  · rintro (⟨rfl, hfound, hleft⟩ | ⟨⟨since, past, rfl, hfree, hleft⟩, hpin, hcycle⟩)
    · refine ⟨[], history, rfl, ⟨hfound, fun recent now earlier hsince => ?_, List.not_mem_nil⟩, hleft⟩
      cases recent <;> cases hsince
    · refine ⟨call :: since, past, rfl, ⟨hfree.found, fun recent now earlier hsince => ?_, ?_⟩, hleft⟩
      · cases recent with
        | nil =>
          obtain ⟨hcall, rfl⟩ := List.cons.inj hsince
          exact hcycle now hcall
        | cons first recent => exact hfree.notHeld recent now earlier (List.cons.inj hsince).2
      · rw [List.mem_cons, not_or]
        exact ⟨fun heq => hpin heq.symm, hfree.notPinned⟩

theorem lastPinCall_cons (hpin : call ≠ .pinBlob hash) (hunpin : call ≠ .unpinBlob hash) :
    lastPinCall (call :: history) hash = lastPinCall history hash := by
  have hnone : call.pins hash = none := by
    cases call with
    | pinBlob other => exact if_neg fun heq => hpin (congrArg _ heq)
    | unpinBlob other => exact if_neg fun heq => hunpin (congrArg _ heq)
    | registerBlob other => rfl
    | reportActiveBlobs report => rfl
    | runGcCycle now => rfl
    | pruneStaleNodes now => rfl
  unfold lastPinCall
  rw [List.findSome?_cons, hnone]

theorem lastPinCall_pin : lastPinCall (.pinBlob hash :: history) hash = some true := by
  have hpins : Call.pins hash (.pinBlob hash) = some true := if_pos rfl
  unfold lastPinCall
  rw [List.findSome?_cons, hpins]

theorem lastPinCall_unpin : lastPinCall (.unpinBlob hash :: history) hash = some false := by
  have hpins : Call.pins hash (.unpinBlob hash) = some false := if_pos rfl
  unfold lastPinCall
  rw [List.findSome?_cons, hpins]

theorem known_of_lastPinCall (h : lastPinCall history hash = some true) : Known history hash := by
  obtain ⟨call, hcall, hpins⟩ := List.exists_of_findSome?_eq_some h
  cases call with
  | pinBlob other =>
    unfold Call.pins at hpins
    dsimp only at hpins
    split at hpins
    · rename_i heq
      exact Or.inr (heq ▸ hcall)
    · cases hpins
  | unpinBlob other =>
    unfold Call.pins at hpins
    dsimp only at hpins
    split at hpins
    · cases hpins
    · cases hpins
  | registerBlob other => cases hpins
  | reportActiveBlobs report => cases hpins
  | runGcCycle now => cases hpins
  | pruneStaleNodes now => cases hpins

/-- A call that does not pin the blob leaves it unpinned. -/
theorem lastPinCall_cons_ne_true (h : lastPinCall history hash ≠ some true) (hpin : call ≠ .pinBlob hash) :
    lastPinCall (call :: history) hash ≠ some true := by
  by_cases hunpin : call = .unpinBlob hash
  · rw [hunpin, lastPinCall_unpin]
    decide
  · rwa [lastPinCall_cons hpin hunpin]

theorem Known.cons (h : Known history hash) : Known (call :: history) hash :=
  h.imp (List.mem_cons_of_mem _) (List.mem_cons_of_mem _)

theorem known_of_cons (h : Known (call :: history) hash) (hregister : call ≠ .registerBlob hash)
    (hpin : call ≠ .pinBlob hash) : Known history hash :=
  h.imp (fun hmem => (List.mem_cons.mp hmem).resolve_left hregister.symm)
    fun hmem => (List.mem_cons.mp hmem).resolve_left hpin.symm

theorem Held.known (h : Held config hash history) : Known history hash := by
  rcases h with hlast | ⟨recent, now, earlier, rfl, hfound, -⟩
  · exact known_of_lastPinCall hlast
  · have hmem : ∀ call, call ∈ earlier → call ∈ recent ++ .runGcCycle now :: earlier := fun call hcall =>
      List.mem_append_right _ (List.mem_cons_of_mem _ hcall)
    exact hfound.2.1.imp (hmem _) (hmem _)

/-- A blob that is free is known, and no pin holds it. -/
theorem FreeSince.known_not_held (h : FreeSince config hash history t0) :
    Known history hash ∧ ¬Held config hash history := by
  induction history with
  | nil =>
    obtain ⟨since, past, hsplit, -⟩ := h
    cases since <;> cases hsplit
  | cons call history ih =>
    rcases freeSince_cons.mp h with ⟨rfl, hfound, hleft⟩ | ⟨hfree, hpin, hcycle⟩
    · refine ⟨hfound.known.cons, ?_⟩
      rintro (hlast | hleft')
      · exact hfound.unpinned hlast
      · rcases pinLeft_cons.mp hleft' with ⟨now, hcall, hpinned⟩ | ⟨hleft', -⟩
        · obtain rfl := Call.runGcCycle.inj hcall
          exact hfound.unreferenced (Or.inr hpinned.2.2)
        · exact hleft hleft'
    · obtain ⟨hknown, hheld⟩ := ih hfree
      refine ⟨hknown.cons, ?_⟩
      rintro (hlast | hleft)
      · exact lastPinCall_cons_ne_true (fun hlast => hheld (Or.inl hlast)) hpin hlast
      · rcases pinLeft_cons.mp hleft with ⟨now, hcall, hpinned⟩ | ⟨hleft, -⟩
        · exact hcycle now hcall ⟨hpinned.1, Or.inr (Or.inr hpinned.2.2)⟩
        · exact hheld (Or.inr hleft)

/-! ## The status of a blob -/

/-- What the status of a blob says about the history. -/
def StatusFits (config : GcConfig) (hash : BlobHash) (history : List Call) : Option BlobStatus → Prop
  | none => ¬Known history hash
  | some .active => Known history hash ∧ ¬Held config hash history ∧ ∀ t0, ¬FreeSince config hash history t0
  | some .pinned => Known history hash ∧ Held config hash history
  | some (.unreferenced since) =>
      FreeSince config hash history since ∧ ∀ t0, FreeSince config hash history t0 → since ≤ t0
  | some .markedForCollection =>
      ∃ t0, FreeSince config hash history t0 ∧ ∃ now, .runGcCycle now ∈ history ∧
        config.gracePeriod ≤ now - t0

variable {status : BlobStatus}

theorem StatusFits.known (h : StatusFits config hash history (some status)) :
    Known history hash := by
  cases status with
  | active => exact h.1
  | pinned => exact h.1
  | unreferenced since => exact h.1.known_not_held.1
  | markedForCollection =>
    obtain ⟨t0, hfree, -⟩ := h
    exact hfree.known_not_held.1

theorem StatusFits.not_held (h : StatusFits config hash history (some status))
    (hstatus : status ≠ .pinned) :
    ¬Held config hash history := by
  cases status with
  | active => exact h.2.1
  | pinned => exact absurd rfl hstatus
  | unreferenced since => exact h.1.known_not_held.2
  | markedForCollection =>
    obtain ⟨t0, hfree, -⟩ := h
    exact hfree.known_not_held.2

/-- A call after which the history says the same of the blob. -/
structure Silent (config : GcConfig) (hash : BlobHash) (history : List Call) (call : Call) : Prop where
  known : Known (call :: history) hash → Known history hash
  held : Held config hash (call :: history) ↔ Held config hash history
  free : ∀ t0, FreeSince config hash (call :: history) t0 ↔ FreeSince config hash history t0

theorem StatusFits.silent {status : Option BlobStatus} (h : StatusFits config hash history status)
    (hsilent : Silent config hash history call) : StatusFits config hash (call :: history) status := by
  match status with
  | none => exact fun hknown => h (hsilent.known hknown)
  | some .active =>
    exact ⟨h.1.cons, fun hheld => h.2.1 (hsilent.held.mp hheld), fun t0 hfree => h.2.2 t0
      ((hsilent.free t0).mp hfree)⟩
  | some .pinned => exact ⟨h.1.cons, hsilent.held.mpr h.2⟩
  | some (.unreferenced since) =>
    exact ⟨(hsilent.free since).mpr h.1, fun t0 hfree => h.2 t0 ((hsilent.free t0).mp hfree)⟩
  | some .markedForCollection =>
    obtain ⟨t0, hfree, now, hnow, hgrace⟩ := h
    exact ⟨t0, (hsilent.free t0).mpr hfree, now, List.mem_cons_of_mem _ hnow, hgrace⟩

/-- Calls about other blobs, reports and registrations of known blobs, and cycles that stop early. -/
theorem silent_of_unrelated (hknown : Known (call :: history) hash → Known history hash)
    (hpin : call ≠ .pinBlob hash) (hunpin : call ≠ .unpinBlob hash)
    (hcycle : ∀ now, call = .runGcCycle now → ¬EnoughNodes config history now) :
    Silent config hash history call := by
  refine ⟨hknown, ?_, fun t0 => ?_⟩
  · unfold Held
    rw [lastPinCall_cons hpin hunpin, pinLeft_cons]
    refine or_congr_right ⟨?_, fun hleft => Or.inr ⟨hleft, hunpin⟩⟩
    rintro (⟨now, hcall, hfound⟩ | ⟨hleft, -⟩)
    · exact absurd hfound.1 (hcycle now hcall)
    · exact hleft
  · rw [freeSince_cons]
    refine ⟨?_, fun hfree => Or.inr ⟨hfree, hpin, fun now hcall hheld => hcycle now hcall hheld.1⟩⟩
    rintro (⟨hcall, hfound, -⟩ | ⟨hfree, -⟩)
    · exact absurd hfound.enough (hcycle t0 hcall)
    · exact hfree

theorem statusFits_pin : StatusFits config hash (.pinBlob hash :: history) (some .pinned) :=
  ⟨Or.inr List.mem_cons_self, Or.inl lastPinCall_pin⟩

theorem StatusFits.unpin (h : StatusFits config hash history (some status)) :
    StatusFits config hash (.unpinBlob hash :: history)
      (some (if status = .pinned then .active else status)) := by
  -- an unpin ends both ways of being held: the last pin call and a pin left by a cycle
  have hheld : ¬Held config hash (.unpinBlob hash :: history) := by
    rintro (hlast | hleft)
    · rw [lastPinCall_unpin] at hlast
      cases hlast
    · rcases pinLeft_cons.mp hleft with ⟨now, hcall, -⟩ | ⟨-, hne⟩
      · cases hcall
      · exact hne rfl
  have hfree : ∀ t0, FreeSince config hash (.unpinBlob hash :: history) t0 ↔
      FreeSince config hash history t0 := by
    intro t0
    rw [freeSince_cons]
    refine ⟨?_, fun hfree => Or.inr ⟨hfree, nofun, nofun⟩⟩
    rintro (⟨hcall, -⟩ | ⟨hfree, -⟩)
    · cases hcall
    · exact hfree
  -- a pinned blob becomes active, whatever the reports say; nothing else changes
  by_cases hstatus : status = .pinned
  · rw [if_pos hstatus]
    rw [hstatus] at h
    exact ⟨h.1.cons, hheld, fun t0 hfree' => ((hfree t0).mp hfree').known_not_held.2 h.2⟩
  · rw [if_neg hstatus]
    have hsilent : Silent config hash history (.unpinBlob hash) :=
      ⟨fun _ => h.known, iff_of_false hheld (h.not_held hstatus), hfree⟩
    exact h.silent hsilent

theorem StatusFits.register {status : Option BlobStatus} (h : StatusFits config hash history status) :
    StatusFits config hash (.registerBlob hash :: history) (some (status.getD .active)) := by
  cases status with
  | some status => exact h.silent (silent_of_unrelated (fun _ => h.known) nofun nofun nofun)
  | none =>
    have hfree : ∀ t0, ¬FreeSince config hash (.registerBlob hash :: history) t0 := by
      intro t0 hfree
      rcases freeSince_cons.mp hfree with ⟨hcall, -⟩ | ⟨hfree, -⟩
      · cases hcall
      · exact h hfree.known_not_held.1
    refine ⟨Or.inl List.mem_cons_self, ?_, hfree⟩
    rintro (hlast | hleft)
    · have hsame : lastPinCall (.registerBlob hash :: history) hash = lastPinCall history hash :=
        lastPinCall_cons nofun nofun
      exact h (known_of_lastPinCall (hsame ▸ hlast))
    · rcases pinLeft_cons.mp hleft with ⟨now, hcall, -⟩ | ⟨hleft, -⟩
      · cases hcall
      · exact h (Held.known (Or.inr hleft))

/-- A cycle that has enough reports moves the status on: before it marks what it reports. -/
theorem StatusFits.cycle {pinned active : Bool} (h : StatusFits config hash history (some status))
    (henough : EnoughNodes config history now) (hclock : Before history now)
    (hpinned : pinned = true ↔ status = .pinned ∨ NodePinned config hash history now)
    (hactive : active = true ↔ NodeActive config hash history now) :
    StatusFits config hash (.runGcCycle now :: history) (some (nextStatus pinned active now status)) := by
  -- a cycle is no pin call, and its time is the call's
  have hlast : lastPinCall (.runGcCycle now :: history) hash = lastPinCall history hash :=
    lastPinCall_cons nofun nofun
  have hsame : ∀ other, Call.runGcCycle now = .runGcCycle other → other = now := fun other h =>
    (Call.runGcCycle.inj h).symm
  cases pinned with
  -- found pinned: by the status it had, or by the report of a node
  | true =>
    refine ⟨h.known.cons, ?_⟩
    rcases hpinned.mp rfl with rfl | hnode
    · rcases h.2 with hpin | hleft
      · exact Or.inl (hlast.trans hpin)
      · exact Or.inr (pinLeft_cons.mpr (Or.inr ⟨hleft, nofun⟩))
    · exact Or.inr (pinLeft_cons.mpr (Or.inl ⟨now, rfl, henough, h.known, hnode⟩))
  | false =>
    have hnot : ¬(status = .pinned ∨ NodePinned config hash history now) :=
      fun hor => nomatch hpinned.mpr hor
    have hheld := h.not_held fun heq => hnot (Or.inl heq)
    -- not found pinned: whatever held the blob would have held it before
    have hheld' : ¬Held config hash (.runGcCycle now :: history) := by
      rintro (hpin | hleft)
      · exact hheld (Or.inl (hlast ▸ hpin))
      · rcases pinLeft_cons.mp hleft with ⟨other, hother, hfound⟩ | ⟨hleft, -⟩
        · rw [hsame other hother] at hfound
          exact hnot (Or.inr hfound.2.2)
        · exact hheld (Or.inr hleft)
    cases active with
    -- reported active: a blob that is referenced is not free
    | true =>
      have hreferenced : Referenced config hash history now := Or.inl (hactive.mp rfl)
      refine ⟨h.known.cons, hheld', fun t0 hfree => ?_⟩
      rcases freeSince_cons.mp hfree with ⟨hcall, hfound, -⟩ | ⟨-, -, hnotHeld⟩
      · rw [hsame t0 hcall] at hfound
        exact hfound.unreferenced hreferenced
      · exact hnotHeld now rfl ⟨henough, Or.inr hreferenced⟩
    -- neither pinned nor reported: the blob is free from the first such cycle on
    | false =>
      have hunreferenced : ¬Referenced config hash history now := by
        rintro (hnode | hnode)
        · exact nomatch hactive.mpr hnode
        · exact hnot (Or.inr hnode)
      have hquiet : ∀ other, Call.runGcCycle now = .runGcCycle other →
          ¬FoundHeld config hash history other := by
        intro other hother hfound
        rw [hsame other hother] at hfound
        exact hfound.2.elim (fun hpin => hheld (Or.inl hpin)) hunreferenced
      have hkeeps : ∀ t0, FreeSince config hash history t0 → FreeSince config hash
          (.runGcCycle now :: history) t0 :=
        fun t0 hfree => freeSince_cons.mpr (Or.inr ⟨hfree, nofun, hquiet⟩)
      cases status with
      | pinned => exact absurd (Or.inl rfl) hnot
      -- already free, and the clock runs forward: the first cycle that found it free stays the
      -- first
      | unreferenced since =>
        refine ⟨hkeeps since h.1, fun t0 hfree => ?_⟩
        rcases freeSince_cons.mp hfree with ⟨hcall, -⟩ | ⟨hfree, -⟩
        · rw [hsame t0 hcall]
          obtain ⟨recent, past, rfl, -⟩ := h.1
          exact hclock _ (List.mem_append_right _ List.mem_cons_self) since rfl
        · exact h.2 t0 hfree
      | markedForCollection =>
        obtain ⟨t0, hfree, before, hbefore, hgrace⟩ := h
        exact ⟨t0, hkeeps t0 hfree, before, List.mem_cons_of_mem _ hbefore, hgrace⟩
      -- this is the cycle that finds it free
      | active =>
        have hfound : FoundFree config hash history now :=
          ⟨henough, h.1, fun hpin => hheld (Or.inl hpin), hunreferenced⟩
        refine ⟨freeSince_cons.mpr (Or.inl ⟨rfl, hfound, fun hleft => hheld (Or.inr hleft)⟩),
          fun t0 hfree => ?_⟩
        rcases freeSince_cons.mp hfree with ⟨hcall, -⟩ | ⟨hfree, -⟩
        · exact (hsame t0 hcall).ge
        · exact absurd hfree (h.2.2 t0)

/-- A blob is reported when it has been free for the grace period. -/
theorem StatusFits.eligible_iff {status : Option BlobStatus} (h : StatusFits config hash history status)
    (hclock : Before history now) :
    (∃ known, status = some known ∧ config.isEligible now known = true) ↔
      ∃ t0, FreeSince config hash history t0 ∧ config.gracePeriod ≤ now - t0 := by
  -- only the status with a time can become due; a marked blob stays marked
  match status with
  | none => exact ⟨nofun, fun ⟨t0, hfree, _⟩ => absurd hfree.known_not_held.1 h⟩
  | some .active =>
    refine ⟨fun ⟨known, hknown, heligible⟩ => ?_, fun ⟨t0, hfree, _⟩ => absurd hfree (h.2.2 t0)⟩
    rw [← Option.some.inj hknown] at heligible
    cases heligible
  | some .pinned =>
    refine ⟨fun ⟨known, hknown, heligible⟩ => ?_, fun ⟨t0, hfree, _⟩ => absurd h.2 hfree.known_not_held.2⟩
    rw [← Option.some.inj hknown] at heligible
    cases heligible
  | some (.unreferenced since) =>
    constructor
    · rintro ⟨known, hknown, heligible⟩
      rw [← Option.some.inj hknown] at heligible
      exact ⟨since, h.1, of_decide_eq_true heligible⟩
    · rintro ⟨t0, hfree, hgrace⟩
      have hle := h.2 t0 hfree
      exact ⟨_, rfl, decide_eq_true (by omega)⟩
  | some .markedForCollection =>
    obtain ⟨t0, hfree, before, hbefore, hgrace⟩ := h
    have hle := hclock _ hbefore before rfl
    exact ⟨fun _ => ⟨t0, hfree, by omega⟩, fun _ => ⟨_, rfl, rfl⟩⟩

/-- Marking what is reported. -/
theorem StatusFits.mark {status : Option BlobStatus}
    (h : StatusFits config hash (.runGcCycle now :: history) status) :
    StatusFits config hash (.runGcCycle now :: history)
      (status.map fun known => if config.isEligible now known then .markedForCollection else known) := by
  cases status with
  | none => exact h
  | some known =>
    cases known with
    | active => exact h
    | pinned => exact h
    | markedForCollection => exact h
    | unreferenced since =>
      rw [Option.map_some]
      split
      · rename_i heligible
        exact ⟨since, h.1, now, List.mem_cons_self, of_decide_eq_true heligible⟩
      · exact h

end

/-! ## The coordinator over a run -/

/-- The state that a history has led to. A stale report may be gone or not, so reports are compared
where a cycle that comes now would keep them. -/
structure Tracks (config : GcConfig) (history : List Call) (gc : GcCoordinator) : Prop where
  configured : gc.config = config
  reports : ∀ now, Before history now → ∀ node,
    (gc.nodeReports.lookup node).filter (fun report => !config.isStale now report) =
      (latestReport history node).filter fun report => !config.isStale now report
  statuses : ∀ hash, StatusFits config hash history (gc.knownBlobs.lookup hash)

section

variable {config : GcConfig} {history : List Call} {gc : GcCoordinator} {now : Nat} {node : NodeId}
  {report : NodeBlobReport}

theorem latestReport_cons_of_none {call : Call} (h : call.reportOf node = none) :
    latestReport (call :: history) node = latestReport history node := by
  unfold latestReport
  rw [List.findSome?_cons, h]

theorem of_latestReport (h : latestReport history node = some report) :
    report.nodeId = node ∧ .reportActiveBlobs report ∈ history := by
  obtain ⟨call, hcall, hreport⟩ := List.exists_of_findSome?_eq_some h
  cases call with
  | reportActiveBlobs other =>
    unfold Call.reportOf at hreport
    dsimp only at hreport
    split at hreport
    · rename_i hnode
      obtain rfl := Option.some.inj hreport
      exact ⟨hnode, hcall⟩
    · cases hreport
  | pinBlob other => cases hreport
  | unpinBlob other => cases hreport
  | registerBlob other => cases hreport
  | runGcCycle now => cases hreport
  | pruneStaleNodes now => cases hreport

theorem isStale_mono {before : Nat} (hle : before ≤ now) (h : config.isStale before report = true) :
    config.isStale now report = true := by
  have h := of_decide_eq_true h
  exact decide_eq_true (by omega)

theorem Tracks.lookup_pruned (h : Tracks config history gc)
    (hclock : Before history now) (node : NodeId) :
    (gc.pruneStaleNodes now).nodeReports.lookup node =
      (latestReport history node).filter fun report => !config.isStale now report := by
  rw [lookup_pruneStaleNodes, h.configured, h.reports now hclock]

theorem Tracks.mem_reports_pruned (h : Tracks config history gc)
    (hclock : Before history now) :
    report ∈ (gc.pruneStaleNodes now).reports ↔ IsCurrent config history now report := by
  rw [mem_reports]
  simp only [h.lookup_pruned hclock, Option.filter_eq_some_iff, Bool.not_eq_true']
  constructor
  · rintro ⟨node, hlatest, hfresh⟩
    exact ⟨(of_latestReport hlatest).1.symm ▸ hlatest, hfresh⟩
  · rintro ⟨hlatest, hfresh⟩
    exact ⟨report.nodeId, hlatest, hfresh⟩

theorem Tracks.enough_iff (h : Tracks config history gc)
    (hclock : Before history now) :
    EnoughNodes config history now ↔
      ¬(gc.pruneStaleNodes now).nodeReports.entries.length <
        (gc.pruneStaleNodes now).config.minNodesReporting := by
  have hmem : ∀ node, node ∈ (gc.pruneStaleNodes now).nodeReports.keys ↔
      node ∈ reportingNodes config history now := by
    intro node
    rw [← AList.mem_keys, ← AList.lookup_isSome, h.lookup_pruned hclock]
    unfold reportingNodes
    rw [List.mem_filter, List.mem_dedup, List.mem_filterMap]
    cases hlatest : latestReport history node with
    | none => simp
    | some report =>
      have hreport := of_latestReport hlatest
      have hin : ∃ call ∈ history, call.node = some node := ⟨_, hreport.2, congrArg some hreport.1⟩
      rw [and_iff_right hin, Option.any_some]
      cases hfresh : config.isStale now report <;> simp [Option.filter, hfresh]
  -- the reports kept by the pruning are those of the nodes that count, one for each
  have hnodup : (reportingNodes config history now).Nodup := (List.nodup_dedup _).filter _
  have hlength : (gc.pruneStaleNodes now).nodeReports.entries.length =
      (reportingNodes config history now).length := by
    have hperm := (List.perm_ext_iff_of_nodup (gc.pruneStaleNodes now).nodeReports.keys_nodup
      hnodup).mpr hmem
    rw [← hperm.length_eq]
    exact (List.length_map _).symm
  have hconfig : (gc.pruneStaleNodes now).config = config := h.configured
  unfold EnoughNodes
  rw [hlength, hconfig, Nat.not_lt]

theorem Tracks.mem_globalActive (h : Tracks config history gc)
    (hclock : Before history now) {hash : BlobHash} :
    hash ∈ (gc.pruneStaleNodes now).globalActive ↔ NodeActive config hash history now := by
  rw [GcCoordinator.mem_globalActive]
  simp only [h.mem_reports_pruned hclock]
  rfl

theorem Tracks.mem_globalPinned (h : Tracks config history gc)
    (hclock : Before history now) {hash : BlobHash} :
    hash ∈ (gc.pruneStaleNodes now).globalPinned ↔
      gc.knownBlobs.lookup hash = some .pinned ∨ NodePinned config hash history now := by
  rw [GcCoordinator.mem_globalPinned]
  simp only [h.mem_reports_pruned hclock]
  rfl

/-- The statuses after the update of a cycle, before the marking. -/
theorem Tracks.updated (h : Tracks config history gc)
    (hclock : Before history now) (henough : EnoughNodes config history now)
    (hash : BlobHash) :
    StatusFits config hash (.runGcCycle now :: history)
      (((gc.pruneStaleNodes now).updateStatuses now).lookup hash) := by
  have hfits := h.statuses hash
  rw [lookup_updateStatuses]
  show StatusFits _ _ _ (Option.map _ (gc.knownBlobs.lookup hash))
  cases hstatus : gc.knownBlobs.lookup hash with
  | none =>
    rw [hstatus] at hfits
    exact fun hknown => hfits (known_of_cons hknown nofun nofun)
  | some status =>
    rw [hstatus] at hfits
    refine hfits.cycle henough hclock ?_ ?_
    · rw [decide_eq_true_iff, h.mem_globalPinned hclock, hstatus, Option.some.injEq]
    · rw [decide_eq_true_iff, h.mem_globalActive hclock]

theorem Tracks.reports_pruned (h : Tracks config history gc)
    (hclock : Before history now) {later : Nat} (hle : now ≤ later) (node : NodeId) :
    ((gc.pruneStaleNodes now).nodeReports.lookup node).filter (fun report => !config.isStale later report) =
      (latestReport history node).filter fun report => !config.isStale later report := by
  rw [h.lookup_pruned hclock]
  cases latestReport history node with
  | none => rfl
  | some report =>
    cases hstale : config.isStale now report with
    | true =>
      have hlater := isStale_mono hle hstale
      simp [Option.filter, hstale, hlater]
    | false => simp [Option.filter, hstale]

theorem Tracks.runGcCycle (h : Tracks config history gc)
    (hclock : Before history now) :
    Tracks config (.runGcCycle now :: history) (gc.runGcCycle now).1 := by
  have henough := h.enough_iff hclock
  unfold GcCoordinator.runGcCycle
  dsimp only
  split
  · rename_i hfew
    refine ⟨h.configured, fun later hlater => h.reports_pruned hclock
      (hlater _ List.mem_cons_self now rfl), fun hash => ?_⟩
    refine (h.statuses hash).silent
      (silent_of_unrelated (fun h => known_of_cons h nofun nofun) nofun nofun fun other hother =>
      ?_)
    · rw [← Call.runGcCycle.inj hother]
      exact fun h => henough.mp h hfew
  · rename_i hmany
    refine ⟨h.configured, fun later hlater => h.reports_pruned hclock
      (hlater _ List.mem_cons_self now rfl), fun hash => ?_⟩
    have hconfig : (gc.pruneStaleNodes now).config = config := h.configured
    dsimp only
    rw [lookup_mark, hconfig]
    exact (h.updated hclock (henough.mpr hmany) hash).mark

theorem Tracks.reportActiveBlobs (h : Tracks config history gc) (report : NodeBlobReport) :
    Tracks config (.reportActiveBlobs report :: history) (gc.reportActiveBlobs report) := by
  refine ⟨h.configured, fun now hclock node => ?_, fun hash => ?_⟩
  · show ((gc.nodeReports.insert report.nodeId report).lookup node).filter _ = _
    by_cases hnode : node = report.nodeId
    · have hreport : (Call.reportActiveBlobs report).reportOf report.nodeId = some report := if_pos rfl
      unfold latestReport
      rw [hnode, AList.lookup_insert, List.findSome?_cons, hreport]
    · have hreport : (Call.reportActiveBlobs report).reportOf node = none :=
        if_neg fun heq => hnode heq.symm
      rw [AList.lookup_insert_ne hnode, latestReport_cons_of_none hreport]
      exact h.reports now (fun call hcall => hclock call (List.mem_cons_of_mem _ hcall)) node
  · exact (h.statuses hash).silent (silent_of_unrelated (fun h => known_of_cons h nofun nofun) nofun
      nofun nofun)

/-- Pruning by itself takes no report that a later cycle would count. -/
theorem Tracks.pruneStaleNodes (h : Tracks config history gc) (hclock : Before history now) :
    Tracks config (.pruneStaleNodes now :: history) (gc.pruneStaleNodes now) := by
  refine ⟨h.configured, fun later hlater => h.reports_pruned hclock
    (hlater _ List.mem_cons_self now rfl), fun hash => ?_⟩
  exact (h.statuses hash).silent (silent_of_unrelated (fun h => known_of_cons h nofun nofun) nofun
    nofun nofun)

/-- A call that only touches the status of one blob. -/
theorem Tracks.status_call (h : Tracks config history gc) {call : Call} {blob : BlobHash}
    {gc' : GcCoordinator}
    (hcall : call = .registerBlob blob ∨ call = .pinBlob blob ∨ call = .unpinBlob blob)
    (hconfig : gc'.config = gc.config) (hreports : gc'.nodeReports = gc.nodeReports)
    (hother : ∀ hash, hash ≠ blob → gc'.knownBlobs.lookup hash = gc.knownBlobs.lookup hash)
    (hself : StatusFits config blob (call :: history) (gc'.knownBlobs.lookup blob)) :
    Tracks config (call :: history) gc' := by
  refine ⟨hconfig.trans h.configured, fun now hclock node => ?_, fun hash => ?_⟩
  · have hnone : call.reportOf node = none := by rcases hcall with rfl | rfl | rfl <;> rfl
    rw [hreports, latestReport_cons_of_none hnone]
    exact h.reports now (fun call hcall => hclock call (List.mem_cons_of_mem _ hcall)) node
  -- the other blobs do not hear of the call
  · by_cases hhash : hash = blob
    · rw [hhash]
      exact hself
    · rw [hother hash hhash]
      refine (h.statuses hash).silent (silent_of_unrelated ?_ ?_ ?_ ?_)
      · have hne : call ≠ .registerBlob hash ∧ call ≠ .pinBlob hash := by
          rcases hcall with rfl | rfl | rfl
          · exact ⟨fun heq => hhash (Call.registerBlob.inj heq).symm, nofun⟩
          · exact ⟨nofun, fun heq => hhash (Call.pinBlob.inj heq).symm⟩
          · exact ⟨nofun, nofun⟩
        exact fun h => known_of_cons h hne.1 hne.2
      · rcases hcall with rfl | rfl | rfl
        · exact nofun
        · exact fun heq => hhash (Call.pinBlob.inj heq).symm
        · exact nofun
      · rcases hcall with rfl | rfl | rfl
        · exact nofun
        · exact nofun
        · exact fun heq => hhash (Call.unpinBlob.inj heq).symm
      · rcases hcall with rfl | rfl | rfl <;> exact nofun

theorem Clocked.before {call : Call} (h : Clocked (call :: history)) (hnow : call.time = some now) :
    Before history now := by
  unfold Clocked at h
  rw [List.filterMap_cons_some hnow] at h
  exact fun earlier hmem before hbefore =>
    (List.pairwise_cons.mp h).1 before (List.mem_filterMap.mpr ⟨earlier, hmem, hbefore⟩)

theorem Clocked.tail {call : Call} (h : Clocked (call :: history)) : Clocked history :=
  List.Pairwise.sublist ((List.sublist_cons_self call history).filterMap Call.time) h

theorem Tracks.call (h : Tracks config history gc) {call : Call} (hclock : Clocked (call :: history)) :
    Tracks config (call :: history) (gc.call call) := by
  cases call with
  | runGcCycle now => exact h.runGcCycle (hclock.before rfl)
  | pruneStaleNodes now => exact h.pruneStaleNodes (hclock.before rfl)
  | reportActiveBlobs report => exact h.reportActiveBlobs report
  -- a blob that is known keeps its status
  | registerBlob blob =>
    have hlookup : ∀ hash, (gc.registerBlob blob).knownBlobs.lookup hash =
        (gc.knownBlobs.lookup hash).or (if hash = blob then some .active else none) :=
          fun hash => lookup_orInsert _ _ _ _
    refine h.status_call (Or.inl rfl) rfl rfl (fun hash hne => ?_) ?_
    · show (gc.registerBlob blob).knownBlobs.lookup hash = _
      rw [hlookup, if_neg hne, Option.or_none]
    · show StatusFits config blob _ ((gc.registerBlob blob).knownBlobs.lookup blob)
      have hdefault : (gc.knownBlobs.lookup blob).or (some .active) = some
          ((gc.knownBlobs.lookup blob).getD .active) := by
        cases gc.knownBlobs.lookup blob <;> rfl
      rw [hlookup, if_pos rfl, hdefault]
      exact (h.statuses blob).register
  | pinBlob blob =>
    refine h.status_call (Or.inr (Or.inl rfl)) rfl rfl (fun hash hne => AList.lookup_insert_ne hne) ?_
    show StatusFits config blob _ ((gc.knownBlobs.insert blob .pinned).lookup blob)
    rw [AList.lookup_insert]
    exact statusFits_pin
  | unpinBlob blob =>
    have hfits := h.statuses blob
    show Tracks config _ (gc.unpinBlob blob)
    unfold unpinBlob
    -- the source changes the status only of a pinned blob; the history forgets the pin in both
    -- cases
    split
    · rename_i hpinned
      rw [hpinned] at hfits
      refine h.status_call (Or.inr (Or.inr rfl)) rfl rfl (fun hash hne => AList.lookup_insert_ne hne) ?_
      dsimp only
      rw [AList.lookup_insert]
      exact hfits.unpin
    · rename_i hpinned
      refine h.status_call (Or.inr (Or.inr rfl)) rfl rfl (fun hash hne => rfl) ?_
      cases hstatus : gc.knownBlobs.lookup blob with
      | none =>
        rw [hstatus] at hfits
        exact fun hknown => hfits (known_of_cons hknown nofun nofun)
      | some status =>
        rw [hstatus] at hfits hpinned
        have hunpin := hfits.unpin
        rwa [if_neg fun heq => hpinned (congrArg some heq)] at hunpin

/-- The coordinator holds what its history says, after every run. -/
theorem tracks_after (config : GcConfig) {history : List Call} (hclock : Clocked history) :
    Tracks config history (config.after history) := by
  induction history with
  | nil =>
    refine ⟨rfl, fun now _ node => rfl, fun hash => ?_⟩
    rintro (hregister | hpin)
    · exact absurd hregister List.not_mem_nil
    · exact absurd hpin List.not_mem_nil
  | cons call history ih => exact (ih hclock.tail).call hclock

/-- What a cycle reports, in terms of the history. -/
theorem mem_eligible_iff (config : GcConfig) {history : List Call} {now : Nat}
    (hclock : Clocked (.runGcCycle now :: history)) (hash : BlobHash) :
    hash ∈ ((config.after history).runGcCycle now).2.eligibleForCollection ↔
      EnoughNodes config history now ∧
        ∃ t0, FreeSince config hash (.runGcCycle now :: history) t0 ∧ config.gracePeriod ≤ now - t0 := by
  have hbefore : Before history now := hclock.before rfl
  have htracks := tracks_after config hclock.tail
  have henough := htracks.enough_iff hbefore
  unfold GcCoordinator.runGcCycle
  dsimp only
  split
  · rename_i hfew
    exact ⟨fun h => absurd h List.not_mem_nil, fun h => absurd hfew (henough.mp h.1)⟩
  · rename_i hmany
    have hconfig : ((config.after history).pruneStaleNodes now).config = config := htracks.configured
    have hall := henough.mpr hmany
    have hbefore' : Before (.runGcCycle now :: history) now := by
      intro call hmem before htime
      rcases List.mem_cons.mp hmem with rfl | hmem
      · exact (Option.some.inj htime).ge
      · exact hbefore call hmem before htime
    rw [and_iff_right hall, ← (htracks.updated hbefore hall hash).eligible_iff hbefore']
    dsimp only
    rw [mem_withStatus, hconfig]

end

/-- A cycle at `now` sees enough reports, none of them with the blob, and no pin of the coordinator;
and some cycle, this one or an earlier one, found the blob free a grace period ago, with nothing to
hold it since. `also` may ask for more of the calls since that cycle and of those before it. -/
def FreeForGrace (config : GcConfig) (hash : BlobHash) (history : List Call) (now : Nat)
    (also : List Call → List Call → Prop) : Prop :=
  EnoughNodes config history now ∧ lastPinCall history hash ≠ some true ∧
    ¬Referenced config hash history now ∧
    ∃ since t0 past, .runGcCycle now :: history = since ++ .runGcCycle t0 :: past ∧
      config.gracePeriod ≤ now - t0 ∧
      FreeFrom config hash since t0 past ∧ also since past

/-- Every reported blob has been free for the grace period; and a blob that has been free for it,
since a cycle at which no pin of a node was left over, is reported. -/
theorem reported_of_free_for_grace (config : GcConfig) (history : List Call) (now : Nat)
    (hclock : Clocked (.runGcCycle now :: history)) (hash : BlobHash) :
    (hash ∈ ((config.after history).runGcCycle now).2.eligibleForCollection →
      FreeForGrace config hash history now fun _ _ => True) ∧
    ((FreeForGrace config hash history now fun _ past => ¬PinLeft config hash past) →
      hash ∈ ((config.after history).runGcCycle now).2.eligibleForCollection) := by
  rw [mem_eligible_iff config hclock hash]
  constructor
  · rintro ⟨henough, t0, hfree, hgrace⟩
    have hnow : lastPinCall history hash ≠ some true ∧ ¬Referenced config hash history now := by
      rcases freeSince_cons.mp hfree with ⟨hcall, hfound, -⟩ | ⟨hfree, -, hnotHeld⟩
      · rw [Call.runGcCycle.inj hcall]
        exact ⟨hfound.unpinned, hfound.unreferenced⟩
      · exact ⟨fun hpin => hnotHeld now rfl ⟨henough, Or.inl hpin⟩, fun h => hnotHeld now rfl
          ⟨henough, Or.inr h⟩⟩
    obtain ⟨since, past, hsplit, hfrom, -⟩ := hfree
    exact ⟨henough, hnow.1, hnow.2, since, t0, past, hsplit, hgrace, hfrom, trivial⟩
  · rintro ⟨henough, -, -, since, t0, past, hsplit, hgrace, hfrom, hleft⟩
    exact ⟨henough, t0, ⟨since, past, hsplit, hfrom, hleft⟩, hgrace⟩

/-- After every history, a blob has a status once it was registered or pinned, and it is `pinned`
exactly while it is held. -/
theorem getStatus_reads_history (config : GcConfig) {history : List Call} (hclock : Clocked history)
    (hash : BlobHash) :
    ((config.after history).getStatus hash = none ↔ ¬Known history hash) ∧
      ((config.after history).getStatus hash = some .pinned ↔ Held config hash history) := by
  have hfits := (tracks_after config hclock).statuses hash
  unfold GcCoordinator.getStatus
  cases hstatus : (config.after history).knownBlobs.lookup hash with
  | none =>
    rw [hstatus] at hfits
    exact ⟨iff_of_true rfl hfits, iff_of_false nofun fun hheld => hfits hheld.known⟩
  | some status =>
    rw [hstatus] at hfits
    refine ⟨iff_of_false nofun (not_not.mpr hfits.known), fun h => ?_, fun hheld => ?_⟩
    · rw [h] at hfits
      exact hfits.2
    · by_contra hne
      exact hfits.not_held (fun h => hne (h ▸ rfl)) hheld

/-! ## Registering again, and a pin that sticks -/

def zeroHash : BlobHash := Vector.replicate 32 0

def emptyReport : NodeBlobReport := { nodeId := 1, activeBlobs := ∅, pinnedBlobs := ∅, timestamp := 0 }

def pinningReport : NodeBlobReport := { emptyReport with pinnedBlobs := {zeroHash} }

def tenTicks : GcConfig := { gracePeriod := 10, staleReportThreshold := 100, minNodesReporting := 1 }

/-- A node pins the blob, a cycle sees it, the node goes silent and its report is pruned, and a
further cycle runs. -/
def pinnedBySilentNode : List Call :=
  [.runGcCycle 150, .reportActiveBlobs { emptyReport with nodeId := 2, timestamp := 140 },
    .pruneStaleNodes 120, .runGcCycle 5, .reportActiveBlobs pinningReport, .registerBlob zeroHash]

theorem pinned_status_of_silent_node :
    Clocked pinnedBySilentNode ∧ (tenTicks.after pinnedBySilentNode).getStatus zeroHash = some .pinned := by
  have hclock : Clocked pinnedBySilentNode := by decide
  refine ⟨hclock, (getStatus_reads_history tenTicks hclock zeroHash).2.mpr (Or.inr ?_)⟩
  refine ⟨pinnedBySilentNode.take 3, 5, [.reportActiveBlobs pinningReport, .registerBlob zeroHash], rfl,
    ⟨by decide +kernel, Or.inl (by decide +kernel), pinningReport, ⟨rfl, rfl⟩, ?_⟩, by decide +kernel⟩
  exact Finset.mem_singleton_self zeroHash

theorem not_referenced_of_latest {history : List Call} {now : Nat}
    (h : ∀ node report, latestReport history node = some report → report = emptyReport) (config : GcConfig)
    (hash : BlobHash) : ¬Referenced config hash history now := by
  rintro (⟨report, hcurrent, hmem⟩ | ⟨report, hcurrent, hmem⟩)
  · rw [h _ report hcurrent.1] at hmem
    exact absurd hmem (Finset.notMem_empty hash)
  · rw [h _ report hcurrent.1] at hmem
    exact absurd hmem (Finset.notMem_empty hash)

/-- One registration and a report without blobs. -/
def reportedEmpty : List Call := [.reportActiveBlobs emptyReport, .registerBlob zeroHash]

theorem foundFree_reportedEmpty : FoundFree tenTicks zeroHash reportedEmpty 0 := by
  refine ⟨by decide +kernel, Or.inl (by decide +kernel), by decide +kernel, ?_⟩
  refine not_referenced_of_latest (fun node report hlatest => ?_) _ _
  have hmem := (of_latestReport hlatest).2
  simpa [reportedEmpty] using hmem

/-- Ten ticks after the cycle that found it free the blob is reported. -/
theorem reported_after_ten_ticks :
    zeroHash ∈ ((tenTicks.after (.runGcCycle 0 :: reportedEmpty)).runGcCycle
      10).2.eligibleForCollection := by
  have hclock : Clocked (.runGcCycle 10 :: .runGcCycle 0 :: reportedEmpty) := by decide
  refine (reported_of_free_for_grace tenTicks _ 10 hclock zeroHash).2 ?_
  have hunreferenced : ¬Referenced tenTicks zeroHash (.runGcCycle 0 :: reportedEmpty) 10 := by
    refine not_referenced_of_latest (fun node report hlatest => ?_) _ _
    have hmem := (of_latestReport hlatest).2
    simpa [reportedEmpty] using hmem
  refine ⟨by decide +kernel, by decide +kernel, hunreferenced, [.runGcCycle 10], 0, reportedEmpty, rfl,
    by decide,
    ⟨foundFree_reportedEmpty, fun recent now earlier hsince hheld => ?_, by decide⟩, ?_⟩
  · cases recent with
    | nil =>
      obtain ⟨hnow, rfl⟩ := List.cons.inj hsince
      obtain rfl := Call.runGcCycle.inj hnow
      exact hheld.2.elim (by decide +kernel) hunreferenced
    | cons first recent => cases recent <;> cases hsince
  · rintro ⟨recent, now, earlier, hsplit, -⟩
    have hmem : Call.runGcCycle now ∈ reportedEmpty := by
      rw [hsplit]
      exact List.mem_append_right _ List.mem_cons_self
    simp [reportedEmpty] at hmem

def reregistered : List Call := .registerBlob zeroHash :: .runGcCycle 0 :: reportedEmpty

/-- A node pins the blob through one cycle and no longer. -/
def pinnedOnce : List Call :=
  [.reportActiveBlobs emptyReport, .runGcCycle 0, .reportActiveBlobs pinningReport, .registerBlob zeroHash]

theorem latestReport_pinnedOnce {node : NodeId} {report : NodeBlobReport}
    (h : latestReport pinnedOnce node = some report) : report = emptyReport := by
  obtain ⟨hnode, hmem⟩ := of_latestReport h
  have hone : report.nodeId = 1 := by
    simp only [pinnedOnce, List.mem_cons, Call.reportActiveBlobs.injEq, reduceCtorEq,
      List.not_mem_nil, false_or, or_false] at hmem
    rcases hmem with rfl | rfl
    · rfl
    · rfl
  rw [← hnode, hone] at h
  exact (Option.some.inj h).symm

/-- A blob registered again is reported as if it had not been; and one that a node has pinned
through one cycle is not reported afterwards, though nothing holds it. -/
theorem reregistered_reported_pinnedOnce_kept :
    ¬(∀ config history now, Clocked (.runGcCycle now :: history) → ∀ hash, Known history hash →
      hash ∈ ((config.after history).runGcCycle now).2.eligibleForCollection →
        FreeForGrace config hash history now fun since _ => .registerBlob hash ∉ since) ∧
    ¬(∀ config history now, Clocked (.runGcCycle now :: history) → ∀ hash, Known history hash →
      (FreeForGrace config hash history now fun since _ => .registerBlob hash ∉ since) →
        hash ∈ ((config.after history).runGcCycle now).2.eligibleForCollection) := by
  constructor
  · intro h
    have hclock : Clocked (.runGcCycle 10 :: reregistered) := by decide
    obtain ⟨-, -, -, since, t0, past, hsplit, hgrace, -, hregister⟩ :=
      h tenTicks reregistered 10 hclock zeroHash (Or.inl List.mem_cons_self) (by decide +kernel)
    -- Only the cycle itself comes after the registration, and it is too young.
    cases since with
    | nil =>
      obtain rfl := Call.runGcCycle.inj (List.cons.inj hsplit).1
      exact absurd hgrace (by decide)
    | cons first since =>
      cases since with
      | nil => cases (List.cons.inj hsplit).2
      | cons second since =>
        have hsecond := (List.cons.inj (List.cons.inj hsplit).2).1
        exact hregister (hsecond ▸ List.mem_cons_of_mem _ List.mem_cons_self)
  · intro h
    have hclock : Clocked (.runGcCycle 0 :: pinnedOnce) := by decide
    have hunreferenced : ∀ config, ¬Referenced config zeroHash pinnedOnce 0 := fun config =>
      not_referenced_of_latest (fun node report => latestReport_pinnedOnce) config zeroHash
    have hreported := h { tenTicks with gracePeriod := 0 } pinnedOnce 0 hclock zeroHash
        (Or.inl (by decide +kernel))
      ⟨by decide +kernel, by decide +kernel, hunreferenced _, [], 0, pinnedOnce, rfl, by decide,
        ⟨⟨by decide +kernel, Or.inl (by decide +kernel), by decide +kernel, hunreferenced _⟩,
          fun recent now earlier hsince => (by cases recent <;> cases hsince), List.not_mem_nil⟩,
            List.not_mem_nil⟩
    exact absurd hreported (by decide +kernel)

end ShapeLang.BlobGc
