import Mathlib

/-!
# The stop-the-world coordinator

Before a thread collects it raises a flag and waits until every other registered thread is parked at
a safepoint or inside a GC-safe region (`crates/shape-value/src/gc_coordinator.rs`). The handshake
is one number: how many parks and regions there are, compared with how many threads are registered.

A state is what the coordinator holds together with where the threads are. The steps are the
sections that a thread runs under the state lock or with one atomic operation, so a run is an
interleaving of them. A wait on a condition variable is a step that is possible only when the thread
may go on.
-/

namespace ShapeLang.Gc

/-! ## States and steps -/

/-- Where the thread that holds the collector lock is in `collect_under_stop_bounded`. -/
inductive Phase where
  /-- The lock is taken, the flag not yet raised. -/
  | locked
  /-- At the ack barrier. -/
  | awaiting
  /-- In the callback. -/
  | collecting
  /-- Behind the callback or the timeout, the flag still up. -/
  | resuming
  /-- The flag is down, the lock not yet released. -/
  | cleared
  deriving DecidableEq

structure Coordinator (T : Type) where
  registered : Nat
  parked : Nat
  stopRequested : Bool
  /-- The holder of the collector lock. -/
  collector : Option (T × Phase)
  /-- The threads that hold a `MutatorHandle`. -/
  handles : Finset T
  /-- The threads inside `park_at_safepoint`. -/
  waiting : Finset T
  /-- The live `GcSafeRegion` guards, by thread. -/
  regions : Multiset T

inductive Action (T : Type) where
  /-- `MutatorHandle::register`. -/
  | register (t : T)
  /-- The thread exits and its handle is dropped. -/
  | deregister (t : T)
  /-- `park_at_safepoint` up to its wait. -/
  | park (t : T)
  /-- The rest of it. -/
  | unpark (t : T)
  /-- `GcSafeRegion::enter`, behind its registration. -/
  | enter (t : T)
  /-- A guard is dropped. -/
  | leave (t : T)
  /-- `collect_under_stop_bounded` up to its `try_lock`. -/
  | request (t : T)
  | raise
  | ack
  | timeout
  | finish
  | clear
  | unlock

section

variable {T : Type} [DecidableEq T]

def Coordinator.init : Coordinator T where
  registered := 0
  parked := 0
  stopRequested := false
  collector := none
  handles := ∅
  waiting := ∅
  regions := 0

/-- The thread neither waits at a safepoint nor is it the initiator of a collection. -/
def Coordinator.Idle (s : Coordinator T) (t : T) : Prop := t ∉ s.waiting ∧ s.collector.map Prod.fst ≠ some t

instance (s : Coordinator T) (t : T) : Decidable (s.Idle t) := inferInstanceAs (Decidable (_ ∧ _))

def step (s : Coordinator T) : Action T → Option (Coordinator T)
  | .register t =>
    if t ∉ s.handles ∧ s.Idle t then
      some { s with registered := s.registered + 1, handles := insert t s.handles }
    else none
  | .deregister t =>
    -- guards are values on the stack: they are gone when the thread exits
    if t ∈ s.handles ∧ s.Idle t ∧ t ∉ s.regions then
      some { s with registered := s.registered - 1, handles := s.handles.erase t }
    else none
  | .park t =>
    if s.Idle t then
      if s.stopRequested then some { s with parked := s.parked + 1, waiting := insert t s.waiting }
        else some s
    else none
  | .unpark t =>
    if t ∈ s.waiting ∧ s.stopRequested = false then
      some { s with parked := s.parked - 1, waiting := s.waiting.erase t }
    else none
  | .enter t =>
    if t ∈ s.handles ∧ s.Idle t then
      some { s with parked := s.parked + 1, regions := t ::ₘ s.regions } else none
  | .leave t =>
    if t ∈ s.regions ∧ s.Idle t ∧ s.stopRequested = false then
      some { s with parked := s.parked - 1, regions := s.regions.erase t }
    else none
  | .request t =>
    if s.Idle t then
      match s.collector with
      | none => some { s with collector := some (t, .locked) }
      | some _ => some s
    else none
  | .raise =>
    match s.collector with
    | some (t, .locked) => some { s with stopRequested := true, collector := some (t, .awaiting) }
    | _ => none
  | .ack =>
    match s.collector with
    | some (t, .awaiting) =>
      -- Target excludes the initiator itself.
      if s.registered - 1 ≤ s.parked then some { s with collector := some (t, .collecting) } else none
    | _ => none
  | .timeout =>
    match s.collector with
    | some (t, .awaiting) => some { s with collector := some (t, .resuming) }
    | _ => none
  | .finish =>
    match s.collector with
    | some (t, .collecting) => some { s with collector := some (t, .resuming) }
    | _ => none
  | .clear =>
    match s.collector with
    | some (t, .resuming) => some { s with stopRequested := false, collector := some (t, .cleared) }
    | _ => none
  | .unlock =>
    match s.collector with
    | some (_, .cleared) => some { s with collector := none }
    | _ => none

/-! ## Runs -/

/-- The states that runs reach whose steps all meet a condition on the state before the step. -/
inductive Reachable (allowed : Coordinator T → Action T → Prop) : Coordinator T → Prop
  | init : Reachable allowed .init
  | step {s s' : Coordinator T} {a : Action T} (h : Reachable allowed s) (hallowed : allowed s a)
      (hstep : step s a = some s') : Reachable allowed s'

/-- While the callback runs, every registered thread other than the initiator is parked or inside a
region. -/
def Stopped (s : Coordinator T) : Prop :=
  ∀ i, s.collector = some (i, .collecting) → ∀ t ∈ s.handles, t ≠ i → t ∈ s.waiting ∨ t ∈ s.regions

/-- Regions are not nested, a thread parks or collects only when it is registered and in no region,
and no thread registers while the callback of a collection runs. -/
def Careful (s : Coordinator T) : Action T → Prop
  | .register _ => s.collector.map Prod.snd ≠ some .collecting
  | .park t => s.stopRequested = true → t ∈ s.handles ∧ t ∉ s.regions
  | .enter t => t ∉ s.regions
  | .request t => s.collector = none → t ∈ s.handles ∧ t ∉ s.regions
  | _ => True

instance (s : Coordinator T) (a : Action T) : Decidable (Careful s a) := by
  cases a <;> unfold Careful <;> infer_instance

/-- The state behind a list of steps, if they are possible and meet the condition. -/
def runWith (allowed : Coordinator T → Action T → Prop) [∀ s a, Decidable (allowed s a)]
    (s : Coordinator T) :
    List (Action T) → Option (Coordinator T)
  | [] => some s
  | a :: actions => if allowed s a then (step s a).bind fun s' => runWith allowed s' actions else none

theorem Reachable.runWith {allowed : Coordinator T → Action T → Prop} [∀ s a, Decidable (allowed s a)]
    {actions : List (Action T)} {s s' : Coordinator T} (h : Reachable allowed s)
    (hrun : runWith allowed s actions = some s') : Reachable allowed s' := by
  induction actions generalizing s with
  | nil =>
    obtain rfl := Option.some.inj hrun
    exact h
  | cons a actions ih =>
    rw [Gc.runWith] at hrun
    split at hrun
    · next hallowed =>
      obtain ⟨s₁, hstep, hrun⟩ := Option.bind_eq_some_iff.mp hrun
      exact ih (h.step hallowed hstep) hrun
    · cases hrun

/-! ## What a step does -/

inductive Steps (s : Coordinator T) : Action T → Coordinator T → Prop
  | register (t : T) (hnew : t ∉ s.handles) (hidle : s.Idle t) :
      Steps s (.register t) { s with registered := s.registered + 1, handles := insert t s.handles }
  | deregister (t : T) (hmem : t ∈ s.handles) (hidle : s.Idle t) (hout : t ∉ s.regions) :
      Steps s (.deregister t) { s with registered := s.registered - 1, handles := s.handles.erase t }
  | park (t : T) (hidle : s.Idle t) (hstop : s.stopRequested = true) :
      Steps s (.park t) { s with parked := s.parked + 1, waiting := insert t s.waiting }
  | pass (t : T) : Steps s (.park t) s
  | unpark (t : T) (hmem : t ∈ s.waiting) (hstop : s.stopRequested = false) :
      Steps s (.unpark t) { s with parked := s.parked - 1, waiting := s.waiting.erase t }
  | enter (t : T) (hmem : t ∈ s.handles) (hidle : s.Idle t) :
      Steps s (.enter t) { s with parked := s.parked + 1, regions := t ::ₘ s.regions }
  | leave (t : T) (hmem : t ∈ s.regions) (hstop : s.stopRequested = false) :
      Steps s (.leave t) { s with parked := s.parked - 1, regions := s.regions.erase t }
  | request (t : T) (hidle : s.Idle t) (hnone : s.collector = none) :
      Steps s (.request t) { s with collector := some (t, .locked) }
  | busy (t : T) : Steps s (.request t) s
  | raise (t : T) (hphase : s.collector = some (t, .locked)) :
      Steps s .raise { s with stopRequested := true, collector := some (t, .awaiting) }
  | ack (t : T) (hphase : s.collector = some (t, .awaiting)) (hacked : s.registered - 1 ≤ s.parked) :
      Steps s .ack { s with collector := some (t, .collecting) }
  | timeout (t : T) (hphase : s.collector = some (t, .awaiting)) :
      Steps s .timeout { s with collector := some (t, .resuming) }
  | finish (t : T) (hphase : s.collector = some (t, .collecting)) :
      Steps s .finish { s with collector := some (t, .resuming) }
  | clear (t : T) (hphase : s.collector = some (t, .resuming)) :
      Steps s .clear { s with stopRequested := false, collector := some (t, .cleared) }
  | unlock (t : T) (hphase : s.collector = some (t, .cleared)) : Steps s .unlock
      { s with collector := none }

theorem steps_of_step {s s' : Coordinator T} {a : Action T} (h : step s a = some s') : Steps s a s' := by
  -- one case for each action; a guard that fails gives no step
  cases a with
  | register t =>
    rw [step] at h
    split at h
    · next hguard => cases h; exact .register t hguard.1 hguard.2
    · cases h
  | deregister t =>
    rw [step] at h
    split at h
    · next hguard => cases h; exact .deregister t hguard.1 hguard.2.1 hguard.2.2
    · cases h
  | park t =>
    rw [step] at h
    split at h
    · next hidle =>
      split at h
      · next hstop => cases h; exact .park t hidle hstop
      · cases h; exact .pass t
    · cases h
  | unpark t =>
    rw [step] at h
    split at h
    · next hguard => cases h; exact .unpark t hguard.1 hguard.2
    · cases h
  | enter t =>
    rw [step] at h
    split at h
    · next hguard => cases h; exact .enter t hguard.1 hguard.2
    · cases h
  | leave t =>
    rw [step] at h
    split at h
    · next hguard => cases h; exact .leave t hguard.1 hguard.2.2
    · cases h
  | request t =>
    rw [step] at h
    split at h
    · next hidle =>
      split at h
      · next hnone => cases h; exact .request t hidle hnone
      · cases h; exact .busy t
    · cases h
  | raise =>
    rw [step] at h
    split at h
    · next t hphase => cases h; exact .raise t hphase
    · cases h
  | ack =>
    rw [step] at h
    split at h
    · next t hphase =>
      split at h
      · next hacked => cases h; exact .ack t hphase hacked
      · cases h
    · cases h
  | timeout =>
    rw [step] at h
    split at h
    · next t hphase => cases h; exact .timeout t hphase
    · cases h
  | finish =>
    rw [step] at h
    split at h
    · next t hphase => cases h; exact .finish t hphase
    · cases h
  | clear =>
    rw [step] at h
    split at h
    · next t hphase => cases h; exact .clear t hphase
    · cases h
  | unlock =>
    rw [step] at h
    split at h
    · next t hphase => cases h; exact .unlock t hphase
    · cases h

/-! ## The numbers

Whatever the threads do, the two numbers count the handles, and the parks together with the regions. -/

structure Counted (s : Coordinator T) : Prop where
  registered : s.registered = s.handles.card
  parked : s.parked = s.waiting.card + Multiset.card s.regions

omit [DecidableEq T] in
theorem counted_init : Counted (.init : Coordinator T) := ⟨rfl, rfl⟩

theorem Counted.step {s s' : Coordinator T} {a : Action T} (h : Counted s) (hstep : Steps s a s') :
    Counted s' := by
  obtain ⟨hregistered, hparked⟩ := h
  -- `registered` counts handles, `parked` counts waiting threads and regions
  cases hstep with
  | register t hnew hidle =>
    refine ⟨?_, hparked⟩
    show s.registered + 1 = (insert t s.handles).card
    rw [Finset.card_insert_of_notMem hnew, hregistered]
  | deregister t hmem hidle hout =>
    refine ⟨?_, hparked⟩
    show s.registered - 1 = (s.handles.erase t).card
    rw [Finset.card_erase_of_mem hmem, hregistered]
  | park t hidle hstop =>
    refine ⟨hregistered, ?_⟩
    show s.parked + 1 = (insert t s.waiting).card + Multiset.card s.regions
    rw [Finset.card_insert_of_notMem hidle.1, hparked]
    omega
  | unpark t hmem hstop =>
    refine ⟨hregistered, ?_⟩
    show s.parked - 1 = (s.waiting.erase t).card + Multiset.card s.regions
    have hpos : 0 < s.waiting.card := Finset.card_pos.mpr ⟨t, hmem⟩
    rw [Finset.card_erase_of_mem hmem, hparked]
    omega
  | enter t hmem hidle =>
    refine ⟨hregistered, ?_⟩
    show s.parked + 1 = s.waiting.card + Multiset.card (t ::ₘ s.regions)
    rw [Multiset.card_cons, hparked]
    omega
  | leave t hmem hstop =>
    refine ⟨hregistered, ?_⟩
    show s.parked - 1 = s.waiting.card + Multiset.card (s.regions.erase t)
    have hpos : 0 < Multiset.card s.regions := Multiset.card_pos_iff_exists_mem.mpr ⟨t, hmem⟩
    rw [Multiset.card_erase_of_mem hmem, hparked, Nat.pred_eq_sub_one]
    omega
  | _ => exact ⟨hregistered, hparked⟩

/-! ## One count for each thread

With careful steps every thread counts at most once, only registered threads count, and the
initiator does not. -/

structure Disciplined (s : Coordinator T) : Prop where
  nodup : s.regions.Nodup
  region_registered : ∀ t ∈ s.regions, t ∈ s.handles
  waiting_registered : ∀ t ∈ s.waiting, t ∈ s.handles
  apart : ∀ t ∈ s.waiting, t ∉ s.regions
  initiator : ∀ i phase, s.collector = some (i, phase) → i ∈ s.handles ∧ i ∉ s.regions ∧ i ∉ s.waiting
  flag : ∀ i, s.collector = some (i, .awaiting) ∨ s.collector = some (i, .collecting) →
    s.stopRequested = true

omit [DecidableEq T] in
theorem disciplined_init : Disciplined (.init : Coordinator T) :=
  ⟨Multiset.nodup_zero, fun _ h => absurd h (Multiset.notMem_zero _), fun _ h => absurd h
    (Finset.notMem_empty _),
    fun _ h => absurd h (Finset.notMem_empty _), nofun, by rintro i (h | h) <;> cases h⟩

omit [DecidableEq T] in
/-- Only the phase of the collector changes, or the flag with it. -/
theorem Disciplined.phase {s : Coordinator T} (h : Disciplined s) {i : T} {old new : Phase} {stop : Bool}
    (hold : s.collector = some (i, old)) (hflag : new = .awaiting ∨ new = .collecting → stop = true) :
    Disciplined { s with stopRequested := stop, collector := some (i, new) } := by
  refine ⟨h.nodup, h.region_registered, h.waiting_registered, h.apart, fun j phase hj => ?_,
    fun j hj => hflag ?_⟩
  · cases hj
    exact h.initiator i old hold
  · rcases hj with hj | hj
    · cases hj
      exact Or.inl rfl
    · cases hj
      exact Or.inr rfl

omit [DecidableEq T] in
theorem Coordinator.Idle.ne {s : Coordinator T} {t i : T} {phase : Phase} (h : s.Idle t)
    (hc : s.collector = some (i, phase)) :
    i ≠ t := by
  intro heq
  refine h.2 ?_
  rw [hc, heq]
  rfl

theorem Disciplined.step {s s' : Coordinator T} {a : Action T} (h : Disciplined s) (hcareful : Careful s a)
    (hstep : Steps s a s') : Disciplined s' := by
  cases hstep with
  | register t hnew hidle =>
    refine ⟨h.nodup, fun u hu => Finset.mem_insert_of_mem (h.region_registered u hu),
      fun u hu => Finset.mem_insert_of_mem (h.waiting_registered u hu), h.apart, fun i phase hi =>
        ?_, h.flag⟩
    obtain ⟨hmem, hrest⟩ := h.initiator i phase hi
    exact ⟨Finset.mem_insert_of_mem hmem, hrest⟩
  | deregister t hmem hidle hout =>
    refine ⟨h.nodup, fun u hu => ?_, fun u hu => ?_, h.apart, fun i phase hi => ?_, h.flag⟩
    · exact Finset.mem_erase.mpr ⟨fun heq => hout (heq ▸ hu), h.region_registered u hu⟩
    · exact Finset.mem_erase.mpr ⟨fun heq => hidle.1 (heq ▸ hu), h.waiting_registered u hu⟩
    · obtain ⟨himem, hrest⟩ := h.initiator i phase hi
      exact ⟨Finset.mem_erase.mpr ⟨hidle.ne hi, himem⟩, hrest⟩
  -- parking inside a region, or without a handle, would be counted against another thread
  | park t hidle hstop =>
    obtain ⟨hreg, hout⟩ := hcareful hstop
    refine ⟨h.nodup, h.region_registered, fun u hu => ?_, fun u hu => ?_, fun i phase hi => ?_, h.flag⟩
    · rcases Finset.mem_insert.mp hu with rfl | hu
      · exact hreg
      · exact h.waiting_registered u hu
    · rcases Finset.mem_insert.mp hu with rfl | hu
      · exact hout
      · exact h.apart u hu
    · obtain ⟨himem, hiout, hiwait⟩ := h.initiator i phase hi
      refine ⟨himem, hiout, fun hmem => ?_⟩
      exact hiwait ((Finset.mem_insert.mp hmem).resolve_left (hidle.ne hi))
  | unpark t hmem hstop =>
    refine ⟨h.nodup, h.region_registered, fun u hu => h.waiting_registered u (Finset.mem_of_mem_erase hu),
      fun u hu => h.apart u (Finset.mem_of_mem_erase hu), fun i phase hi => ?_, h.flag⟩
    obtain ⟨himem, hiout, hiwait⟩ := h.initiator i phase hi
    exact ⟨himem, hiout, fun hmem => hiwait (Finset.mem_of_mem_erase hmem)⟩
  -- a second region of a thread would be counted twice
  | enter t hmem hidle =>
    refine ⟨Multiset.nodup_cons.mpr ⟨hcareful, h.nodup⟩, fun u hu => ?_, h.waiting_registered,
      fun u hu hreg => ?_, fun i phase hi => ?_, h.flag⟩
    · rcases Multiset.mem_cons.mp hu with rfl | hu
      · exact hmem
      · exact h.region_registered u hu
    · rcases Multiset.mem_cons.mp hreg with rfl | hreg
      · exact hidle.1 hu
      · exact h.apart u hu hreg
    · obtain ⟨himem, hiout, hiwait⟩ := h.initiator i phase hi
      refine ⟨himem, fun hreg => ?_, hiwait⟩
      exact hiout ((Multiset.mem_cons.mp hreg).resolve_left (hidle.ne hi))
  | leave t hmem hstop =>
    refine ⟨h.nodup.erase t, fun u hu => h.region_registered u (Multiset.mem_of_mem_erase hu),
      h.waiting_registered, fun u hu hreg => h.apart u hu (Multiset.mem_of_mem_erase hreg),
      fun i phase hi => ?_, h.flag⟩
    obtain ⟨himem, hiout, hiwait⟩ := h.initiator i phase hi
    exact ⟨himem, fun hreg => hiout (Multiset.mem_of_mem_erase hreg), hiwait⟩
  -- the collector is registered, in no region, and does not wait
  | request t hidle hnone =>
    obtain ⟨hreg, hout⟩ := hcareful hnone
    refine ⟨h.nodup, h.region_registered, h.waiting_registered, h.apart, fun i phase hi => ?_,
      fun i hi => ?_⟩
    · cases hi
      exact ⟨hreg, hout, hidle.1⟩
    · rcases hi with hi | hi <;> cases hi
  | pass t => exact h
  | busy t => exact h
  | raise t hphase => exact h.phase hphase fun _ => rfl
  | ack t hphase hacked => exact h.phase hphase fun _ => h.flag t (Or.inl hphase)
  | timeout t hphase => exact h.phase hphase (by rintro (hnew | hnew) <;> cases hnew)
  | finish t hphase => exact h.phase hphase (by rintro (hnew | hnew) <;> cases hnew)
  | clear t hphase => exact h.phase hphase (by rintro (hnew | hnew) <;> cases hnew)
  | unlock t hphase =>
    exact ⟨h.nodup, h.region_registered, h.waiting_registered, h.apart, nofun,
      by rintro i (hi | hi) <;> cases hi⟩

/-! ## The stop -/

/-- At the barrier the number of parks and regions is the number of the other threads, so each of
them has one. -/
theorem Disciplined.stopped_of_acked {s : Coordinator T} (h : Disciplined s) (hcounted : Counted s) {i : T}
    (hphase : s.collector = some (i, .awaiting)) (hacked : s.registered - 1 ≤ s.parked) :
    ∀ t ∈ s.handles, t ≠ i → t ∈ s.waiting ∨ t ∈ s.regions := by
  obtain ⟨himem, hiout, hiwait⟩ := h.initiator i .awaiting hphase
  -- no thread is counted twice, and the initiator is not counted
  have hdisjoint : Disjoint s.waiting s.regions.toFinset := by
    rw [Finset.disjoint_left]
    exact fun t ht hreg => h.apart t ht (Multiset.mem_toFinset.mp hreg)
  have hsub : s.waiting ∪ s.regions.toFinset ⊆ s.handles.erase i := by
    intro t ht
    rcases Finset.mem_union.mp ht with ht | ht
    · exact Finset.mem_erase.mpr ⟨fun heq => hiwait (heq ▸ ht), h.waiting_registered t ht⟩
    · have hreg := Multiset.mem_toFinset.mp ht
      exact Finset.mem_erase.mpr ⟨fun heq => hiout (heq ▸ hreg), h.region_registered t hreg⟩
  -- so as many threads are counted as there are others, and each of them is
  have hcard : (s.handles.erase i).card ≤ (s.waiting ∪ s.regions.toFinset).card := by
    rw [Finset.card_union_of_disjoint hdisjoint, Multiset.toFinset_card_of_nodup h.nodup,
      Finset.card_erase_of_mem himem, ← hcounted.registered, ← hcounted.parked]
    exact hacked
  have heq : s.waiting ∪ s.regions.toFinset = s.handles.erase i := Finset.eq_of_subset_of_card_le hsub hcard
  intro t ht hne
  have hmem : t ∈ s.waiting ∪ s.regions.toFinset := by
    rw [heq]
    exact Finset.mem_erase.mpr ⟨hne, ht⟩
  rcases Finset.mem_union.mp hmem with hmem | hmem
  · exact Or.inl hmem
  · exact Or.inr (Multiset.mem_toFinset.mp hmem)

theorem Stopped.step {s s' : Coordinator T} {a : Action T} (h : Stopped s) (hdisciplined : Disciplined s)
    (hcounted : Counted s) (hcareful : Careful s a) (hstep : Steps s a s') : Stopped s' := by
  intro i hi
  cases hstep with
  | register t hnew hidle => exact absurd (congrArg (Option.map Prod.snd) hi) hcareful
  | deregister t hmem hidle hout => exact fun u hu => h i hi u (Finset.mem_of_mem_erase hu)
  | park t hidle hstop =>
    exact fun u hu hne => (h i hi u hu hne).imp_left fun hwait => Finset.mem_insert_of_mem hwait
  | enter t hmem hidle =>
    exact fun u hu hne => (h i hi u hu hne).imp_right fun hreg => Multiset.mem_cons_of_mem hreg
  | pass t => exact h i hi
  | busy t => exact h i hi
  | unpark t hmem hstop =>
    -- nobody goes on while the flag is up
    have hup := hdisciplined.flag i (Or.inr hi)
    rw [hstop] at hup
    cases hup
  | leave t hmem hstop =>
    have hup := hdisciplined.flag i (Or.inr hi)
    rw [hstop] at hup
    cases hup
  | ack t hphase hacked =>
    cases hi
    exact hdisciplined.stopped_of_acked hcounted hphase hacked
  | request t hidle hnone => cases hi
  | raise t hphase => cases hi
  | timeout t hphase => cases hi
  | finish t hphase => cases hi
  | clear t hphase => cases hi
  | unlock t hphase => cases hi

end

/-- **Stop-the-world safety**, in every run of careful steps. -/
theorem stopped_of_careful {T : Type} [DecidableEq T] (s : Coordinator T)
    (h : Reachable Careful s) : Stopped s := by
  have hall : Counted s ∧ Disciplined s ∧ Stopped s := by
    induction h with
    | init => exact ⟨counted_init, disciplined_init, nofun⟩
    | step _ hcareful hstep ih =>
      obtain ⟨hcounted, hdisciplined, hstopped⟩ := ih
      have hsteps := steps_of_step hstep
      exact ⟨hcounted.step hsteps, hdisciplined.step hcareful hsteps,
        hstopped.step hdisciplined hcounted hcareful hsteps⟩
  exact hall.2.2

/-- Two threads, one of which collects while the other is parked. -/
theorem stopped_of_careful_pair : ∃ s : Coordinator Nat,
    runWith Careful .init [.register 1, .register 2, .request 2, .raise, .park 1, .ack] = some s ∧
      s.collector = some (2, .collecting) ∧ Stopped s := by
  have hrun : (runWith Careful .init
      [.register (1 : Nat), .register 2, .request 2, .raise, .park 1, .ack]).any
      (fun s => s.collector = some (2, .collecting)) = true := by decide
  obtain ⟨s, hs, hphase⟩ := (Option.any_eq_true _ _).mp hrun
  exact ⟨s, hs, of_decide_eq_true hphase, stopped_of_careful s (Reachable.init.runWith hs)⟩

/-! ## Each part of the condition is needed

In each of these runs one step is not careful, and thread 1 runs on while thread 2 collects: a
thread in two regions, a thread that parks inside a region, an initiator inside a region, a thread
that parks or collects without a handle, and a thread that registers while the callback runs. -/

def carelessRuns : List (List (Action Nat)) :=
  [[.register 0, .register 1, .register 2, .enter 0, .enter 0, .request 2, .raise, .ack],
   [.register 0, .register 1, .register 2, .enter 0, .request 2, .raise, .park 0, .ack],
   [.register 1, .register 2, .enter 2, .request 2, .raise, .ack],
   [.register 1, .register 2, .request 2, .raise, .park 0, .ack],
   [.register 1, .request 2, .raise, .ack],
   [.register 2, .request 2, .raise, .ack, .register 1]]

theorem carelessRuns_not_stopped : ∀ run ∈ carelessRuns, ∃ s : Coordinator Nat,
    Reachable (fun _ _ => True) s ∧ runWith (fun _ _ => True) .init run = some s ∧ ¬ Stopped s := by
  intro run hrun
  have hbad : ∀ run ∈ carelessRuns, (runWith (fun _ _ => True) (.init : Coordinator Nat) run).any
      (fun s => s.collector = some (2, .collecting) ∧ 1 ∈ s.handles ∧ 1 ∉ s.waiting ∧
        1 ∉ s.regions) = true := by decide
  obtain ⟨s, hs, hany⟩ := (Option.any_eq_true _ _).mp (hbad run hrun)
  obtain ⟨hphase, hmem, hwait, hreg⟩ := of_decide_eq_true hany
  refine ⟨s, Reachable.init.runWith hs, hs, fun hstopped => ?_⟩
  rcases hstopped 2 hphase 1 hmem (by decide) with h | h
  · exact hwait h
  · exact hreg h

/-- A thread in two regions counts for two: the callback runs beside a thread that nothing has stopped. -/
theorem nested_region_not_stopped : ¬ ∀ (T : Type) [DecidableEq T] (s : Coordinator T),
    Reachable (fun _ _ => True) s → Stopped s := by
  intro h
  obtain ⟨s, hreach, -, hbad⟩ := carelessRuns_not_stopped _ List.mem_cons_self
  exact hbad (h Nat s hreach)

end ShapeLang.Gc
