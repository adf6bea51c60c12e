import ShapeLang.Executor.TaskScheduler
import ShapeLang.Lib.Runs
import ShapeLang.Lib.ShareAccount

/-!
# Outcomes are final, and shares balance

Each task has an account of the shares that passed through it. What a task holds is its callable,
its result, or a value that waits on the channel it owns. Two things go wrong: a driver that was
taken before a cancellation reports its result afterwards, and `complete` overwrites the outcome;
and a receiver is dropped while a value waits on its channel, and nobody releases the share. In runs
without these, a cancelled task stays so and every account is balanced.
-/

namespace ShapeLang.Executor

open ShapeLang.Lib

section

variable {S : Type}

/-- The shares that a task holds. -/
def held : Option (TaskState S) → List S
  | some (.pendingCallable value) | some (.completed value) | some
      (.pendingExternal _ (.delivered value)) => [value]
  | _ => []

/-- A value waits on the channel of the task. -/
def Unread (state : Option (TaskState S)) : Prop :=
  ∃ channel value, state = some (.pendingExternal channel (.delivered value))

inductive SchedulerCall (S : Type) where
  | register (taskId : UInt64) (callable : S)
  | registerExternal (taskId : UInt64)
  | storePendingAsync (taskId : UInt64) (task : PendingAsyncTask)
  | setPendingAsyncCancellationHook (taskId : UInt64) (hook : Nat)
  | takeCallable (taskId : UInt64)
  | takePendingAsync (taskId : UInt64)
  | takeExternalReceiver (taskId : UInt64)
  | complete (taskId : UInt64) (value : S)
  | cancel (taskId : UInt64)
  | tryResolveExternal (taskId : UInt64)
  | resolveTask (taskId : UInt64) (executorFn : S → Except String S)
  | deliver (taskId : UInt64) (channel : Nat) (result : Except String S)
  | closeSender (taskId : UInt64) (channel : Nat)

namespace SchedulerCall

def taskId : SchedulerCall S → UInt64
  | .register taskId _ | .registerExternal taskId | .storePendingAsync taskId _
  | .setPendingAsyncCancellationHook taskId _ | .takeCallable taskId | .takePendingAsync taskId
  | .takeExternalReceiver taskId | .complete taskId _ | .cancel taskId | .tryResolveExternal taskId
  | .resolveTask taskId _ | .deliver taskId _ _ | .closeSender taskId _ => taskId

def isRegistration : SchedulerCall S → Bool
  | .register _ _ | .registerExternal _ | .storePendingAsync _ _ => true
  | _ => false

end SchedulerCall

/-- An operation without its answer. -/
def TaskScheduler.perform (s : TaskScheduler S) : SchedulerCall S → TaskScheduler S × Transfer S
  | .register taskId callable =>
    ((s.register taskId callable).scheduler, (s.register taskId callable).transfer)
  | .registerExternal taskId =>
    ((s.registerExternal taskId).scheduler, (s.registerExternal taskId).transfer)
  | .storePendingAsync taskId task =>
    ((s.storePendingAsync taskId task).scheduler, (s.storePendingAsync taskId task).transfer)
  | .setPendingAsyncCancellationHook taskId hook =>
    ((s.setPendingAsyncCancellationHook taskId hook).scheduler,
      (s.setPendingAsyncCancellationHook taskId hook).transfer)
  | .takeCallable taskId => ((s.takeCallable taskId).scheduler, (s.takeCallable taskId).transfer)
  | .takePendingAsync taskId =>
    ((s.takePendingAsync taskId).scheduler, (s.takePendingAsync taskId).transfer)
  | .takeExternalReceiver taskId =>
    ((s.takeExternalReceiver taskId).scheduler, (s.takeExternalReceiver taskId).transfer)
  | .complete taskId value => ((s.complete taskId value).scheduler, (s.complete taskId value).transfer)
  | .cancel taskId => ((s.cancel taskId).scheduler, (s.cancel taskId).transfer)
  | .tryResolveExternal taskId =>
    ((s.tryResolveExternal taskId).scheduler, (s.tryResolveExternal taskId).transfer)
  | .resolveTask taskId executorFn =>
    ((s.resolveTask taskId executorFn).scheduler, (s.resolveTask taskId executorFn).transfer)
  | .deliver taskId channel result =>
    ((s.deliver taskId channel result).scheduler, (s.deliver taskId channel result).transfer)
  | .closeSender taskId channel =>
    ((s.closeSender taskId channel).scheduler, (s.closeSender taskId channel).transfer)

/-- What a step must not do: drop a receiver with a value in it, or complete a cancelled task. -/
def TaskScheduler.Harmless (s : TaskScheduler S) : SchedulerCall S → Prop
  | .register taskId _ | .registerExternal taskId | .storePendingAsync taskId _ | .cancel taskId =>
    ¬Unread (s.tasks taskId)
  | .complete taskId _ => ¬Unread (s.tasks taskId) ∧ s.tasks taskId ≠ some .cancelled
  | _ => True

/-! ## One operation -/

namespace TaskScheduler

variable {s : TaskScheduler S} {id : UInt64}

theorem released_eq_held (h : ¬Unread (s.tasks id)) :
    ((s.tasks id).map releaseDisplaced).getD [] = held (s.tasks id) := by
  cases hstate : s.tasks id with
  | none => rfl
  | some state =>
    cases state with
    | pendingExternal channel slot =>
      cases slot with
      | delivered value => exact absurd ⟨channel, value, hstate⟩ h
      | _ => rfl
    | _ => rfl

/-- The shares that go in and out of a task. -/
def Accounts (before after : Option (TaskState S)) (transfer : Transfer S) : Prop :=
  (held after + transfer.handed + transfer.released : Multiset S) = held before +
    transfer.received + transfer.cloned

theorem put_self (s : TaskScheduler S) (id : UInt64) (state : TaskState S) :
    (s.put id state).tasks id = some state :=
  Function.update_self _ _ _

/-- What an operation does to its task: the entry after it and the shares in between. -/
structure Effect (s : TaskScheduler S) (id : UInt64) (s' : TaskScheduler S)
    (transfer : Transfer S) : Prop where
  others : ∀ other, other ≠ id → s'.tasks other = s.tasks other
  accounts : Accounts (s.tasks id) (s'.tasks id) transfer

theorem effect_none (s : TaskScheduler S) (id : UInt64) : Effect s id s {} where
  others _ _ := rfl
  accounts := by simp [Accounts]

theorem effect_put {state : TaskState S} {transfer : Transfer S}
    (h : Accounts (s.tasks id) (some state) transfer) :
    Effect s id (s.put id state) transfer where
  others other hne := Function.update_of_ne hne _ _
  accounts := by rw [put_self]; exact h

theorem accounts_silent {before after : Option (TaskState S)} (h : held before = held after) :
    Accounts before after {} := by
  simp [Accounts, h]

/-- A replaced entry gives up the share that it holds, unless it waits on a channel. -/
theorem accounts_displace (h : ¬Unread (s.tasks id)) (state : TaskState S) (received : List S)
    (hstate : held (some state) = received) :
    Accounts (s.tasks id) (some state)
      { received, released := ((s.tasks id).map releaseDisplaced).getD [] } := by
  rw [Accounts, released_eq_held h, hstate]
  simp [add_comm]

theorem effect_perform (call : SchedulerCall S) (hok : s.Harmless call) :
    Effect s call.taskId (s.perform call).1 (s.perform call).2 := by
  cases call with
  | register id callable => exact effect_put (accounts_displace hok _ _ rfl)
  | registerExternal id =>
    have h := effect_put (accounts_displace hok (.pendingExternal s.nextChannel .empty) [] rfl)
    exact ⟨h.others, h.accounts⟩
  | storePendingAsync id task => exact effect_put (accounts_displace hok _ _ rfl)
  | complete id value => exact effect_put (accounts_displace hok.1 _ _ rfl)
  | setPendingAsyncCancellationHook id hook =>
    show Effect s id (s.setPendingAsyncCancellationHook id hook).scheduler _
    simp only [perform, setPendingAsyncCancellationHook]
    split
    · rename_i hstate
      exact effect_put (by simp [Accounts, hstate, held])
    · exact effect_none s id
  | takeCallable id =>
    show Effect s id (s.takeCallable id).scheduler _
    simp only [perform, takeCallable]
    split
    · rename_i hstate
      exact effect_put (by simp [Accounts, hstate, held])
    · exact effect_none s id
  | takePendingAsync id =>
    show Effect s id (s.takePendingAsync id).scheduler _
    simp only [perform, takePendingAsync]
    split
    · rename_i hstate
      exact effect_put (by simp [Accounts, hstate, held])
    · exact effect_none s id
  | takeExternalReceiver id =>
    show Effect s id (s.takeExternalReceiver id).scheduler _
    simp only [perform, takeExternalReceiver]
    split
    · rename_i hstate
      exact effect_put (by simp [Accounts, hstate, held])
    · rename_i slot hslot hstate
      have hheld : held (s.tasks id) = [] := by
        rw [hstate]
        cases slot with
        | delivered value => exact absurd rfl (hslot value)
        | _ => rfl
      exact effect_put (accounts_silent hheld)
    · exact effect_none s id
  | cancel id =>
    show Effect s id (s.cancel id).scheduler _
    have hreleased := released_eq_held hok
    simp only [perform, cancel]
    split
    · exact effect_none s id
    · rename_i hstate
      exact effect_put (by simp [Accounts, hstate, held])
    · rename_i hstate
      -- the one case in which a share could be lost
      have hheld : held (s.tasks id) = [] := by rw [← hreleased, hstate]; rfl
      exact effect_put (accounts_silent hheld)
    · rename_i hstate
      exact effect_put (by simp [Accounts, hstate, held])
    · rename_i hstate
      exact effect_put (by simp [Accounts, hstate, held])
    · exact effect_none s id
    · exact effect_none s id
  | tryResolveExternal id =>
    show Effect s id (s.tryResolveExternal id).scheduler _
    simp only [perform, tryResolveExternal]
    split
    · exact ⟨fun _ _ => rfl, by simp [Accounts]⟩
    · rename_i hstate
      exact effect_put (by simp [Accounts, hstate, held])
    · rename_i hstate
      exact effect_put (by simp [Accounts, hstate, held])
    · exact effect_none s id
    · rename_i hstate
      exact effect_put (by simp [Accounts, hstate, held])
    · exact effect_none s id
  | resolveTask id executorFn =>
    show Effect s id (s.resolveTask id executorFn).scheduler _
    simp only [perform, resolveTask]
    split
    · exact ⟨fun _ _ => rfl, by simp [Accounts]⟩
    · exact effect_none s id
    · rename_i hstate
      split
      · exact effect_put (by simp [Accounts, hstate, held])
      · rename_i value _
        refine effect_put ?_
        rw [hstate]
        exact Multiset.coe_eq_coe.mpr (List.Perm.swap _ _ _)
    · exact effect_none s id
  | deliver id channel result =>
    show Effect s id (s.deliver id channel result).scheduler _
    simp only [perform, deliver]
    split
    · rename_i hstate
      split
      · split
        · exact effect_put (by simp [Accounts, hstate, held])
        · exact effect_put (by simp [Accounts, hstate, held])
      · exact effect_none s id
    · exact effect_none s id
  | closeSender id channel =>
    show Effect s id (s.closeSender id channel).scheduler _
    simp only [perform, closeSender]
    split
    · rename_i hstate
      split
      · exact effect_put (by simp [Accounts, hstate, held])
      · exact effect_none s id
    · exact effect_none s id

/-- Only a registration or a completion takes a task out of the cancelled state. -/
theorem perform_cancelled (call : SchedulerCall S) (hstate : s.tasks id = some .cancelled)
    (hok : s.Harmless call) (hregister : call.isRegistration = true → call.taskId ≠ id) :
    (s.perform call).1.tasks id = some .cancelled := by
  by_cases hid : call.taskId = id
  · subst hid
    cases call with
    | register id callable => exact absurd rfl (hregister rfl)
    | registerExternal id => exact absurd rfl (hregister rfl)
    | storePendingAsync id task => exact absurd rfl (hregister rfl)
    | complete id value => exact absurd hstate hok.2
    | _ =>
      -- every other operation leaves a cancelled task alone
      simp only [SchedulerCall.taskId] at hstate ⊢
      simp [perform, setPendingAsyncCancellationHook, takeCallable, takePendingAsync,
        takeExternalReceiver, cancel, tryResolveExternal, resolveTask, deliver, closeSender, hstate]
  · rw [(effect_perform call hok).others id (Ne.symm hid), hstate]

end TaskScheduler

/-! ## Runs -/

/-- The scheduler with an account for every task id. -/
structure Ledger (S : Type) where
  scheduler : TaskScheduler S
  accounts : UInt64 → ShareAccount S

namespace Ledger

variable {ledger : Ledger S} {calls : List (SchedulerCall S)}

def new : Ledger S := ⟨.new, fun _ => .empty⟩

/-- An operation, recorded in the account of its task. -/
def step (ledger : Ledger S) (call : SchedulerCall S) : Ledger S :=
  let (scheduler, transfer) := ledger.scheduler.perform call
  let account := (ledger.accounts call.taskId).record transfer.received transfer.cloned
      transfer.handed transfer.released
  ⟨scheduler, Function.update ledger.accounts call.taskId account⟩

def run (calls : List (SchedulerCall S)) : Ledger S := calls.foldl step new

/-- The account of a task after the end of the scheduler. -/
def drop (ledger : Ledger S) (id : UInt64) : ShareAccount S :=
  (ledger.accounts id).record [] [] [] (ledger.scheduler.dropTask id)

/-- What the accounts say is with the tasks. -/
def Kept (ledger : Ledger S) : Prop :=
  ∀ id, (ledger.accounts id).Balanced (held (ledger.scheduler.tasks id))

/-- A step that keeps the accounts and the outcomes. -/
def Harmless (ledger : Ledger S) (call : SchedulerCall S) : Prop := ledger.scheduler.Harmless call

/-- A task that was cancelled is not completed before it is registered again. -/
def OutcomesFinal (calls : List (SchedulerCall S)) : Prop :=
  ∀ before after id, before ++ after <+: calls → (run before).scheduler.tasks id = some .cancelled →
    (∀ call ∈ after, call.isRegistration = true → call.taskId ≠ id) →
    ∀ value, (run (before ++ after)).scheduler.tasks id ≠ some (.completed value)

theorem step_kept (call : SchedulerCall S) (h : ledger.Kept) (hok : ledger.Harmless call) :
    (ledger.step call).Kept := by
  have heffect := TaskScheduler.effect_perform call hok
  intro id
  by_cases hid : id = call.taskId
  · subst hid
    have haccount := (h call.taskId).record heffect.accounts
    simpa [step] using haccount
  · have hother := heffect.others id hid
    have haccount := h id
    rw [← hother] at haccount
    simpa [step, Function.update_of_ne hid] using haccount

theorem kept_new : (new : Ledger S).Kept := fun _ => ShareAccount.balanced_empty

/-- The end of the scheduler releases what is left. -/
theorem drop_balanced {id : UInt64} (h : ledger.Kept) (hread : ¬Unread (ledger.scheduler.tasks id)) :
    (ledger.drop id).Balanced [] := by
  have hreleased := TaskScheduler.released_eq_held hread
  refine (h id).record ?_
  rw [TaskScheduler.dropTask, hreleased]
  simp

theorem run_append (before after : List (SchedulerCall S)) :
    run (before ++ after) = after.foldl step (run before) :=
  List.foldl_append

theorem cancelled_stays (hok : EveryStep step new calls Harmless) : OutcomesFinal calls := by
  intro before after id hcalls hstate hregister value
  suffices hcancelled : (run (before ++ after)).scheduler.tasks id = some .cancelled by simp [hcancelled]
  -- by the last call after the cancellation
  induction after using List.reverseRecOn with
  | nil => simpa using hstate
  | append_singleton after call ih =>
    rw [← List.append_assoc] at hcalls ⊢
    have hbefore : (run (before ++ after)).scheduler.tasks id = some .cancelled :=
      ih ((List.prefix_append _ _).trans hcalls) (fun c hc => hregister c (List.mem_append_left _ hc))
    rw [run_append]
    exact TaskScheduler.perform_cancelled call hbefore (hok _ call hcalls) (hregister call (by simp))

/-- In a run in which no cancelled task is completed and no waiting value is dropped, cancellations
are final and every share is handed out or released once. -/
theorem outcomes_final_shares_balance (calls : List (SchedulerCall S))
    (hok : EveryStep step new calls Harmless)
    (hread : ∀ id, ¬Unread ((run calls).scheduler.tasks id)) :
    OutcomesFinal calls ∧ ∀ id, ((run calls).drop id).Balanced [] := by
  have hkept : (run calls).Kept :=
    (throughout_of_everyStep (fun _ call h hok => step_kept call h hok) kept_new hok).last
  exact ⟨cancelled_stays hok, fun id => drop_balanced hkept (hread id)⟩

/-- A cancelled task, a task that is completed by its executor and a value that is read before the end. -/
theorem orderly_run :
    let calls : List (SchedulerCall Nat) :=
      [.register 1 10, .cancel 1, .registerExternal 2, .deliver 2 0 (.ok 20), .tryResolveExternal 2]
    OutcomesFinal calls ∧ ∀ id, ((run calls).drop id).Balanced [] := by
  intro calls
  refine outcomes_final_shares_balance calls ?_ ?_
  · refine everyStep_cons ?_
      (everyStep_cons ?_ (everyStep_cons ?_ (everyStep_cons ?_ (everyStep_cons ?_ everyStep_nil))))
    · exact fun ⟨_, _, h⟩ => nomatch h
    · exact fun ⟨_, _, h⟩ => nomatch h
    · exact fun ⟨_, _, h⟩ => nomatch h
    · trivial
    · trivial
  -- the delivered value was read, so nothing is in transit at the end
  · rintro id ⟨channel, value, hstate⟩
    by_cases hone : id = 1
    · subst hone
      exact nomatch hstate
    by_cases htwo : id = 2
    · subst htwo
      exact nomatch hstate
    · have hnone : (run calls).scheduler.tasks id = none := by
        simp [run, calls, step, new, TaskScheduler.new, TaskScheduler.perform,
          TaskScheduler.register, TaskScheduler.cancel, TaskScheduler.registerExternal,
          TaskScheduler.deliver, TaskScheduler.tryResolveExternal, TaskScheduler.setState,
          TaskScheduler.put, Function.update_of_ne hone, Function.update_of_ne htwo]
      rw [hnone] at hstate
      exact nomatch hstate

/-- A driver that was taken before the cancellation reports afterwards; a receiver is dropped with
the value in it. -/
theorem late_completion_and_lost_delivery :
    ¬OutcomesFinal (S := Nat) [.register 1 10, .takeCallable 1, .cancel 1, .complete 1 20] ∧
      ¬((run (S := Nat) [.registerExternal 1, .deliver 1 0 (.ok 20), .cancel 1]).drop 1).Balanced [] := by
  refine ⟨fun h => ?_, fun h => ?_⟩
  · exact h [.register 1 10, .takeCallable 1, .cancel 1] [.complete 1 20] 1 (List.prefix_refl _) rfl
      (by simp [SchedulerCall.isRegistration]) 20 rfl
  · have hcard := congrArg Multiset.card h
    revert hcard
    decide

end Ledger

end

end ShapeLang.Executor
