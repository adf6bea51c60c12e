import Mathlib

/-!
# The task scheduler

One map from task ids to states (`crates/shape-vm/src/executor/task_scheduler.rs`). A pending state
owns what drives the task: a callable, the receiver of a channel on which a background task answers,
or a task of the async runtime; whoever takes the driver leaves `pendingUndriven` behind.

A kinded value is a parameter: a plain pair of bits and a kind that stands for one share of a heap
object. A channel that is dropped does nothing about a pair in it. A oneshot channel is known by a
number; its receiver stands in the table with what has been sent. Callbacks, abort handles and
completion channels of async tasks are numbers too.

Every operation says which shares it took, made, gave away and released.
-/

namespace ShapeLang.Executor

section

variable {S : Type}

/-- What the receiver of a oneshot channel sees. -/
inductive Delivery (S : Type) where
  | empty
  | delivered (value : S)
  | failed (message : String)
  | closed

structure PendingAsyncTask where
  completion : Nat
  abort : Option Nat

inductive TaskState (S : Type) where
  | pendingCallable (callable : S)
  | pendingExternal (channel : Nat) (slot : Delivery S)
  | pendingAsync (task : PendingAsyncTask) (cancelHook : Option Nat)
  | pendingUndriven
  | completed (value : S)
  | cancelled

structure TaskScheduler (S : Type) where
  tasks : UInt64 → Option (TaskState S)
  nextChannel : Nat

/-- The shares that change hands in an operation. -/
structure Transfer (S : Type) where
  received : List S := []
  cloned : List S := []
  handed : List S := []
  released : List S := []

/-- What the owner of an async task is told. -/
inductive Signal where
  | ranHook (hook : Nat)
  | aborted (handle : Nat)

structure Performed (S R : Type) where
  scheduler : TaskScheduler S
  answer : R
  transfer : Transfer S := {}
  signals : List Signal := []

/-- The share that a replaced entry owned. -/
def releaseDisplaced : TaskState S → List S
  | .pendingCallable value | .completed value => [value]
  | .pendingExternal _ _ | .pendingAsync _ _ | .pendingUndriven | .cancelled => []

/-- The cancellation of an async task. -/
def cancelSignals (task : PendingAsyncTask) (cancelHook : Option Nat) : List Signal :=
  cancelHook.toList.map .ranHook ++ task.abort.toList.map .aborted

namespace TaskScheduler

def new : TaskScheduler S := ⟨fun _ => none, 0⟩

/-- Write an entry in place. -/
def put (s : TaskScheduler S) (taskId : UInt64) (state : TaskState S) : TaskScheduler S :=
  { s with tasks := Function.update s.tasks taskId (some state) }

/-- The scheduler with the entry, and the shares that the entry before it owned. -/
def setState (s : TaskScheduler S) (taskId : UInt64) (state : TaskState S) : TaskScheduler S × List S :=
  (s.put taskId state, ((s.tasks taskId).map releaseDisplaced).getD [])

def storePendingAsync (s : TaskScheduler S) (taskId : UInt64) (task : PendingAsyncTask) :
    Performed S Unit :=
  let set := s.setState taskId (.pendingAsync task none)
  { scheduler := set.1, answer := (), transfer := { released := set.2 } }

def setPendingAsyncCancellationHook (s : TaskScheduler S) (taskId : UInt64) (hook : Nat) :
    Performed S Unit :=
  match s.tasks taskId with
  | some (.pendingAsync task _) =>
    { scheduler := s.put taskId (.pendingAsync task (some hook)), answer := () }
  | _ => { scheduler := s, answer := () }

def takePendingAsync (s : TaskScheduler S) (taskId : UInt64) : Performed S (Option PendingAsyncTask) :=
  match s.tasks taskId with
  | some (.pendingAsync task _) => { scheduler := s.put taskId .pendingUndriven, answer := some task }
  | _ => { scheduler := s, answer := none }

def register (s : TaskScheduler S) (taskId : UInt64) (callable : S) : Performed S Unit :=
  let set := s.setState taskId (.pendingCallable callable)
  { scheduler := set.1, answer := (), transfer := { received := [callable], released := set.2 } }

def takeCallable (s : TaskScheduler S) (taskId : UInt64) : Performed S (Option S) :=
  match s.tasks taskId with
  | some (.pendingCallable callable) =>
    { scheduler := s.put taskId .pendingUndriven
      answer := some callable
      transfer := { handed := [callable] } }
  | _ => { scheduler := s, answer := none }

def complete (s : TaskScheduler S) (taskId : UInt64) (value : S) : Performed S Unit :=
  let set := s.setState taskId (.completed value)
  { scheduler := set.1, answer := (), transfer := { received := [value], released := set.2 } }

/-- A receiver is dropped with whatever has been delivered on its channel. -/
def cancel (s : TaskScheduler S) (taskId : UInt64) : Performed S Unit :=
  match s.tasks taskId with
  | none => { scheduler := s, answer := () }
  | some (.pendingCallable callable) =>
    { scheduler := s.put taskId .cancelled, answer := (), transfer := { released := [callable] } }
  | some (.pendingExternal _ _) => { scheduler := s.put taskId .cancelled, answer := () }
  | some (.pendingAsync task cancelHook) =>
    { scheduler := s.put taskId .cancelled, answer := (), signals := cancelSignals task cancelHook }
  | some .pendingUndriven => { scheduler := s.put taskId .cancelled, answer := () }
  | some (.completed _) | some .cancelled => { scheduler := s, answer := () }

/-- The answer is the channel, whose sender the caller keeps. -/
def registerExternal (s : TaskScheduler S) (taskId : UInt64) : Performed S Nat :=
  let set := s.setState taskId (.pendingExternal s.nextChannel .empty)
  { scheduler := { set.1 with nextChannel := s.nextChannel + 1 }
    answer := s.nextChannel
    transfer := { released := set.2 } }

def tryResolveExternal (s : TaskScheduler S) (taskId : UInt64) : Performed S (Option (Except String S)) :=
  match s.tasks taskId with
  | some (.completed value) =>
    { scheduler := s, answer := some (.ok value), transfer := { cloned := [value], handed := [value] } }
  | some (.pendingExternal _ (.delivered value)) =>
    { scheduler := s.put taskId (.completed value)
      answer := some (.ok value)
      transfer := { cloned := [value], handed := [value] } }
  | some (.pendingExternal _ (.failed message)) =>
    { scheduler := s.put taskId .pendingUndriven, answer := some (.error message) }
  | some (.pendingExternal _ .empty) => { scheduler := s, answer := none }
  | some (.pendingExternal _ .closed) =>
    { scheduler := s.put taskId .pendingUndriven, answer := some (.error "Remote task cancelled") }
  | _ => { scheduler := s, answer := none }

/-- The receiver goes to the caller with what has been delivered. -/
def takeExternalReceiver (s : TaskScheduler S) (taskId : UInt64) :
    Performed S (Option (Nat × Delivery S)) :=
  match s.tasks taskId with
  | some (.pendingExternal channel (.delivered value)) =>
    { scheduler := s.put taskId .pendingUndriven
      answer := some (channel, .delivered value)
      transfer := { handed := [value] } }
  | some (.pendingExternal channel slot) =>
    { scheduler := s.put taskId .pendingUndriven, answer := some (channel, slot) }
  | _ => { scheduler := s, answer := none }

/-- The callable goes to the executor, and the share of its result comes back. -/
def resolveTask (s : TaskScheduler S) (taskId : UInt64) (executorFn : S → Except String S) :
    Performed S (Except String S) :=
  match s.tasks taskId with
  | some (.completed value) =>
    { scheduler := s, answer := .ok value, transfer := { cloned := [value], handed := [value] } }
  | some .cancelled => { scheduler := s, answer := .error ("Task " ++ toString taskId ++ " was cancelled") }
  | some (.pendingCallable callable) =>
    match executorFn callable with
    | .error message =>
      { scheduler := s.put taskId .pendingUndriven
        answer := .error message
        transfer := { handed := [callable] } }
    | .ok value =>
      { scheduler := s.put taskId (.completed value)
        answer := .ok value
        transfer := { received := [value], cloned := [value], handed := [callable, value] } }
  | _ => { scheduler := s, answer := .error ("No callable registered for task " ++ toString taskId) }

/-- The shares that the end of the scheduler releases for a task. -/
def dropTask (s : TaskScheduler S) (taskId : UInt64) : List S :=
  ((s.tasks taskId).map releaseDisplaced).getD []

/-- A send on a channel that the scheduler still owns. The sender keeps a value that cannot be sent. -/
def deliver (s : TaskScheduler S) (taskId : UInt64) (channel : Nat) (result : Except String S) :
    Performed S Bool :=
  match s.tasks taskId with
  | some (.pendingExternal owned .empty) =>
    if owned = channel then
      match result with
      | .ok value =>
        { scheduler := s.put taskId (.pendingExternal owned (.delivered value))
          answer := true
          transfer := { received := [value] } }
      | .error message =>
        { scheduler := s.put taskId (.pendingExternal owned (.failed message)), answer := true }
    else { scheduler := s, answer := false }
  | _ => { scheduler := s, answer := false }

/-- A sender that is dropped without a send. -/
def closeSender (s : TaskScheduler S) (taskId : UInt64) (channel : Nat) : Performed S Unit :=
  match s.tasks taskId with
  | some (.pendingExternal owned .empty) =>
    if owned = channel then { scheduler := s.put taskId (.pendingExternal owned .closed), answer := () }
    else { scheduler := s, answer := () }
  | _ => { scheduler := s, answer := () }

end TaskScheduler

end

end ShapeLang.Executor
