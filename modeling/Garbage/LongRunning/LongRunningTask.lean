import Garbage.Foundation.Monitor

/-!
# Long running tasks

`LongRunningTask` runs `Process` in a worker task.  `Start` creates a token
source and a worker with its token, `Stop`, `StopNoThrow` and `Dispose` go
through `InternalStop`, which forgets the worker, cancels its token, waits for
it at most `_stopTimeout` and disposes of it, and `WaitForStopNoThrow` waits
without stopping.  All members run under `SyncRoot`, so the object is a monitor;
the workers run outside.

Each access to a field and each call of a library is a step of its own.  A
worker begins and ends whenever it likes, but one whose token was cancelled
before it began does not run.  The worker of a `Start` has the number of the
source of that `Start`.

A timeout is `none` if it is infinite.  A thread whose wait is limited goes on
either because the worker has completed or because the time is over.

A thread that has the lock of the code can enter it again.  It would do so only where
a callback of the token, which `Cancel` runs, calls a member.  Such callbacks are left
out, and so is entering again.
-/

namespace Garbage.LongRunning.LongRunningTask

open Foundation (Machine Monitor)

inductive Member
  | start
  | stop
  | waitForStopNoThrow (stopTimeout : Option Nat)
  | stopNoThrow
  | dispose
  deriving DecidableEq

inductive Error
  | objectDisposed
  /-- `Start` of the task has failed -/
  | notStarted
  /-- a callback of the token has thrown -/
  | callbackFailed
  /-- the worker did not run to completion -/
  | workerFailed
  /-- `Dispose` of a task that has not completed -/
  | notCompleted
  | nullReference
  deriving DecidableEq

inductive Outcome
  | ranToCompletion
  | faulted
  | canceled
  deriving DecidableEq

inductive TaskState
  | absent
  /-- started, and its thread does not run yet -/
  | queued
  /-- inside `Scheduling.SchedulingRun` -/
  | running
  | completed (outcome : Outcome)
  deriving DecidableEq

/-- The fields of the object, the sources and the workers.  `givenUp` are the
workers that `InternalStop` has left before they completed. -/
structure Fields where
  disposed : Bool
  workerTask : Option Nat
  cancelSource : Option Nat
  made : Nat
  cancelled : Nat → Bool
  sourceDisposed : Nat → Bool
  tasks : Nat → TaskState
  givenUp : Nat → Bool

/-- Where the holder of `SyncRoot` stands. -/
inductive Place
  /-- at `if (_disposed)` -/
  | checkDisposed (m : Member)
  /-- in `Start`, at `if (task != null)` -/
  | checkWorker
  | newSource
  /-- at `task.Start()` -/
  | startTask (task : Nat)
  /-- at `_workerTask = task` -/
  | assignWorker (task : Nat)
  /-- at the first lines of `InternalStop` -/
  | takeWorker (m : Member)
  /-- at `_cancelSource.Cancel()` -/
  | cancel (m : Member) (task : Nat)
  /-- in the callbacks of `Cancel` -/
  | callbacks (m : Member) (task : Nat)
  /-- at `task.Wait(_stopTimeout)` -/
  | wait (m : Member) (task : Nat)
  /-- at `task.Dispose` -/
  | disposeTask (m : Member) (task : Nat) (error : Option Error)
  /-- at the end of `Dispose` -/
  | disposeSource
  /-- in `WaitForStopNoThrow`, at `if (task == null)` -/
  | readWorker (stopTimeout : Option Nat)
  /-- at its `task.Wait` -/
  | waitForStop (stopTimeout : Option Nat) (task : Nat)
  deriving DecidableEq

/-- What happens without the lock: a worker begins or ends. -/
inductive WorkerStep
  | run (task : Nat)
  | complete (task : Nat) (outcome : Outcome)

namespace Fields

def make : Fields where
  disposed := false
  workerTask := none
  cancelSource := none
  made := 0
  cancelled _ := false
  sourceDisposed _ := false
  tasks _ := .absent
  givenUp _ := false

def setTask (f : Fields) (w : Nat) (task : TaskState) : Fields :=
  { f with tasks := Function.update f.tasks w task }

/-- `_cancelSource?.Dispose()` -/
def disposeCancelSource (f : Fields) : Fields :=
  { f with
    sourceDisposed :=
      match f.cancelSource with
      | none => f.sourceDisposed
      | some c => Function.update f.sourceDisposed c true }

def newCancelSource (f : Fields) : Fields :=
  { f with
    cancelSource := some f.made
    made := f.made + 1
    cancelled := Function.update f.cancelled f.made false
    sourceDisposed := Function.update f.sourceDisposed f.made false }

def giveUp (f : Fields) (w : Nat) : Fields :=
  { f with givenUp := Function.update f.givenUp w true }

@[simp] theorem setTask_self (f : Fields) (w : Nat) (task : TaskState) :
    (f.setTask w task).tasks w = task := Function.update_self ..

theorem setTask_ne (f : Fields) {v w : Nat} (task : TaskState) (h : v ≠ w) :
    (f.setTask w task).tasks v = f.tasks v := Function.update_of_ne h ..

theorem giveUp_ne (f : Fields) {v w : Nat} (h : v ≠ w) : (f.giveUp w).givenUp v = f.givenUp v :=
  Function.update_of_ne h ..

@[simp] theorem giveUp_self (f : Fields) (w : Nat) : (f.giveUp w).givenUp w = true :=
  Function.update_self ..

end Fields

/-- Where the holder of the lock goes on, or what its call has thrown. -/
abbrev Next := Place ⊕ Option Error

/-- How the callers of `InternalStop` go on when it ends with `error`. -/
def Member.afterStop (error : Option Error) : Member → Next
  | .stop => .inr error
  | .dispose => .inl .disposeSource
  | _ => .inr none

/-- How a member goes on in an object that is not disposed of. -/
def Member.body : Member → Place
  | .start => .checkWorker
  | .waitForStopNoThrow stopTimeout => .readWorker stopTimeout
  | m => .takeWorker m

/-- How a member ends in an object that is disposed of. -/
def Member.whenDisposed : Member → Option Error
  | .start | .stop => some .objectDisposed
  | _ => none

def TaskState.isCompleted : TaskState → Bool
  | .completed _ => true
  | _ => false

/-- What `Wait` of a completed task throws. -/
def Outcome.waitError : Outcome → Option Error
  | .ranToCompletion => none
  | _ => some .workerFailed

/-- The next step of the holder of the lock.  `fails` says that the task cannot
be started, or that a callback throws. -/
def step (stopTimeout : Option Nat) (f : Fields) : Place → Bool → Option (Fields × Next)
  | .checkDisposed m, _ =>
    if f.disposed then some (f, .inr m.whenDisposed)
    else some ({ f with disposed := m == .dispose }, .inl m.body)
  | .checkWorker, _ =>
    match f.workerTask with
    | some _ => some (f, .inr none)
    | none => some (f, .inl .newSource)
  | .newSource, _ => some (f.disposeCancelSource.newCancelSource, .inl (.startTask f.made))
  | .startTask w, fails =>
    if fails then some (f.setTask w (.completed .faulted), .inr (some .notStarted))
    else some (f.setTask w .queued, .inl (.assignWorker w))
  | .assignWorker w, _ => some ({ f with workerTask := some w }, .inr none)
  | .takeWorker m, _ =>
    match f.workerTask with
    | none => some (f, m.afterStop none)
    | some w => some ({ f with workerTask := none }, .inl (.cancel m w))
  | .cancel m w, _ =>
    match f.cancelSource with
    | none => some (f.giveUp w, m.afterStop (some .nullReference))
    | some c =>
      if f.sourceDisposed c then some (f.giveUp w, m.afterStop (some .objectDisposed))
      else
        some ({ f with cancelled := Function.update f.cancelled c true }, .inl (.callbacks m w))
  | .callbacks m w, fails =>
    if fails then some (f.giveUp w, m.afterStop (some .callbackFailed))
    else some (f, .inl (.wait m w))
  | .wait m w, _ =>
    match f.tasks w with
    | .completed outcome => some (f, .inl (.disposeTask m w outcome.waitError))
    | _ => if stopTimeout.isSome then some (f.giveUp w, .inl (.disposeTask m w none)) else none
  | .disposeTask m w error, _ =>
    if (f.tasks w).isCompleted then some (f, m.afterStop error)
    else some (f, m.afterStop (some .notCompleted))
  | .disposeSource, _ => some (f.disposeCancelSource, .inr none)
  | .readWorker timeout, _ =>
    match f.workerTask with
    | none => some (f, .inr none)
    | some w => some (f, .inl (.waitForStop timeout w))
  | .waitForStop timeout w, _ =>
    if (f.tasks w).isCompleted ∨ timeout.isSome then some (f, .inr none) else none

/-- A worker begins or ends.  If `obedient`, then `Process` ends only when its
token is cancelled. -/
def workerStep (obedient : Bool) (f : Fields) : WorkerStep → Option Fields
  | .run w =>
    match f.tasks w with
    | .queued =>
      some (f.setTask w (if f.cancelled w then .completed .canceled else .running))
    | _ => none
  | .complete w outcome =>
    match f.tasks w with
    | .running =>
      if obedient ∧ ¬ f.cancelled w then none else some (f.setTask w (.completed outcome))
    | _ => none

def monitor (stopTimeout : Option Nat) (obedient : Bool) :
    Monitor Fields Member Place (Option Error) Bool WorkerStep where
  make := .make
  first := .checkDisposed
  inside := step stopTimeout
  outside := workerStep obedient

abbrev State (τ : Type) := Monitor.State τ Fields Member Place (Option Error)

abbrev Action (τ : Type) := Monitor.Action τ Member Bool WorkerStep

/-- Any number of threads around the object. -/
def machine (τ : Type) [DecidableEq τ] (stopTimeout : Option Nat) (obedient : Bool) :
    Machine (State τ) (Action τ) := (monitor stopTimeout obedient).machine τ

def State.make (τ : Type) : State τ := Monitor.State.init (monitor none false)

/-! ### The branches of a step -/

/-- What a step of the holder of the lock does, branch by branch. -/
inductive Step (stopTimeout : Option Nat) (fails : Bool) (f : Fields) :
    Place → Fields → Next → Prop
  | disposed (m : Member) :
    Step stopTimeout fails f (.checkDisposed m) f (.inr m.whenDisposed)
  | enter (m : Member) : Step stopTimeout fails f (.checkDisposed m)
      { f with disposed := m == .dispose } (.inl m.body)
  | alreadyStarted : Step stopTimeout fails f .checkWorker f (.inr none)
  | checkWorker (hw : f.workerTask = none) :
    Step stopTimeout fails f .checkWorker f (.inl .newSource)
  | newSource : Step stopTimeout fails f .newSource f.disposeCancelSource.newCancelSource
      (.inl (.startTask f.made))
  | notStarted (w : Nat) : Step stopTimeout fails f (.startTask w)
      (f.setTask w (.completed .faulted)) (.inr (some .notStarted))
  | startTask (w : Nat) : Step stopTimeout fails f (.startTask w) (f.setTask w .queued)
      (.inl (.assignWorker w))
  | assignWorker (w : Nat) : Step stopTimeout fails f (.assignWorker w)
      { f with workerTask := some w } (.inr none)
  | notRunning (m : Member) (hw : f.workerTask = none) :
    Step stopTimeout fails f (.takeWorker m) f (m.afterStop none)
  | takeWorker (m : Member) (w : Nat) (hw : f.workerTask = some w) :
    Step stopTimeout fails f (.takeWorker m) { f with workerTask := none } (.inl (.cancel m w))
  | nullReference (m : Member) (w : Nat) (hc : f.cancelSource = none) :
    Step stopTimeout fails f (.cancel m w) (f.giveUp w) (m.afterStop (some .nullReference))
  | objectDisposed (m : Member) (w c : Nat) (hc : f.cancelSource = some c)
    (hd : f.sourceDisposed c = true) :
    Step stopTimeout fails f (.cancel m w) (f.giveUp w) (m.afterStop (some .objectDisposed))
  | cancel (m : Member) (w c : Nat) (hc : f.cancelSource = some c) :
    Step stopTimeout fails f (.cancel m w)
      { f with cancelled := Function.update f.cancelled c true } (.inl (.callbacks m w))
  | callbackFailed (m : Member) (w : Nat) (hfails : fails = true) :
    Step stopTimeout fails f (.callbacks m w) (f.giveUp w) (m.afterStop (some .callbackFailed))
  | callbacks (m : Member) (w : Nat) :
    Step stopTimeout fails f (.callbacks m w) f (.inl (.wait m w))
  | completed (m : Member) (w : Nat) (outcome : Outcome)
    (hcompleted : f.tasks w = .completed outcome) :
    Step stopTimeout fails f (.wait m w) f (.inl (.disposeTask m w outcome.waitError))
  | timeOver (m : Member) (w : Nat) (hlimited : stopTimeout.isSome = true) :
    Step stopTimeout fails f (.wait m w) (f.giveUp w) (.inl (.disposeTask m w none))
  | disposeTask (m : Member) (w : Nat) (error error' : Option Error) :
    Step stopTimeout fails f (.disposeTask m w error) f (m.afterStop error')
  | disposeSource : Step stopTimeout fails f .disposeSource f.disposeCancelSource (.inr none)
  | noWorker (timeout : Option Nat) :
    Step stopTimeout fails f (.readWorker timeout) f (.inr none)
  | readWorker (timeout : Option Nat) (w : Nat) (hw : f.workerTask = some w) :
    Step stopTimeout fails f (.readWorker timeout) f (.inl (.waitForStop timeout w))
  | waitForStop (timeout : Option Nat) (w : Nat) :
    Step stopTimeout fails f (.waitForStop timeout w) f (.inr none)

theorem step_cases {stopTimeout : Option Nat} {fails : Bool} {f f' : Fields} {p : Place} {n : Next}
    (hn : step stopTimeout f p fails = some (f', n)) : Step stopTimeout fails f p f' n := by
  cases p with
  | checkDisposed m =>
    dsimp only [step] at hn
    split at hn <;> cases hn
    · exact .disposed m
    · exact .enter m
  | checkWorker =>
    dsimp only [step] at hn
    split at hn <;> cases hn
    · exact .alreadyStarted
    · next hw => exact .checkWorker hw
  | newSource =>
    cases hn
    exact .newSource
  | startTask w =>
    dsimp only [step] at hn
    split at hn <;> cases hn
    · exact .notStarted w
    · exact .startTask w
  | assignWorker w =>
    cases hn
    exact .assignWorker w
  | takeWorker m =>
    dsimp only [step] at hn
    split at hn <;> cases hn
    · next hw => exact .notRunning m hw
    · next w hw => exact .takeWorker m w hw
  | cancel m w =>
    dsimp only [step] at hn
    split at hn
    · next hc =>
      cases hn
      exact .nullReference m w hc
    · next c hc =>
      split at hn <;> cases hn
      · next hd => exact .objectDisposed m w c hc hd
      · exact .cancel m w c hc
  | callbacks m w =>
    dsimp only [step] at hn
    split at hn <;> cases hn
    · next hfails => exact .callbackFailed m w hfails
    · exact .callbacks m w
  | wait m w =>
    dsimp only [step] at hn
    split at hn
    · next outcome hcompleted =>
      cases hn
      exact .completed m w outcome hcompleted
    · split at hn <;> cases hn
      next hlimited => exact .timeOver m w hlimited
  | disposeTask m w error =>
    dsimp only [step] at hn
    split at hn <;> cases hn <;> exact .disposeTask m w error _
  | disposeSource =>
    cases hn
    exact .disposeSource
  | readWorker timeout =>
    dsimp only [step] at hn
    split at hn <;> cases hn
    · exact .noWorker timeout
    · next w hw => exact .readWorker timeout w hw
  | waitForStop timeout w =>
    dsimp only [step] at hn
    split at hn <;> cases hn
    exact .waitForStop timeout w

end Garbage.LongRunning.LongRunningTask
