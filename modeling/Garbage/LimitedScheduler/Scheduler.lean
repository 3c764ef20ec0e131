import Mathlib.Algebra.GroupWithZero.Nat
import Mathlib.Logic.Function.Basic
import Garbage.Foundation.CondVar
import Garbage.Foundation.Machine

/-!
# The scheduler with a limited number of threads

A `LimitedScheduler` has two levels.  Each has a queue of tasks, worker threads
that take tasks from it, and a condition variable on which idle workers wait.
A client thread schedules at level 0, a task that runs at level `l` schedules at
level `l + 1`.  `close` cancels the scheduler and joins the workers.

The threads run interleaved, and every access to shared data is a step of its
own: a worker's check of its predicate and its release-and-block, the push of a
task, the notification after it, the store of the cancel flag.  A thread's
program counter says which step is next (`WorkerPc`, `Call`, `ClosePc`).  The
environment decides what is not fixed by the code (`Choice`): whether the scan
for a free worker finds one, whether a thread can be started, and which waiter a
notification wakes.

A task is named by the number of pushes before its own.

`_tasks` holds at most 256 tasks in the code, and a push to a full queue blocks.  Here
the queues have no bound, and a push is one step that always succeeds.
-/

namespace Garbage.LimitedScheduler

open Foundation (CondVar Machine)

abbrev maxLevelCount : Nat := 2

instance : NeZero maxLevelCount := ⟨Nat.succ_ne_zero 1⟩

def minThreadCount : Nat := 2 * maxLevelCount

def maxThreadCount : Nat := 64

abbrev Level : Type := Fin maxLevelCount

/-- The number of a task. -/
abbrev Task : Type := Nat

/-- Where a worker stands in the loop of `makeThread`. -/
inductive WorkerPc
  /-- before the loop -/
  | start
  /-- at `if (_isCancel) return` -/
  | top
  /-- about to lock `_mtLevels[level]` -/
  | lock
  /-- has the mutex, about to evaluate the predicate -/
  | check
  /-- the predicate was false; still has the mutex, about to release it and block -/
  | window
  /-- blocked in the wait, or woken and without the mutex -/
  | waiting
  /-- the predicate was true; about to unlock -/
  | unlock
  /-- at `_tasks[level].try_pop(task)` -/
  | popping
  /-- in `task.first(task.second)` -/
  | running (task : Task)
  | returned
  deriving DecidableEq, Repr

structure Worker where
  level : Level
  pc : WorkerPc
  deriving DecidableEq, Repr

/-- Who calls `schedule`: a client thread, or the task that a worker runs. -/
inductive Caller (κ : Type)
  | client (c : κ)
  | worker (w : Nat)
  deriving DecidableEq

/-- Where a call of `schedule` stands after its push: in `addThread`, or at its
`notify_one`. -/
inductive PushedPc
  | threadsSize
  | tasksSize
  | findFree
  | lock
  | recheck
  | makeThread
  /-- the thread `w` runs, its handle is not in `_threads` yet -/
  | register (w : Nat)
  | unlock
  | notify
  deriving DecidableEq, Repr

/-- Where a call of `schedule` stands. -/
inductive Call
  | checkClosed (level : Nat)
  | checkCancel (level : Level)
  | push (level : Level)
  | pushed (level : Level) (task : Task) (pc : PushedPc)
  deriving DecidableEq, Repr

inductive ClosePc
  | idle
  | notify (level : Level)
  /-- at `_threads[level].try_pop(t)` -/
  | join (level : Level)
  /-- in `t->join()` of the worker `w` -/
  | joining (level : Level) (w : Nat)
  | finish
  | returned
  deriving DecidableEq, Repr

/-- A scheduler, the threads in it, and three counts of what happened:
`pushed` tasks so far, the tasks `executed`, and the tasks whose `schedule`
returned without throwing. -/
structure State (κ : Type) where
  limits : Level → Nat
  isCancel : Bool
  isClosed : Bool
  tasks : Level → List Task
  threads : Level → List Nat
  cvLevels : Level → CondVar Nat
  mtLevels : Level → Option Nat
  mt : Level → Option (Caller κ)
  workers : List Worker
  calls : Caller κ → Option Call
  close : ClosePc
  pushed : Nat
  executed : List Task
  accepted : List Task

structure Choice where
  foundFree : Bool
  canStart : Bool
  notified : Option Nat

/-- A step: of a worker, of a waiter that wakes on its own, of a caller that
enters `schedule`, of a call of `schedule`, of `close`. -/
inductive Action (κ : Type)
  | worker (w : Nat)
  | wake (level : Level) (w : Nat)
  | enter (caller : Caller κ)
  | call (caller : Caller κ) (choice : Choice)
  | close

section Steps

variable {κ : Type}

/-- The thread count of one level. -/
def threadCount (limit : Nat) : Nat :=
  (min (max minThreadCount limit) maxThreadCount + (maxLevelCount - 1)) / maxLevelCount

/-- The constructor: one worker for each level, the worker `l` for the level `l`. -/
def State.make (κ : Type) (limit : Nat) : State κ where
  limits _ := threadCount limit
  isCancel := false
  isClosed := false
  tasks _ := []
  threads l := [l.val]
  cvLevels _ := CondVar.idle Nat
  mtLevels _ := none
  mt _ := none
  workers := [⟨0, .start⟩, ⟨1, .start⟩]
  calls _ := none
  close := .idle
  pushed := 0
  executed := []
  accepted := []

/-- The worker `w` of the level `l` goes on at `pc`. -/
def State.setPc (s : State κ) (w : Nat) (l : Level) (pc : WorkerPc) : State κ :=
  { s with workers := s.workers.set w ⟨l, pc⟩ }

/-- The level a caller schedules at. -/
def scheduleLevel (s : State κ) : Caller κ → Nat
  | .client _ => 0
  | .worker w =>
    match s.workers[w]? with
    | some worker => worker.level.val + 1
    | none => 0

/-- A caller may call `schedule`: a client always, a worker only from a task. -/
def mayCall (s : State κ) : Caller κ → Bool
  | .client _ => true
  | .worker w =>
    match s.workers[w]? with
    | some ⟨_, .running _⟩ => true
    | _ => false

/-- A step of the worker `w`. -/
def workerStep (s : State κ) (w : Nat) : Option (State κ) :=
  match s.workers[w]? with
  | none => none
  | some ⟨l, pc⟩ =>
    match pc with
    | .start => some (s.setPc w l .top)
    | .top => some (s.setPc w l (if s.isCancel then .returned else .lock))
    | .lock =>
      if s.mtLevels l = none then
        some ({ s with mtLevels := Function.update s.mtLevels l (some w) }.setPc w l .check)
      else none
    | .check => some (s.setPc w l (if !(s.tasks l).isEmpty || s.isCancel then .unlock else .window))
    | .window => ((s.cvLevels l).block w).map fun cv =>
      { s with
        mtLevels := Function.update s.mtLevels l none
        cvLevels := Function.update s.cvLevels l cv }.setPc w l .waiting
    | .waiting =>
      if s.mtLevels l = none then
        ((s.cvLevels l).resume w).map fun cv =>
          { s with
            mtLevels := Function.update s.mtLevels l (some w)
            cvLevels := Function.update s.cvLevels l cv }.setPc w l .check
      else none
    | .unlock => some ({ s with mtLevels := Function.update s.mtLevels l none }.setPc w l .popping)
    | .popping =>
      match s.tasks l with
      | [] => some (s.setPc w l .top)
      | task :: rest =>
        some ({ s with tasks := Function.update s.tasks l rest }.setPc w l (.running task))
    | .running task =>
      if (s.calls (.worker w)).isNone then
        some ({ s with executed := s.executed ++ [task] }.setPc w l .popping)
      else none
    | .returned => none

variable [DecidableEq κ]

/-- The call of `caller` goes on at `call`. -/
def State.setCall (s : State κ) (caller : Caller κ) (call : Option Call) : State κ :=
  { s with calls := Function.update s.calls caller call }

/-- A step of `addThread`, or the `notify_one` after it. -/
def pushedStep (s : State κ) (caller : Caller κ) (choice : Choice) (l : Level) (task : Task) :
    PushedPc → Option (State κ)
  | .threadsSize => some (s.setCall caller (some (.pushed l task
      (if (s.threads l).length ≥ s.limits l then .notify else .tasksSize))))
  | .tasksSize => some (s.setCall caller (some (.pushed l task
      (if (s.tasks l).length ≤ 1 then .notify else .findFree))))
  -- the scan of `_levelThreads` is not atomic: the workers change while it runs
  | .findFree => some (s.setCall caller (some (.pushed l task
      (if choice.foundFree then .notify else .lock))))
  | .lock =>
    if s.mt l = none then
      some ({ s with mt := Function.update s.mt l (some caller) }.setCall caller
        (some (.pushed l task .recheck)))
    else none
  | .recheck => some (s.setCall caller (some (.pushed l task
      (if (s.threads l).length ≥ s.limits l then .unlock else .makeThread))))
  | .makeThread =>
    if choice.canStart then
      some ({ s with workers := s.workers ++ [Worker.mk l .start] }.setCall caller
        (some (.pushed l task (.register s.workers.length))))
    else some (s.setCall caller (some (.pushed l task .unlock)))
  | .register w =>
    some ({ s with threads := Function.update s.threads l (s.threads l ++ [w]) }.setCall caller
      (some (.pushed l task .unlock)))
  | .unlock => some ({ s with mt := Function.update s.mt l none }.setCall caller
      (some (.pushed l task .notify)))
  | .notify => ((s.cvLevels l).notifyOne choice.notified).map fun cv =>
      { s with
        cvLevels := Function.update s.cvLevels l cv
        accepted := s.accepted ++ [task] }.setCall caller none

/-- A step of a call of `schedule`. -/
def callStep (s : State κ) (caller : Caller κ) (choice : Choice) : Option (State κ) :=
  match s.calls caller with
  | none => none
  | some (.checkClosed level) =>
    if h : ¬ s.isClosed ∧ level < maxLevelCount then
      some (s.setCall caller (some (.checkCancel ⟨level, h.2⟩)))
    else some (s.setCall caller none)
  | some (.checkCancel l) =>
    if s.isCancel ∧ l = 0 then some (s.setCall caller none)
    else some (s.setCall caller (some (.push l)))
  | some (.push l) =>
    some ({ s with
      tasks := Function.update s.tasks l (s.tasks l ++ [s.pushed])
      pushed := s.pushed + 1 }.setCall caller (some (.pushed l s.pushed .threadsSize)))
  | some (.pushed l task pc) => pushedStep s caller choice l task pc

def closeStep (s : State κ) : Option (State κ) :=
  match s.close with
  | .idle => some { s with isCancel := true, close := .notify 0 }
  | .notify l => some { s with
      cvLevels := Function.update s.cvLevels l (s.cvLevels l).notifyAll
      close := if l = 0 then .notify 1 else .join 0 }
  | .join l =>
    match s.threads l with
    | [] => some { s with close := if l = 0 then .join 1 else .finish }
    | w :: rest =>
      some { s with threads := Function.update s.threads l rest, close := .joining l w }
  | .joining l w =>
    if (s.workers[w]?).map Worker.pc = some .returned then some { s with close := .join l }
    else none
  | .finish => some { s with isClosed := true, close := .returned }
  | .returned => none

def next (s : State κ) : Action κ → Option (State κ)
  | .worker w => workerStep s w
  | .wake l w => ((s.cvLevels l).wake w).map fun cv =>
      { s with cvLevels := Function.update s.cvLevels l cv }
  | .enter caller =>
    if (s.calls caller).isNone ∧ mayCall s caller then
      some (s.setCall caller (some (.checkClosed (scheduleLevel s caller))))
    else none
  | .call caller choice => callStep s caller choice
  | .close => closeStep s

end Steps

/-- Any number of clients around one scheduler. -/
def machine (κ : Type) [DecidableEq κ] (limit : Nat) : Machine (State κ) (Action κ) where
  init s := s = State.make κ limit
  next := next

end Garbage.LimitedScheduler
