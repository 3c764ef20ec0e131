import Garbage.Foundation.Machine
import Mathlib.Logic.Function.Basic

/-!
# The thread pool of the three tiers

`ThreadPool` is static and has a `Lazy` of the pool in `_impl`, which `Close`
sets to null.  `AddTask` makes the pool when it is the first one to ask the
`Lazy` for it, and any other `AddTask` waits until it is made.  The constructor
starts the workers.  `Dispose` cancels their token, joins them and disposes the
queue.

The threads of clients are in `τ`, each of them in one call at a time.  A step
is one access to a field or one call of a library.  A task ends, and its worker
ends with it if the task throws and so does the logger.
-/

namespace Garbage.ThreeTierThreadPool

open Foundation (Machine)

inductive Worker (α : Type)
  | unstarted
  /-- before it looks at the token -/
  | check
  /-- in `_queue.Take` -/
  | take
  | running (task : α)
  | ended
  deriving DecidableEq

/-- The `Lazy`: not asked, asked by `t` which runs the constructor, or made. -/
inductive Lazy (τ : Type)
  | new
  | running (t : τ)
  | created
  deriving DecidableEq

/-- What the threads share.  The fields of the pool mean something once it is made. -/
structure Fields (τ α : Type) where
  /-- `ThreadPool._impl` is not null -/
  impl : Bool
  lazy : Lazy τ
  closed : Bool
  /-- `_pool` is not null -/
  pool : Bool
  workers : List (Worker α)
  cancelled : Bool
  ctsDisposed : Bool
  /-- `_queue` is not null -/
  queueField : Bool
  queue : List α
  queueDisposed : Bool

/-- Where a client is in its call, named by what it does next. -/
inductive Phase (α : Type)
  | idle
  /-- `AddTask` asks the `Lazy` for the pool -/
  | value (task : α)
  /-- the constructor starts the worker `k` -/
  | constructing (k : Nat) (task : α)
  /-- `ThreadPoolImpl.AddTask` looks at `_closed` -/
  | check (task : α)
  | readQueue (task : α)
  | add (task : α)
  /-- `Close` has read `_impl` and sets it to null -/
  | nullImpl (impl : Bool)
  | isValueCreated (impl : Bool)
  /-- `Dispose` sets `_closed` -/
  | close
  | readPool
  | nullPool (pool : Bool)
  /-- it looks whether the pool that it has read is null -/
  | taken (pool : Bool)
  | cancel
  | join (k : Nat)
  | disposeCts
  | lookQueue
  | disposeQueue
  | nullQueue

inductive Result (α : Type)
  | goes (phase : Phase α)
  | returned
  | threw

structure State (τ α : Type) where
  fields : Fields τ α
  phase : τ → Phase α
  /-- a call has thrown -/
  thrown : Bool
  /-- a `Close` has returned -/
  closeReturned : Bool

inductive Action (τ α : Type)
  | addTask (t : τ) (task : α)
  | close (t : τ)
  /-- the next step of the call of `t`; `logThrows`: the logger throws if it is called -/
  | step (t : τ) (logThrows : Bool)
  /-- a step of a worker; `dies`: it throws and so does the logger, if it can throw -/
  | work (k : Nat) (dies : Bool)

variable {τ α : Type}

/-! ### The clients -/

section Steps

def threadPoolSize (processorCount : Nat) : Nat := min (processorCount * 2) 8

variable (size : Nat) (t : τ) (logThrows : Bool) (f : Fields τ α)

def Phase.step : Phase α → Option (Fields τ α × Result α)
  | .idle => none
  | .value task =>
    match f.lazy with
    | .new => some ({ f with lazy := .running t, workers := List.replicate size .unstarted },
        .goes (.constructing 0 task))
    | .running _ => none
    | .created => some (f, .goes (.check task))
  | .constructing k task =>
    if k < size then some ({ f with workers := f.workers.set k .check },
      .goes (.constructing (k + 1) task))
    else some ({ f with lazy := .created }, .goes (.check task))
  | .check task => if f.closed then some (f, .returned) else some (f, .goes (.readQueue task))
  | .readQueue task => if f.queueField then some (f, .goes (.add task)) else some (f, .threw)
  | .add task =>
    if f.queueDisposed then some (f, .threw)
    else some ({ f with queue := f.queue ++ [task] }, .returned)
  | .nullImpl impl => some ({ f with impl := false }, .goes (.isValueCreated impl))
  | .isValueCreated impl =>
    if impl then
      match f.lazy with
      | .created => some (f, .goes .close)
      | _ => some (f, .returned)
    else some (f, .threw)
  | .close => some ({ f with closed := true }, .goes .readPool)
  | .readPool => some (f, .goes (.nullPool f.pool))
  | .nullPool pool => some ({ f with pool := false }, .goes (.taken pool))
  | .taken pool => if pool then some (f, .goes .cancel) else some (f, .returned)
  | .cancel =>
    -- the exception of a disposed source is caught and logged
    if f.ctsDisposed then some (f, if logThrows then .threw else .returned)
    else some ({ f with cancelled := true }, .goes (.join 0))
  | .join k =>
    match f.workers[k]? with
    | none => some (f, .goes .disposeCts)
    | some .ended => some (f, .goes (.join (k + 1)))
    | some _ => none
  | .disposeCts => some ({ f with ctsDisposed := true }, .goes .lookQueue)
  | .lookQueue => some (f, .goes (if f.queueField then .disposeQueue else .nullQueue))
  | .disposeQueue => some ({ f with queueDisposed := true }, .goes .nullQueue)
  | .nullQueue => some ({ f with queueField := false }, .returned)

/-- The call is one of `Close`. -/
def Phase.ofClose : Phase α → Bool
  | .idle | .value _ | .constructing _ _ | .check _ | .readQueue _ | .add _ => false
  | _ => true

/-! ### The workers -/

/-- An exception is logged, and the worker goes on unless the logger throws. -/
def Worker.afterError (dies : Bool) : Worker α := if dies then .ended else .check

def Worker.step (dies : Bool) : Worker α → Option (List α × Worker α)
  | .unstarted | .ended => none
  | .check => some (f.queue, if f.cancelled then .ended else .take)
  | .take =>
    if !f.queueField || f.queueDisposed then some (f.queue, .afterError dies)
    else if f.cancelled then some (f.queue, .ended)
    else match f.queue with
      | [] => none
      | task :: rest => some (rest, .running task)
  | .running _ => some (f.queue, .afterError dies)

end Steps

/-! ### The system -/

variable [DecidableEq τ]

/-- The client is in a phase. -/
def State.enter (s : State τ α) (t : τ) (p : Phase α) : State τ α :=
  { s with phase := Function.update s.phase t p }

def State.advance (s : State τ α) (t : τ) (p : Phase α) : Fields τ α × Result α → State τ α
  | (f, .goes p') => { s with fields := f, phase := Function.update s.phase t p' }
  | (f, .returned) => { s with
      fields := f
      phase := Function.update s.phase t .idle
      closeReturned := s.closeReturned || p.ofClose }
  | (f, .threw) => { s with
      fields := f, phase := Function.update s.phase t .idle, thrown := true }

def next (size : Nat) (s : State τ α) : Action τ α → Option (State τ α)
  | .addTask t task =>
    match s.phase t with
    | .idle => some (if s.fields.impl then s.enter t (.value task) else { s with thrown := true })
    | _ => none
  | .close t =>
    match s.phase t with
    | .idle => some (s.enter t (.nullImpl s.fields.impl))
    | _ => none
  | .step t logThrows =>
    ((s.phase t).step size t logThrows s.fields).map (s.advance t (s.phase t))
  | .work k dies =>
    match s.fields.workers[k]? with
    | none => none
    | some w => (w.step s.fields dies).map fun r =>
      { s with fields := { s.fields with queue := r.1, workers := s.fields.workers.set k r.2 } }

omit [DecidableEq τ] in
def start : State τ α where
  fields := ⟨true, .new, false, true, [], false, false, true, [], false⟩
  phase _ := .idle
  thrown := false
  closeReturned := false

def machine (size : Nat) : Machine (State τ α) (Action τ α) where
  init s := s = start
  next := next size

end Garbage.ThreeTierThreadPool
