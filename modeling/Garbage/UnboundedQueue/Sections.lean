import Mathlib.Logic.Function.Basic
import Garbage.Foundation.CondVar
import Garbage.Foundation.Machine

/-!
# The two unbounded queues and their locked sections

`TUnboundedQueueForNonThrowMovable` and `TUnboundedQueue_` keep their data in a
list under one mutex, with the condition variable `_pushToQueue`.  Every member
works in sections that hold the mutex from the first line to the last, so a
section is one function from the state to the state and an `Event`, what the
section did.  A pop that waits is split at its wait: one section up to the
block, and one more each time the thread is woken.

What the environment decides is an argument: which blocked thread a
`notify_one` wakes, and whether the time of a timed wait is over.

The two classes share their sections; each has its own list of members,
`TUnboundedQueueForNonThrowMovable.Member` and `TUnboundedQueue_.Member`.
-/

namespace Garbage.UnboundedQueue

open Foundation (CondVar Machine)

inductive Exception
  | timeout
  | closed
  deriving DecidableEq, Repr

/-- The end of the queue at which a push adds. -/
inductive Side
  | front
  | back
  deriving DecidableEq, Repr

/-- What `wait_and_pop_internal` does before it may pop. -/
inductive WaitFunctor
  | waitForDataPushToQueue
  | waitForDataPushToQueueOrTimeout
  | rightNowThrowTimeoutExceptionIfNoExistDataAtQueue
  deriving DecidableEq, Repr

/-- How `wait_and_pop_internal` takes data. -/
inductive MoveFunctor
  | moveDataFromQueueFront
  | moveAllDataFromQueue
  deriving DecidableEq, Repr

/-- What a section did.  A push moved `items` into the queue and left `left` in
the list of its caller. -/
inductive Event (τ α : Type)
  | closed
  | pushed (side : Side) (items left : List α)
  | cleared (items : List α)
  | returned (thread : τ) (items : List α)
  | threw (thread : τ) (exception : Exception)
  | blocked (thread : τ)
  deriving DecidableEq, Repr

/-- The members of a queue, and for each waiting thread the functors of its call. -/
structure State (τ α : Type) where
  queue : List α
  closed : Bool
  pushToQueue : CondVar τ
  call : τ → WaitFunctor × MoveFunctor

section Sections

variable {τ α : Type}

def Side.splice (batch queue : List α) : Side → List α
  | front => batch ++ queue
  | back => queue ++ batch

/-- The data a pop moves out and the queue that stays; nothing on an empty queue
for `moveDataFromQueueFront`, whose `front()` is undefined there. -/
def MoveFunctor.split (queue : List α) : MoveFunctor → Option (List α × List α)
  | moveDataFromQueueFront =>
    match queue with
    | [] => none
    | data :: rest => some ([data], rest)
  | moveAllDataFromQueue => some (queue, [])

/-- A pop takes the data at the front. -/
theorem MoveFunctor.split_eq_some {move : MoveFunctor} {queue items rest : List α}
    (h : move.split queue = some (items, rest)) : queue = items ++ rest := by
  cases move with
  | moveDataFromQueueFront =>
    cases queue with
    | nil => cases h
    | cons data queue => cases h; rfl
  | moveAllDataFromQueue => cases h; exact (List.append_nil _).symm

def State.make (τ α : Type) : State τ α :=
  { queue := [], closed := false, pushToQueue := CondVar.idle τ,
    call := fun _ => (.waitForDataPushToQueue, .moveDataFromQueueFront) }

def testPushAndThrowIfClosed (s : State τ α) : Except Exception Bool :=
  if s.closed then .error .closed else .ok (!s.queue.isEmpty)

theorem testPushAndThrowIfClosed_eq_error {s : State τ α} {x : Exception}
    (h : testPushAndThrowIfClosed s = .error x) : s.closed = true ∧ x = .closed := by
  rw [testPushAndThrowIfClosed] at h
  split at h
  · next hclosed => exact ⟨hclosed, (Except.error.inj h).symm⟩
  · cases h

theorem testPushAndThrowIfClosed_eq_ok {s : State τ α} {b : Bool}
    (h : testPushAndThrowIfClosed s = .ok b) : s.closed = false ∧ b = !s.queue.isEmpty := by
  rw [testPushAndThrowIfClosed] at h
  split at h
  · cases h
  · next hopen => exact ⟨Bool.eq_false_iff.mpr hopen, (Except.ok.inj h).symm⟩

def close (s : State τ α) : State τ α × Event τ α :=
  ({ s with closed := true, pushToQueue := s.pushToQueue.notifyAll }, .closed)

def clear (s : State τ α) : State τ α × Event τ α := ({ s with queue := [] }, .cleared s.queue)

variable [DecidableEq τ]

/-- The locked section of the pushes. -/
def push (side : Side) (batch : List α) (notified : Option τ) (s : State τ α) :
    Option (State τ α × Event τ α) :=
  if s.closed then some (s, .pushed side [] batch)
  else (s.pushToQueue.notifyOne notified).map fun cv =>
    ({ s with queue := side.splice batch s.queue, pushToQueue := cv }, .pushed side batch [])

/-- `push_front_all` and `push_back_all`: an empty batch does not lock. -/
def pushAll (side : Side) (batch : List α) (notified : Option τ) (s : State τ α) :
    Option (State τ α × Event τ α) :=
  match batch with
  | [] => some (s, .pushed side [] [])
  | data :: rest => push side (data :: rest) notified s

/-- `wait_and_pop_internal` once `WaitDataInQueue` has returned: the move and the
notification of `TExceptionSafety`. -/
def moveDataFromQueue (t : τ) (move : MoveFunctor) (notified : Option τ) (s : State τ α) :
    Option (State τ α × Event τ α) :=
  match move.split s.queue with
  | none => none
  | some (items, rest) =>
    (if rest = [] then some s.pushToQueue else s.pushToQueue.notifyOne notified).map fun cv =>
      ({ s with queue := rest, pushToQueue := cv }, .returned t items)

/-- `t` releases the mutex and blocks. -/
def blockIn (t : τ) (wait : WaitFunctor) (move : MoveFunctor) (s : State τ α) :
    Option (State τ α × Event τ α) :=
  (s.pushToQueue.block t).map fun cv =>
    ({ s with pushToQueue := cv, call := Function.update s.call t (wait, move) }, .blocked t)

/-- `wait_and_pop_internal` from a check of its predicate on.  `expired` says
whether the time of a timed wait was found to be over before the check. -/
def waitAndPopInternal (t : τ) (wait : WaitFunctor) (move : MoveFunctor) (expired : Bool)
    (notified : Option τ) (s : State τ α) : Option (State τ α × Event τ α) :=
  match testPushAndThrowIfClosed s with
  | .error e => some (s, .threw t e)
  | .ok true => moveDataFromQueue t move notified s
  | .ok false =>
    match wait with
    | .waitForDataPushToQueue => blockIn t wait move s
    | .waitForDataPushToQueueOrTimeout =>
      if expired then some (s, .threw t .timeout) else blockIn t wait move s
    | .rightNowThrowTimeoutExceptionIfNoExistDataAtQueue => some (s, .threw t .timeout)

def popAllOrEmpty (t : τ) (notified : Option τ) (s : State τ α) :
    Option (State τ α × Event τ α) :=
  match waitAndPopInternal t .rightNowThrowTimeoutExceptionIfNoExistDataAtQueue
    .moveAllDataFromQueue false notified s with
  | some (s', .threw t .timeout) => some (s', .returned t [])
  | r => r

/-- `t` was woken, has the mutex again and checks the predicate of its wait. -/
def resume (t : τ) (expired : Bool) (notified : Option τ) (s : State τ α) :
    Option (State τ α × Event τ α) :=
  match s.pushToQueue.resume t with
  | none => none
  | some cv =>
    waitAndPopInternal t (s.call t).1 (s.call t).2 expired notified { s with pushToQueue := cv }

end Sections

/-! ### The members of the two classes -/

/-- What a member does in its (first) locked section. -/
inductive Call (α : Type)
  | close
  | clear
  | push (side : Side) (batch : List α)
  | pushAll (side : Side) (batch : List α)
  | waitAndPopInternal (wait : WaitFunctor) (move : MoveFunctor)
  | popAllOrEmpty

/-- The call of a member by the thread `t`. -/
def Call.run {τ α : Type} [DecidableEq τ] (t : τ) (notified : Option τ) (s : State τ α) :
    Call α → Option (State τ α × Event τ α)
  | close => some (UnboundedQueue.close s)
  | clear => some (UnboundedQueue.clear s)
  | push side batch => UnboundedQueue.push side batch notified s
  | pushAll side batch => UnboundedQueue.pushAll side batch notified s
  | waitAndPopInternal wait move =>
    UnboundedQueue.waitAndPopInternal t wait move false notified s
  | popAllOrEmpty => UnboundedQueue.popAllOrEmpty t notified s

inductive TUnboundedQueueForNonThrowMovable.Member (α : Type)
  | close
  | pushFront (data : α)
  | pushBack (data : α)
  | clear
  | waitAndPop
  | waitAndPopAll
  | waitAndPopFor
  | waitAndPopAllFor
  | pop
  | popAll

def TUnboundedQueueForNonThrowMovable.Member.call {α : Type} : Member α → Call α
  | close => .close
  | pushFront data => .push .front [data]
  | pushBack data => .push .back [data]
  | clear => .clear
  | waitAndPop => .waitAndPopInternal .waitForDataPushToQueue .moveDataFromQueueFront
  | waitAndPopAll => .waitAndPopInternal .waitForDataPushToQueue .moveAllDataFromQueue
  | waitAndPopFor => .waitAndPopInternal .waitForDataPushToQueueOrTimeout .moveDataFromQueueFront
  | waitAndPopAllFor =>
    .waitAndPopInternal .waitForDataPushToQueueOrTimeout .moveAllDataFromQueue
  | pop => .waitAndPopInternal .rightNowThrowTimeoutExceptionIfNoExistDataAtQueue
    .moveDataFromQueueFront
  | popAll => .waitAndPopInternal .rightNowThrowTimeoutExceptionIfNoExistDataAtQueue
    .moveAllDataFromQueue

inductive TUnboundedQueue_.Member (α : Type)
  | close
  | pushFront (data : α)
  | pushBack (data : α)
  | pushFrontAll (batch : List α)
  | pushBackAll (batch : List α)
  | clear
  | waitAndPopAll
  | waitAndPopAllFor
  | popAll
  | popAllOrEmpty

def TUnboundedQueue_.Member.call {α : Type} : Member α → Call α
  | close => .close
  | pushFront data => .pushAll .front [data]
  | pushBack data => .pushAll .back [data]
  | pushFrontAll batch => .pushAll .front batch
  | pushBackAll batch => .pushAll .back batch
  | clear => .clear
  | waitAndPopAll => .waitAndPopInternal .waitForDataPushToQueue .moveAllDataFromQueue
  | waitAndPopAllFor =>
    .waitAndPopInternal .waitForDataPushToQueueOrTimeout .moveAllDataFromQueue
  | popAll => .waitAndPopInternal .rightNowThrowTimeoutExceptionIfNoExistDataAtQueue
    .moveAllDataFromQueue
  | popAllOrEmpty => .popAllOrEmpty

/-! ### Threads around one queue -/

/-- A step of the threads around a queue whose members are `μ`: a thread outside
any wait calls a member, a woken thread goes on, or a blocked thread wakes on
its own. -/
inductive Action (τ μ : Type)
  | call (thread : τ) (member : μ) (notified : Option τ)
  | resume (thread : τ) (expired : Bool) (notified : Option τ)
  | wake (thread : τ)

/-- A queue, and what its sections did so far. -/
structure Traced (τ α : Type) where
  state : State τ α
  events : List (Event τ α)

variable {τ α μ : Type} [DecidableEq τ]

/-- The events grow by what the section did. -/
def Traced.record (s : Traced τ α) (r : State τ α × Event τ α) : Traced τ α :=
  { state := r.1, events := s.events ++ [r.2] }

def Traced.next (call : μ → Call α) (s : Traced τ α) : Action τ μ → Option (Traced τ α)
  | .call t member notified =>
    if s.state.pushToQueue.waits t then none
    else ((call member).run t notified s.state).map s.record
  | .resume t expired notified => (resume t expired notified s.state).map s.record
  | .wake t => (s.state.pushToQueue.wake t).map fun cv =>
    { s with state := { s.state with pushToQueue := cv } }

/-- Any number of threads around one queue with the members `call`. -/
def machine (τ : Type) [DecidableEq τ] (call : μ → Call α) :
    Machine (Traced τ α) (Action τ μ) where
  init s := s = ⟨State.make τ α, []⟩
  next := Traced.next call

abbrev TUnboundedQueueForNonThrowMovable.machine (τ α : Type) [DecidableEq τ] :
    Machine (Traced τ α) (Action τ (Member α)) := UnboundedQueue.machine τ Member.call

abbrev TUnboundedQueue_.machine (τ α : Type) [DecidableEq τ] :
    Machine (Traced τ α) (Action τ (Member α)) := UnboundedQueue.machine τ Member.call

end Garbage.UnboundedQueue
