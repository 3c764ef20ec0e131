import Mathlib.Logic.Function.Basic
import Garbage.Foundation.Machine

/-!
# The flexible periodic schedule

`SchedulingRun` runs `ProcessBody` in a loop until its token is cancelled, and
sleeps between two runs.  For each sleep it creates a token source of its own,
publishes it in `_waitingCts`, asks for the interval, sleeps on the token of the
source, clears the field and disposes of the source.  `WakeUpProcessing` reads
the field and cancels the source it finds there.

Each access to the field, each `Cancel`, each `Dispose` and the sleep is a step
of its own.  Any number of threads call `WakeUpProcessing`, and the token of the
loop may be cancelled at any moment, which cancels the source that is subscribed
to it.  The sources are numbered as the loop creates them.
-/

namespace Garbage.LongRunning.PeriodicFlexible

open Foundation (Machine)

/-- Where the loop stands.  `cts` is its source, and `failed` says that an
exception is on its way out. -/
inductive LoopPc
  /-- at `while (!token.IsCancellationRequested)` -/
  | check
  /-- in `ProcessBody`, whose exceptions are caught -/
  | body
  /-- at `if (token.IsCancellationRequested) return` -/
  | afterBody
  | create
  | register (cts : Nat)
  | publish (cts : Nat)
  /-- at the call of `IntervalCalculator` -/
  | interval (cts : Nat)
  /-- at `if (interval != TimeSpan.Zero && !token.IsCancellationRequested)` -/
  | beforeSleep (cts : Nat) (interval : Option Nat)
  | sleep (cts : Nat) (interval : Option Nat)
  | sleeping (cts : Nat) (interval : Option Nat)
  | clear (cts : Nat) (failed : Bool)
  | unregister (cts : Nat) (failed : Bool)
  | dispose (cts : Nat) (failed : Bool)
  | returned
  | threw
  deriving DecidableEq

namespace LoopPc

/-- The source that exists and is not disposed of. -/
def current : LoopPc → Option Nat
  | register c | publish c | interval c | beforeSleep c _ | sleep c _ | sleeping c _
  | clear c _ | unregister c _ | dispose c _ => some c
  | _ => none

/-- The source that the field holds. -/
def published : LoopPc → Option Nat
  | interval c | beforeSleep c _ | sleep c _ | sleeping c _ | clear c _ => some c
  | _ => none

def between : LoopPc → Bool
  | check | returned | threw => true
  | _ => false

end LoopPc

/-- The loop, its sources and the threads in `WakeUpProcessing`; `wakers` are the
sources these threads have read.  Since the last `ProcessBody` began a call has
completed (`woken`), or has found no source (`missed`). -/
structure State (τ : Type) where
  tokenCancelled : Bool
  waitingCts : Option Nat
  made : Nat
  cancelled : Nat → Bool
  disposed : Nat → Bool
  subscriber : Option Nat
  loop : LoopPc
  wakers : τ → Option Nat
  woken : Bool
  missed : Bool
  wakeUpThrew : Bool

/-- What the environment decides: the interval, `none` if `IntervalCalculator`
throws and `some none` if it is infinite, and whether a sleep is over or throws. -/
structure Choice where
  interval : Option (Option Nat)
  expired : Bool
  sleepThrows : Bool

/-- A step of the loop, the cancellation of its token, the read of the field by a
thread that calls `WakeUpProcessing`, and the `Cancel` after it. -/
inductive Action (τ : Type)
  | loop (choice : Choice)
  | cancelToken
  | wakeUp (t : τ)
  | cancel (t : τ)

section Steps

variable {τ : Type}

def State.make (τ : Type) : State τ where
  tokenCancelled := false
  waitingCts := none
  made := 0
  cancelled _ := false
  disposed _ := false
  subscriber := none
  loop := .check
  wakers _ := none
  woken := false
  missed := false
  wakeUpThrew := false

/-- `Cancel()` of a source that is not disposed of. -/
def State.cancelSource (s : State τ) (cts : Nat) : State τ :=
  { s with cancelled := Function.update s.cancelled cts true }

/-- A step of `SchedulingRun`. -/
def loopStep (s : State τ) (choice : Choice) : Option (State τ) :=
  match s.loop with
  | .check =>
    if s.tokenCancelled then some { s with loop := .returned }
    else some { s with loop := .body, woken := false, missed := false }
  | .body => some { s with loop := .afterBody }
  | .afterBody => some { s with loop := if s.tokenCancelled then .returned else .create }
  | .create => some { s with
      loop := .register s.made
      made := s.made + 1
      cancelled := Function.update s.cancelled s.made false
      disposed := Function.update s.disposed s.made false }
  | .register c =>
    if s.tokenCancelled then some { s.cancelSource c with loop := .publish c }
    else some { s with loop := .publish c, subscriber := some c }
  | .publish c => some { s with loop := .interval c, waitingCts := some c }
  | .interval c =>
    match choice.interval with
    | none => some { s with loop := .clear c true }
    | some interval => some { s with loop := .beforeSleep c interval }
  | .beforeSleep c interval => some { s with
      loop := if interval ≠ some 0 ∧ ¬ s.tokenCancelled then .sleep c interval else .clear c false }
  | .sleep c interval => some { s with loop := .sleeping c interval }
  | .sleeping c interval =>
    if s.cancelled c ∨ (choice.expired ∧ interval.isSome) then
      some { s with loop := .clear c choice.sleepThrows }
    else none
  | .clear c failed => some { s with loop := .unregister c failed, waitingCts := none }
  | .unregister c failed => some { s with loop := .dispose c failed, subscriber := none }
  | .dispose c failed => some { s with
      loop := if failed then .threw else .check
      disposed := Function.update s.disposed c true }
  | .returned | .threw => none

variable [DecidableEq τ]

def next (s : State τ) : Action τ → Option (State τ)
  | .loop choice => loopStep s choice
  | .cancelToken =>
    match s.subscriber with
    | none => some { s with tokenCancelled := true }
    | some c => some { s.cancelSource c with tokenCancelled := true }
  | .wakeUp t =>
    match s.wakers t, s.waitingCts with
    | some _, _ => none
    | none, none => some { s with woken := true, missed := true }
    | none, some c => some { s with wakers := Function.update s.wakers t (some c) }
  | .cancel t =>
    match s.wakers t with
    | none => none
    | some c =>
      if s.disposed c then
        some { s with wakers := Function.update s.wakers t none, wakeUpThrew := true }
      else
        some { s.cancelSource c with
          wakers := Function.update s.wakers t none
          woken := true }

end Steps

/-- One loop and any number of threads that wake it up. -/
def machine (τ : Type) [DecidableEq τ] : Machine (State τ) (Action τ) where
  init s := s = State.make τ
  next := next

/-! ### Lost wake-ups -/

variable {τ : Type}

/-- The loop is asleep on a source that is not cancelled, although a call has
completed since `ProcessBody` began. -/
def Oversleeps (s : State τ) : Prop :=
  ∃ c interval, s.loop = .sleeping c interval ∧ s.cancelled c = false ∧ s.woken = true

/-- The loop does not go to sleep after a call that found no source, unless its
source is cancelled, and no `Cancel` comes after the disposal. -/
def InTime (s : State τ) : Action τ → Prop
  | .loop _ => ∀ c interval, s.loop = .sleep c interval → s.cancelled c = false → s.missed = false
  | .cancel t => ∀ c, s.wakers t = some c → s.disposed c = false
  | _ => True

end Garbage.LongRunning.PeriodicFlexible
