import Garbage.BoundedConcurrentQueue.Queue
import Garbage.Foundation.Conveyor

/-!
# The order of the items

Neither the wait nor the notification touches the items.  So the queue is a conveyor
from the `push` of the concurrent queue to its `try_pop`, and each producer is one
from its calls of `push` to the insertions: an item that waits for space is in the
hands of its thread, and no other item of the thread overtakes it.
-/

namespace Garbage.BoundedConcurrentQueue

open Foundation (Machine Conveyor)

variable {τ α : Type}

/-- What a thread in `push` has not inserted yet. -/
def Pc.pending : Pc α → List α
  | .checkSize x | .lock x | .block x | .waiting x | .unlock x | .insert x => [x]
  | .outside | .pop | .notify _ => []

/-- The item that a step inserts, with the thread that called `push`. -/
def inserted (s : State τ α) : Action τ α → List (τ × α)
  | .step t _ =>
    match s.pc t with
    | .insert x => [(t, x)]
    | _ => []
  | _ => []

/-- The item that a step pops, with the thread that called `try_pop`. -/
def popped (s : State τ α) : Action τ α → List (τ × α)
  | .step t _ =>
    match s.pc t, s.items with
    | .pop, x :: _ => [(t, x)]
    | _, _ => []
  | _ => []

variable [DecidableEq τ]

/-- The item with which the thread `t` calls `push`. -/
def called (t : τ) (_ : State τ α) : Action τ α → List α
  | .push u x => if u = t then [x] else []
  | _ => []

def ofThread (t : τ) (entries : List (τ × α)) : List α :=
  entries.flatMap fun entry => if entry.1 = t then [entry.2] else []

variable {maxSize : Nat} {spurious : Bool} {s s' : State τ α}

theorem enter_eq_some {t : τ} {pc : Pc α} (h : enter s t pc = some s') :
    s.pc t = .outside ∧ s' = s.goto t pc := by
  unfold enter at h
  split at h
  · next hout => exact ⟨hout, (Option.some.inj h).symm⟩
  · cases h

/-- What a step of the thread `t` does to the items, and what it leaves in the hands of `t`. -/
theorem threadStep_moves {t : τ} {n : Option τ} (h : threadStep maxSize s t n = some s') :
    s.items ++ (inserted s (.step t n)).map Prod.snd =
        (popped s (.step t n)).map Prod.snd ++ s'.items ∧
      ∃ pc, s'.pc = Function.update s.pc t pc ∧
        (s.pc t).pending = ofThread t (inserted s (.step t n)) ++ pc.pending := by
  unfold threadStep at h
  cases hpc : s.pc t with
  | outside => simp [hpc] at h
  | checkSize x =>
    obtain rfl : s.goto t _ = s' := by simpa [hpc] using h
    refine ⟨by simp [inserted, popped, hpc], _, rfl, ?_⟩
    split <;> simp [inserted, hpc, Pc.pending, ofThread]
  | lock x =>
    obtain ⟨-, rfl⟩ : s.mt = none ∧ _ = s' := by simpa [hpc] using h
    exact ⟨by simp [inserted, popped, hpc], _, rfl, by simp [inserted, hpc, Pc.pending, ofThread]⟩
  | block x =>
    obtain ⟨cv, -, rfl⟩ : ∃ cv, s.cv.block t = some cv ∧ _ = s' := by simpa [hpc] using h
    exact ⟨by simp [inserted, popped, hpc], _, rfl, by simp [inserted, hpc, Pc.pending, ofThread]⟩
  | waiting x =>
    obtain ⟨-, cv, -, rfl⟩ : s.mt = none ∧ ∃ cv, s.cv.resume t = some cv ∧ _ = s' := by
      simpa [hpc] using h
    exact ⟨by simp [inserted, popped, hpc], _, rfl, by simp [inserted, hpc, Pc.pending, ofThread]⟩
  | unlock x =>
    obtain rfl : State.goto _ t _ = s' := by simpa [hpc] using h
    exact ⟨by simp [inserted, popped, hpc], _, rfl, by simp [inserted, hpc, Pc.pending, ofThread]⟩
  | insert x =>
    obtain rfl : State.goto _ t _ = s' := by simpa [hpc] using h
    exact ⟨by simp [inserted, popped, hpc], _, rfl, by simp [inserted, hpc, Pc.pending, ofThread]⟩
  | pop =>
    cases hitems : s.items with
    | nil =>
      obtain rfl : s.goto t _ = s' := by simpa [hpc, hitems] using h
      exact ⟨by simp [inserted, popped, hpc, hitems], _, rfl,
        by simp [inserted, hpc, Pc.pending, ofThread]⟩
    | cons x rest =>
      obtain rfl : State.goto _ t _ = s' := by simpa [hpc, hitems] using h
      exact ⟨by simp [inserted, popped, hpc, hitems], _, rfl,
        by simp [inserted, hpc, Pc.pending, ofThread]⟩
  | notify x =>
    obtain ⟨cv, -, rfl⟩ : ∃ cv, s.cv.notifyOne n = some cv ∧ _ = s' := by simpa [hpc] using h
    exact ⟨by simp [inserted, popped, hpc], _, rfl, by simp [inserted, hpc, Pc.pending, ofThread]⟩

theorem wake_moves {t : τ} (h : (machine τ α maxSize spurious).next s (.wake t) = some s') :
    s'.items = s.items ∧ s'.pc = s.pc := by
  dsimp only [machine, next] at h
  split at h
  · obtain ⟨cv, -, rfl⟩ := Option.map_eq_some_iff.mp h
    exact ⟨rfl, rfl⟩
  · cases h

/-- From the insertions to the pops. -/
def conveyor (τ α : Type) [DecidableEq τ] (maxSize : Nat) (spurious : Bool) :
    Conveyor (machine τ α maxSize spurious) α where
  items := State.items
  put s a := (inserted s a).map Prod.snd
  take s a := (popped s a).map Prod.snd
  step s a s' h := by
    cases a with
    | push t x | tryPop t =>
      obtain ⟨-, rfl⟩ := enter_eq_some h
      simp [inserted, popped]
    | wake t =>
      obtain ⟨hitems, -⟩ := wake_moves h
      simp [inserted, popped, hitems]
    | step t n => exact (threadStep_moves h).1

/-- From the calls of one thread to its insertions. -/
def producer (τ α : Type) [DecidableEq τ] (maxSize : Nat) (spurious : Bool) (t : τ) :
    Conveyor (machine τ α maxSize spurious) α where
  items s := (s.pc t).pending
  put := called t
  take s a := ofThread t (inserted s a)
  step s a s' h := by
    cases a with
    | push u x =>
      obtain ⟨hout, rfl⟩ := enter_eq_some h
      by_cases hu : u = t
      · subst hu
        simp [called, inserted, ofThread, hout, Pc.pending]
      · simp [called, inserted, ofThread, hu, goto_ne _ (Ne.symm hu)]
    | tryPop u =>
      obtain ⟨hout, rfl⟩ := enter_eq_some h
      by_cases hu : u = t
      · subst hu
        simp [called, inserted, ofThread, hout, Pc.pending]
      · simp [called, inserted, ofThread, goto_ne _ (Ne.symm hu)]
    | wake u =>
      obtain ⟨-, hpc⟩ := wake_moves h
      simp [called, inserted, ofThread, hpc]
    | step u n =>
      obtain ⟨-, pc, hpc, hpending⟩ := threadStep_moves h
      by_cases hu : u = t
      · subst hu
        simpa [called, hpc] using hpending
      · have hother : ofThread t (inserted s (.step u n)) = [] := by
          unfold inserted
          cases hu' : s.pc u <;> simp [ofThread, hu', hu]
        simp [called, hpc, Function.update_of_ne (Ne.symm hu), hother]

/-- **Items pass in order.**  In every run the inserted items are the popped ones and then
those in the queue; of each producer they are the items of its calls, in their order, but for
the one that it has in hand. -/
theorem passes_in_order (maxSize : Nat) (spurious : Bool) {actions : List (Action τ α)}
    (h : (machine τ α maxSize spurious).run (State.make τ α) actions = some s') :
    (((machine τ α maxSize spurious).log inserted (State.make τ α) actions).map Prod.snd =
      ((machine τ α maxSize spurious).log popped (State.make τ α) actions).map Prod.snd ++
        s'.items) ∧
    ∀ t, (machine τ α maxSize spurious).log (called t) (State.make τ α) actions =
      ofThread t ((machine τ α maxSize spurious).log inserted (State.make τ α) actions) ++
        (s'.pc t).pending := by
  constructor
  · have hrun := (conveyor τ α maxSize spurious).run_empty (s := State.make τ α) rfl h
    simpa [conveyor, List.map_eq_flatMap, Machine.log_flatMap] using hrun
  · intro t
    have hrun := (producer τ α maxSize spurious t).run_empty rfl h
    simpa [producer, ofThread, Machine.log_flatMap] using hrun

/-- The thread 1 is still in `push` when the thread 2 pops. -/
def twoProducers : List (Action Nat Char) :=
  [.push 0 'a', .step 0 none, .step 0 none, .push 1 'b', .step 1 none, .tryPop 2, .step 2 none]

theorem passes_in_order_two :
    ∃ s', (machine Nat Char 1 false).run (State.make Nat Char) twoProducers = some s' ∧
      ['a'] = ((machine Nat Char 1 false).log popped (State.make Nat Char) twoProducers).map
        Prod.snd ++ s'.items ∧
      ['b'] = [] ++ (s'.pc 1).pending := by
  have hrun := passes_in_order 1 false
    (show (machine Nat Char 1 false).run (State.make Nat Char) twoProducers = some _ from rfl)
  exact ⟨_, rfl, hrun.1, hrun.2 1⟩

end Garbage.BoundedConcurrentQueue
