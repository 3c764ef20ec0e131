import Mathlib.Logic.Function.Basic
import Garbage.Foundation.CondVar
import Garbage.Foundation.Machine

/-!
# The bounded concurrent queue

`bounded_concurrent_queue` hides `push` and `try_pop` of a concurrent queue by
its own.  `push` first calls `wait`, which waits on a condition variable once if
the queue is full, and `try_pop` notifies one waiter after a successful pop.
Neither the check of the size nor the insertion nor the pop is made under the
mutex: only the wait itself holds it.

Each access to the shared data is a step of its own, and the program counter of
a thread (`Pc`) says which step is next.  Any number of threads call `push` and
`try_pop` in any order.  With `spurious` a blocked producer may also wake on its
own.
-/

namespace Garbage.BoundedConcurrentQueue

open Foundation (CondVar Machine)

inductive Pc (α : Type)
  | outside
  /-- in `push(x)`, at `unsafe_size() >= _max_size` -/
  | checkSize (x : α)
  /-- saw a full queue, about to lock `_mt` -/
  | lock (x : α)
  /-- has `_mt`, about to release it and block -/
  | block (x : α)
  /-- blocked in the wait, or woken and without `_mt` -/
  | waiting (x : α)
  /-- the wait is over, about to unlock `_mt` -/
  | unlock (x : α)
  /-- at the `push` of the concurrent queue -/
  | insert (x : α)
  /-- in `try_pop`, at the `try_pop` of the concurrent queue -/
  | pop
  /-- has popped `x`, at `_cv.notify_one()` -/
  | notify (x : α)
  deriving DecidableEq

/-- A queue and the threads around it. -/
structure State (τ α : Type) where
  items : List α
  mt : Option τ
  cv : CondVar τ
  pc : τ → Pc α

/-- A thread calls `push` or `try_pop`, takes its next step, where a notification
wakes `notified`, or wakes on its own. -/
inductive Action (τ α : Type)
  | push (t : τ) (x : α)
  | tryPop (t : τ)
  | step (t : τ) (notified : Option τ)
  | wake (t : τ)

section Steps

variable {τ α : Type}

def State.make (τ α : Type) : State τ α where
  items := []
  mt := none
  cv := .idle τ
  pc _ := .outside

/-- `unsafe_size() >= _max_size` -/
def full (maxSize : Nat) (s : State τ α) : Bool := s.items.length ≥ maxSize

variable [DecidableEq τ]

/-- The thread `t` goes on at `pc`. -/
def State.goto (s : State τ α) (t : τ) (pc : Pc α) : State τ α :=
  { s with pc := Function.update s.pc t pc }

/-- The next step of the thread `t`. -/
def threadStep (maxSize : Nat) (s : State τ α) (t : τ) (notified : Option τ) :
    Option (State τ α) :=
  match s.pc t with
  | .outside => none
  | .checkSize x => some (s.goto t (if full maxSize s then .lock x else .insert x))
  | .lock x => if s.mt = none then some ({ s with mt := some t }.goto t (.block x)) else none
  | .block x => (s.cv.block t).map fun cv => { s with mt := none, cv }.goto t (.waiting x)
  | .waiting x =>
    if s.mt = none then
      (s.cv.resume t).map fun cv => { s with mt := some t, cv }.goto t (.unlock x)
    else none
  | .unlock x => some ({ s with mt := none }.goto t (.insert x))
  | .insert x => some ({ s with items := s.items ++ [x] }.goto t .outside)
  | .pop =>
    match s.items with
    | [] => some (s.goto t .outside)
    | x :: rest => some ({ s with items := rest }.goto t (.notify x))
  | .notify _ => (s.cv.notifyOne notified).map fun cv => { s with cv }.goto t .outside

/-- A thread outside the queue calls a member that starts at `pc`. -/
def enter (s : State τ α) (t : τ) (pc : Pc α) : Option (State τ α) :=
  match s.pc t with
  | .outside => some (s.goto t pc)
  | _ => none

def next (maxSize : Nat) (spurious : Bool) (s : State τ α) :
    Action τ α → Option (State τ α)
  | .push t x => enter s t (.checkSize x)
  | .tryPop t => enter s t .pop
  | .step t notified => threadStep maxSize s t notified
  | .wake t => if spurious then (s.cv.wake t).map fun cv => { s with cv } else none

end Steps

/-- Any number of threads around a queue for `maxSize` items. -/
def machine (τ α : Type) [DecidableEq τ] (maxSize : Nat) (spurious : Bool) :
    Machine (State τ α) (Action τ α) where
  init s := s = State.make τ α
  next := next maxSize spurious

variable {τ α : Type} [DecidableEq τ]

/-! ### What a step can do -/

/-- A step that touches neither the items nor the condition variable. -/
def Pc.quiet : Pc α → Bool
  | .outside | .checkSize _ | .lock _ | .unlock _ | .insert _ | .pop => true
  | _ => false

theorem Pc.ne_waiting_of_quiet {pc : Pc α} (h : pc.quiet = true) (x : α) : pc ≠ .waiting x := by
  intro hpc
  rw [hpc] at h
  cases h

theorem Pc.ne_notify_of_quiet {pc : Pc α} (h : pc.quiet = true) (x : α) : pc ≠ .notify x := by
  intro hpc
  rw [hpc] at h
  cases h

/-- The steps of the threads, as far as the items and the condition variable see
them. -/
inductive Step (maxSize : Nat) (spurious : Bool) (s : State τ α) : Action τ α → State τ α → Prop
  | goOn {a t pc mt} (hpc : (s.pc t).quiet = true) (hpc' : pc.quiet = true ∨ ∃ x, pc = .block x) :
      Step maxSize spurious s a ({ s with mt := mt }.goto t pc)
  | block {t x cv n} (hpc : s.pc t = .block x) (hcv : s.cv.block t = some cv) :
      Step maxSize spurious s (.step t n) ({ s with mt := none, cv := cv }.goto t (.waiting x))
  | resume {t x cv n} (hpc : s.pc t = .waiting x) (hcv : s.cv.resume t = some cv) :
      Step maxSize spurious s (.step t n) ({ s with mt := some t, cv := cv }.goto t (.unlock x))
  | insert {t x n} (hpc : s.pc t = .insert x) :
      Step maxSize spurious s (.step t n) ({ s with items := s.items ++ [x] }.goto t .outside)
  | pop {t x rest n} (hpc : s.pc t = .pop) (hitems : s.items = x :: rest) :
      Step maxSize spurious s (.step t n) ({ s with items := rest }.goto t (.notify x))
  | notify {t x cv n} (hpc : s.pc t = .notify x) (hcv : s.cv.notifyOne n = some cv) :
      Step maxSize spurious s (.step t n) ({ s with cv := cv }.goto t .outside)
  | wake {t cv} (hspurious : spurious = true) (hcv : s.cv.wake t = some cv) :
      Step maxSize spurious s (.wake t) { s with cv := cv }

variable {maxSize : Nat} {spurious : Bool} {s s' : State τ α}

theorem Step.goto {a : Action τ α} {t : τ} {pc : Pc α} (hpc : (s.pc t).quiet = true)
    (hpc' : pc.quiet = true) : Step maxSize spurious s a (s.goto t pc) :=
  have h : Step maxSize spurious s a ({ s with mt := s.mt }.goto t pc) := .goOn hpc (.inl hpc')
  h

theorem enter_step {a : Action τ α} {t : τ} {pc : Pc α} (hpc : pc.quiet = true)
    (h : enter s t pc = some s') : Step maxSize spurious s a s' := by
  unfold enter at h
  split at h
  · next hout =>
    cases h
    exact .goto (by rw [hout]; rfl) hpc
  · cases h

theorem threadStep_step {t : τ} {n : Option τ} (h : threadStep maxSize s t n = some s') :
    Step maxSize spurious s (.step t n) s' := by
  unfold threadStep at h
  split at h
  · cases h
  · next x hpc =>
    cases h
    refine .goto (by rw [hpc]; rfl) ?_
    split <;> rfl
  · next x hpc =>
    split at h
    · cases h
      exact .goOn (by rw [hpc]; rfl) (.inr ⟨x, rfl⟩)
    · cases h
  · next x hpc =>
    obtain ⟨cv, hcv, rfl⟩ := Option.map_eq_some_iff.mp h
    exact .block hpc hcv
  · next x hpc =>
    split at h
    · obtain ⟨cv, hcv, rfl⟩ := Option.map_eq_some_iff.mp h
      exact .resume hpc hcv
    · cases h
  · next x hpc =>
    cases h
    exact .goOn (by rw [hpc]; rfl) (.inl rfl)
  · next x hpc => cases h; exact .insert hpc
  · next hpc =>
    split at h
    · cases h
      exact .goto (by rw [hpc]; rfl) rfl
    · next x rest hitems => cases h; exact .pop hpc hitems
  · next x hpc =>
    obtain ⟨cv, hcv, rfl⟩ := Option.map_eq_some_iff.mp h
    exact .notify hpc hcv

/-- **Every step of the code is in the list.** -/
theorem next_step {a : Action τ α} (h : next maxSize spurious s a = some s') :
    Step maxSize spurious s a s' := by
  cases a with
  | push t x => exact enter_step rfl h
  | tryPop t => exact enter_step rfl h
  | step t n => exact threadStep_step h
  | wake t =>
    dsimp only [next] at h
    split at h
    · next hspurious =>
      obtain ⟨cv, hcv, rfl⟩ := Option.map_eq_some_iff.mp h
      exact .wake hspurious hcv
    · cases h

@[simp] theorem goto_self (t : τ) (pc : Pc α) : (s.goto t pc).pc t = pc := by
  simp [State.goto]

theorem goto_ne {t u : τ} (pc : Pc α) (h : u ≠ t) : (s.goto t pc).pc u = s.pc u := by
  simp [State.goto, h]

@[simp] theorem goto_items (t : τ) (pc : Pc α) : (s.goto t pc).items = s.items := rfl

@[simp] theorem goto_cv (t : τ) (pc : Pc α) : (s.goto t pc).cv = s.cv := rfl

end Garbage.BoundedConcurrentQueue
