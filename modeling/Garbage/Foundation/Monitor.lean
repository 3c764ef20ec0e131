import Mathlib.Logic.Function.Basic
import Garbage.Foundation.Machine

/-!
# Monitors

The members of a monitor run under one lock.  `Monitor` says where a member
begins, what a thread at a place inside does next with the data, and how the
data may change from outside, without the lock.  A step inside ends at a further
place or with the result of the call, and the thread then releases the lock.

`machine` lets any number of threads call members.  Only the holder of the lock
is inside (`Exclusive`), so what a member keeps needs no other thread:
`Invariant.next` takes a property of the data and of the place of the holder
through every step.
-/

namespace Garbage.Foundation

/-- An object whose members `μ` run under one lock: its data `δ`, the places `κ`
inside the members and their results `ρ`.  A step inside may depend on a choice
`ι`, and `ε` are the steps from outside. -/
structure Monitor (δ μ κ ρ ι ε : Type) where
  make : δ
  first : μ → κ
  inside : δ → κ → ι → Option (δ × (κ ⊕ ρ))
  outside : δ → ε → Option δ

namespace Monitor

inductive Call (μ κ ρ : Type)
  | outside
  /-- has called a member and waits for the lock -/
  | enter (m : μ)
  | inside (k : κ)
  /-- has its result, about to release the lock -/
  | leave (r : ρ)

/-- Whether the thread has the lock. -/
def Call.holds {μ κ ρ : Type} : Call μ κ ρ → Bool
  | .inside _ | .leave _ => true
  | _ => false

def Call.place {μ κ ρ : Type} : Call μ κ ρ → Option κ
  | .inside k => some k
  | _ => none

/-- The data, the lock, the threads, and the result of the last call of each. -/
structure State (τ δ μ κ ρ : Type) where
  data : δ
  lock : Option τ
  calls : τ → Call μ κ ρ
  results : τ → Option ρ

/-- A thread calls a member, or takes its next step, or the data change from
outside. -/
inductive Action (τ μ ι ε : Type)
  | call (t : τ) (m : μ)
  | step (t : τ) (choice : ι)
  | other (e : ε)

section Steps

variable {τ δ μ κ ρ ι ε : Type} (M : Monitor δ μ κ ρ ι ε)

def State.init : State τ δ μ κ ρ where
  data := M.make
  lock := none
  calls _ := .outside
  results _ := none

/-- The place of the holder of the lock. -/
def State.place (s : State τ δ μ κ ρ) : Option κ := s.lock.bind fun t => (s.calls t).place

variable [DecidableEq τ]

def State.goto (s : State τ δ μ κ ρ) (t : τ) (c : Call μ κ ρ) : State τ δ μ κ ρ :=
  { s with calls := Function.update s.calls t c }

def next (s : State τ δ μ κ ρ) : Action τ μ ι ε → Option (State τ δ μ κ ρ)
  | .call t m =>
    match s.calls t with
    | .outside => some (s.goto t (.enter m))
    | _ => none
  | .step t choice =>
    match s.calls t with
    | .outside => none
    | .enter m =>
      match s.lock with
      | none => some ({ s with lock := some t }.goto t (.inside (M.first m)))
      | some _ => none
    | .inside k =>
      match M.inside s.data k choice with
      | none => none
      | some (d, .inl k') => some ({ s with data := d }.goto t (.inside k'))
      | some (d, .inr r) => some ({ s with data := d }.goto t (.leave r))
    | .leave r =>
      some ({ s with
        lock := none, results := Function.update s.results t (some r) }.goto t .outside)
  | .other e => (M.outside s.data e).map fun d => { s with data := d }

end Steps

/-- Any number of threads around a monitor. -/
def machine {δ μ κ ρ ι ε : Type} (τ : Type) [DecidableEq τ] (M : Monitor δ μ κ ρ ι ε) :
    Machine (State τ δ μ κ ρ) (Action τ μ ι ε) where
  init s := s = State.init M
  next := next M

variable {τ δ μ κ ρ ι ε : Type} {M : Monitor δ μ κ ρ ι ε} {s s' : State τ δ μ κ ρ}

/-- Only the holder of the lock is inside. -/
def Exclusive (s : State τ δ μ κ ρ) : Prop := ∀ t, (s.calls t).holds = true → s.lock = some t

theorem exclusive_init : Exclusive (State.init M : State τ δ μ κ ρ) := fun _ h => nomatch h

theorem Exclusive.eq {t u : τ} (h : Exclusive s) (ht : (s.calls t).holds = true)
    (hu : (s.calls u).holds = true) : t = u :=
  Option.some.inj ((h t ht).symm.trans (h u hu))

theorem Exclusive.place {t : τ} {k : κ} (h : Exclusive s) (ht : s.calls t = .inside k) :
    s.place = some k := by
  rw [State.place, h t (by rw [ht]; rfl), Option.bind_some, ht]
  rfl

theorem place_of_lock {t : τ} (h : s.lock = some t) : s.place = (s.calls t).place := by
  rw [State.place, h, Option.bind_some]

variable [DecidableEq τ]

@[simp] theorem goto_self (t : τ) (c : Call μ κ ρ) : (s.goto t c).calls t = c :=
  Function.update_self ..

theorem goto_ne {t u : τ} (c : Call μ κ ρ) (h : u ≠ t) : (s.goto t c).calls u = s.calls u :=
  Function.update_of_ne h ..

@[simp] theorem goto_data (t : τ) (c : Call μ κ ρ) : (s.goto t c).data = s.data := rfl

@[simp] theorem goto_lock (t : τ) (c : Call μ κ ρ) : (s.goto t c).lock = s.lock := rfl

/-! ### What a step can do -/

/-- The steps of the threads and of the outside. -/
inductive Step (M : Monitor δ μ κ ρ ι ε) (s : State τ δ μ κ ρ) :
    Action τ μ ι ε → State τ δ μ κ ρ → Prop
  | call {t m} (ht : s.calls t = .outside) : Step M s (.call t m) (s.goto t (.enter m))
  | enter {t m i} (ht : s.calls t = .enter m) (hlock : s.lock = none) :
      Step M s (.step t i) ({ s with lock := some t }.goto t (.inside (M.first m)))
  | goOn {t k i d k'} (ht : s.calls t = .inside k) (hk : M.inside s.data k i = some (d, .inl k')) :
      Step M s (.step t i) ({ s with data := d }.goto t (.inside k'))
  | finish {t k i d r} (ht : s.calls t = .inside k) (hk : M.inside s.data k i = some (d, .inr r)) :
      Step M s (.step t i) ({ s with data := d }.goto t (.leave r))
  | leave {t r i} (ht : s.calls t = .leave r) : Step M s (.step t i)
      ({ s with lock := none, results := Function.update s.results t (some r) }.goto t .outside)
  | other {e d} (he : M.outside s.data e = some d) : Step M s (.other e) { s with data := d }

/-- **Every step of the machine is in the list.** -/
theorem next_step {a : Action τ μ ι ε} (h : next M s a = some s') : Step M s a s' := by
  cases a with
  | call t m =>
    dsimp only [next] at h
    split at h
    · next ht => cases h; exact .call ht
    · cases h
  | step t i =>
    dsimp only [next] at h
    split at h
    · cases h
    · next m ht =>
      split at h
      · next hlock => cases h; exact .enter ht hlock
      · cases h
    · next k ht =>
      split at h
      · cases h
      · next d k' hk => cases h; exact .goOn ht hk
      · next d r hk => cases h; exact .finish ht hk
    · next r ht => cases h; exact .leave ht
  | other e =>
    obtain ⟨d, hd, rfl⟩ := Option.map_eq_some_iff.mp h
    exact .other hd

/-- The lock is kept by the steps of its holder. -/
theorem Exclusive.goto {t : τ} {c : Call μ κ ρ} (h : Exclusive s)
    (hc : c.holds = true → (s.calls t).holds = true) : Exclusive (s.goto t c) := by
  intro u hu
  by_cases hut : u = t
  · rw [hut, goto_self] at hu
    exact hut ▸ h t (hc hu)
  · rw [goto_ne c hut] at hu
    exact h u hu

theorem Step.exclusive {a : Action τ μ ι ε} (h : Step M s a s') (hs : Exclusive s) :
    Exclusive s' := by
  have hfree : s.lock = none → ∀ u, (s.calls u).holds = true → False := by
    intro hlock u hu
    cases hlock.symm.trans (hs u hu)
  cases h with
  | call ht => exact hs.goto fun h => nomatch h
  | @enter t m i ht hlock =>
    intro u hu
    by_cases hut : u = t
    · rw [hut]
      rfl
    · rw [goto_ne _ hut] at hu
      exact (hfree hlock u hu).elim
  | goOn ht hk =>
    exact Exclusive.goto (s := { s with data := _ }) hs fun _ => by
      dsimp only
      rw [ht]
      rfl
  | finish ht hk =>
    exact Exclusive.goto (s := { s with data := _ }) hs fun _ => by
      dsimp only
      rw [ht]
      rfl
  | @leave t r i ht =>
    intro u hu
    by_cases hut : u = t
    · rw [hut, goto_self] at hu
      cases hu
    · rw [goto_ne _ hut] at hu
      exact absurd (hs.eq hu (by rw [ht]; rfl)) hut
  | other => exact hs

/-! ### Invariants -/

/-- A property of the data and of the place of the holder of the lock. -/
structure Invariant (I : δ → Option κ → Prop) (s : State τ δ μ κ ρ) : Prop where
  exclusive : Exclusive s
  holds : I s.data s.place

omit [DecidableEq τ] in
theorem invariant_init {I : δ → Option κ → Prop} (h : I M.make none) :
    Invariant I (State.init M : State τ δ μ κ ρ) := ⟨exclusive_init, h⟩

/-- A thread without the lock goes on: the place stays. -/
theorem place_goto_ne {t : τ} {c : Call μ κ ρ} (ht : (s.calls t).place = none)
    (hc : c.place = none) : (s.goto t c).place = s.place := by
  cases hlock : s.lock with
  | none => simp only [State.place, goto_lock, hlock, Option.bind_none]
  | some u =>
    rw [place_of_lock hlock, place_of_lock (s := s.goto t c) hlock]
    by_cases hut : u = t
    · rw [hut, goto_self, ht, hc]
    · rw [goto_ne c hut]

/-- **The invariant rule of a monitor.**  What holds when nobody is inside holds
where a member begins, and the steps of one thread inside and the steps from
outside keep it. -/
theorem Invariant.next {I : δ → Option κ → Prop} {a : Action τ μ ι ε} (hs : Invariant I s)
    (hn : next M s a = some s') (henter : ∀ m, I s.data none → I s.data (some (M.first m)))
    (hinside : ∀ t i k d n, a = .step t i → s.calls t = .inside k → I s.data (some k) →
      M.inside s.data k i = some (d, n) → I d n.getLeft?)
    (houtside : ∀ e d, a = .other e → M.outside s.data e = some d → I d s.place) :
    Invariant I s' := by
  have hstep := next_step hn
  refine ⟨hstep.exclusive hs.exclusive, ?_⟩
  have hholds := hs.holds
  cases hstep with
  | call ht =>
    rw [place_goto_ne (by rw [ht]; rfl) rfl]
    exact hholds
  | enter ht hlock =>
    rw [State.place, hlock] at hholds
    rw [place_of_lock (goto_lock ..), goto_self]
    exact henter _ hholds
  | goOn ht hk =>
    have hlock := hs.exclusive _ (show (s.calls _).holds = true by rw [ht]; rfl)
    rw [hs.exclusive.place ht] at hholds
    rw [place_of_lock (by exact hlock), goto_self]
    exact hinside _ _ _ _ _ rfl ht hholds hk
  | finish ht hk =>
    have hlock := hs.exclusive _ (show (s.calls _).holds = true by rw [ht]; rfl)
    rw [hs.exclusive.place ht] at hholds
    rw [place_of_lock (by exact hlock), goto_self]
    exact hinside _ _ _ _ _ rfl ht hholds hk
  | leave ht =>
    have hlock := hs.exclusive _ (show (s.calls _).holds = true by rw [ht]; rfl)
    rw [place_of_lock hlock, ht] at hholds
    exact hholds
  | other he => exact houtside _ _ rfl he

end Monitor

end Garbage.Foundation
