import Garbage.Foundation.Machine
import Mathlib.Logic.Function.Basic

/-!
# The preparation of a content

`ContentPreparation` reads the volatile flag `_callOnceFlag` and returns if it is
set.  Else it takes the lock, runs `CallOnceContentPreparation`, sets the flag and
releases the lock.  It does not read the flag again under the lock.  Any number
of threads call it on one provider, and each of these is a step.

`completions` counts how often `CallOnceContentPreparation` has completed.  A
call that returns does so after a completion.  There is one completion as long
as nobody takes the lock after the flag was set (`prepares_once`).
-/

namespace Garbage.ContentManager.ContentProviderBase

open Foundation (Machine)

variable {τ : Type}

/-- Where a thread stands in `ContentPreparation`. -/
inductive Place
  | outside
  | readFlag
  | enterLock
  | callOnceContentPreparation
  | setFlag
  | exitLock (threw : Bool)
  deriving DecidableEq

def Place.holds : Place → Bool
  | callOnceContentPreparation => true
  | setFlag => true
  | exitLock _ => true
  | _ => false

structure State (τ : Type) where
  callOnceFlag : Bool
  syncRoot : Option τ
  place : τ → Place
  /-- the last call of the thread returned, or threw -/
  returned : τ → Option Bool
  completions : Nat

inductive Action (τ : Type)
  | call (t : τ)
  | step (t : τ)
  | throws (t : τ)

section Steps

variable [DecidableEq τ]

def State.goto (s : State τ) (t : τ) (p : Place) : State τ :=
  { s with place := Function.update s.place t p }

def State.finish (s : State τ) (t : τ) (returned : Bool) : State τ :=
  { s with place := Function.update s.place t .outside
           returned := Function.update s.returned t (some returned) }

def next (s : State τ) : Action τ → Option (State τ)
  | .call t =>
    match s.place t with
    | .outside => some (s.goto t .readFlag)
    | _ => none
  | .step t =>
    match s.place t with
    | .outside => none
    | .readFlag => if s.callOnceFlag then some (s.finish t true) else some (s.goto t .enterLock)
    | .enterLock =>
      match s.syncRoot with
      | none => some ({ s with syncRoot := some t }.goto t .callOnceContentPreparation)
      | some _ => none
    | .callOnceContentPreparation =>
      some ({ s with completions := s.completions + 1 }.goto t .setFlag)
    | .setFlag => some ({ s with callOnceFlag := true }.goto t (.exitLock false))
    | .exitLock threw => some ({ s with syncRoot := none }.finish t !threw)
  | .throws t =>
    match s.place t with
    | .callOnceContentPreparation => some (s.goto t (.exitLock true))
    | _ => none

end Steps

/-- Any number of threads on one provider. -/
def machine (τ : Type) [DecidableEq τ] : Machine (State τ) (Action τ) where
  init s := s = { callOnceFlag := false, syncRoot := none, place := fun _ => .outside,
                  returned := fun _ => none, completions := 0 }
  next := next

/-- Nobody takes the lock after the flag was set. -/
def InTime (s : State τ) : Action τ → Prop
  | .step t => s.place t = .enterLock → s.callOnceFlag = false
  | _ => True

instance (s : State τ) : DecidablePred (InTime s)
  | .step t => inferInstanceAs (Decidable (s.place t = .enterLock → s.callOnceFlag = false))
  | .call _ => isTrue trivial
  | .throws _ => isTrue trivial

/-! ### What a step can do -/

variable [DecidableEq τ] {s s' : State τ}

@[grind =] theorem place_goto (t u : τ) (p : Place) :
    (s.goto t p).place u = if u = t then p else s.place u := by
  unfold State.goto
  exact Function.update_apply ..

@[grind =] theorem place_finish (t u : τ) (r : Bool) :
    (s.finish t r).place u = if u = t then .outside else s.place u := by
  unfold State.finish
  exact Function.update_apply ..

@[grind =] theorem returned_finish (t u : τ) (r : Bool) :
    (s.finish t r).returned u = if u = t then some r else s.returned u := by
  unfold State.finish
  exact Function.update_apply ..

@[simp, grind =] theorem returned_goto (t u : τ) (p : Place) :
    (s.goto t p).returned u = s.returned u := rfl

@[simp, grind =] theorem completions_goto (t : τ) (p : Place) :
    (s.goto t p).completions = s.completions := rfl

@[simp, grind =] theorem completions_finish (t : τ) (r : Bool) :
    (s.finish t r).completions = s.completions := rfl

@[simp, grind =] theorem callOnceFlag_goto (t : τ) (p : Place) :
    (s.goto t p).callOnceFlag = s.callOnceFlag := rfl

@[simp, grind =] theorem callOnceFlag_finish (t : τ) (r : Bool) :
    (s.finish t r).callOnceFlag = s.callOnceFlag := rfl

@[simp, grind =] theorem syncRoot_goto (t : τ) (p : Place) :
    (s.goto t p).syncRoot = s.syncRoot := rfl

@[simp, grind =] theorem syncRoot_finish (t : τ) (r : Bool) :
    (s.finish t r).syncRoot = s.syncRoot := rfl

inductive Step (s : State τ) : Action τ → State τ → Prop
  | call {t} (ht : s.place t = .outside) : Step s (.call t) (s.goto t .readFlag)
  | isSet {t} (ht : s.place t = .readFlag) (hf : s.callOnceFlag = true) :
    Step s (.step t) (s.finish t true)
  | isNotSet {t} (ht : s.place t = .readFlag) (hf : s.callOnceFlag = false) :
    Step s (.step t) (s.goto t .enterLock)
  | enter {t} (ht : s.place t = .enterLock) (hlock : s.syncRoot = none) : Step s (.step t)
    ({ s with syncRoot := some t }.goto t .callOnceContentPreparation)
  | complete {t} (ht : s.place t = .callOnceContentPreparation) : Step s (.step t)
    ({ s with completions := s.completions + 1 }.goto t .setFlag)
  | set {t} (ht : s.place t = .setFlag) : Step s (.step t)
    ({ s with callOnceFlag := true }.goto t (.exitLock false))
  | exit {t threw} (ht : s.place t = .exitLock threw) : Step s (.step t)
    ({ s with syncRoot := none }.finish t !threw)
  | throws {t} (ht : s.place t = .callOnceContentPreparation) : Step s (.throws t)
    (s.goto t (.exitLock true))

/-- **Every step of the machine is in the list.** -/
theorem next_step {a : Action τ} (h : next s a = some s') : Step s a s' := by
  cases a with
  | call t =>
    dsimp only [next] at h
    split at h
    · next ht => cases h; exact .call ht
    · cases h
  | step t =>
    dsimp only [next] at h
    split at h
    · cases h
    · next ht =>
      split at h
      · next hf => cases h; exact .isSet ht hf
      · next hf => cases h; exact .isNotSet ht (Bool.eq_false_iff.mpr hf)
    · next ht =>
      split at h
      · next hlock => cases h; exact .enter ht hlock
      · cases h
    · next ht => cases h; exact .complete ht
    · next ht => cases h; exact .set ht
    · next ht => cases h; exact .exit ht
  | throws t =>
    dsimp only [next] at h
    split at h
    · next ht => cases h; exact .throws ht
    · cases h

/-! ### The invariants -/

/-- Only the holder of the lock is behind it. -/
def Exclusive (s : State τ) : Prop := ∀ t, (s.place t).holds = true → s.syncRoot = some t

/-- Who sees that the preparation is done sees it after a completion. -/
structure Prepared (s : State τ) : Prop where
  flag : s.callOnceFlag = true → 1 ≤ s.completions
  setFlag : ∀ t, s.place t = .setFlag → 1 ≤ s.completions
  exitLock : ∀ t, s.place t = .exitLock false → 1 ≤ s.completions
  returned : ∀ t, s.returned t = some true → 1 ≤ s.completions

/-- The preparation runs before the first completion, and the flag is set after it. -/
structure Once (s : State τ) : Prop where
  atMost : s.completions ≤ 1
  before : ∀ t, s.place t = .callOnceContentPreparation → s.completions = 0
  after : s.completions = 0 ∨ s.callOnceFlag = true ∨ ∃ t, s.place t = .setFlag

omit [DecidableEq τ] in
theorem Exclusive.eq {t u : τ} (hs : Exclusive s) (ht : (s.place t).holds = true)
    (hu : (s.place u).holds = true) : t = u :=
  Option.some.inj ((hs t ht).symm.trans (hs u hu))

omit [DecidableEq τ] in
/-- Nobody is behind a free lock. -/
theorem Exclusive.not_holds (hs : Exclusive s) (hlock : s.syncRoot = none) (t : τ) :
    (s.place t).holds ≠ true := by
  intro h
  cases hlock.symm.trans (hs t h)

theorem Step.exclusive {a : Action τ} (h : Step s a s') (hs : Exclusive s) : Exclusive s' := by
  intro u hu
  have hsu := hs u
  cases h with
  | @enter t ht hlock =>
    have hnot := hs.not_holds hlock u
    grind
  | @exit t threw ht =>
    have heq := hs.eq (t := u) (u := t)
    grind [Place.holds]
  | _ => grind [Place.holds]

theorem Step.prepared {a : Action τ} (h : Step s a s') (hs : Prepared s) : Prepared s' := by
  obtain ⟨hflag, hset, hexit, hret⟩ := hs
  cases h with
  | _ => constructor <;> grind

theorem Step.once {a : Action τ} (h : Step s a s') (ha : InTime s a) (hex : Exclusive s)
    (hs : Once s) : Once s' := by
  obtain ⟨hatMost, hbefore, hafter⟩ := hs
  cases h with
  | @enter t ht hlock =>
    have hset : ∀ u, s.place u ≠ .setFlag := fun u hu =>
      hex.not_holds hlock u (by rw [hu]; rfl)
    have hf := ha ht
    constructor <;> grind
  | @complete t ht =>
    have heq := fun u => hex.eq (t := u) (u := t)
    have hzero := hbefore t ht
    refine ⟨?_, ?_, .inr (.inr ⟨t, ?_⟩)⟩ <;> grind [Place.holds]
  | @set t ht => constructor <;> grind
  | _ =>
    -- the thread that will set the flag stays where it is
    refine ⟨by grind, by grind, hafter.imp (by grind) (Or.imp (by grind) ?_)⟩
    intro ⟨u, hu⟩
    exact ⟨u, by grind⟩

/-! ### Runs -/

theorem prepared_of_reachable (hr : (machine τ).Reachable s) : Prepared s := by
  refine hr.invariant (I := Prepared) (fun s h => ?_) fun s a s' hs _ hn => ?_
  · subst h
    exact ⟨nofun, nofun, nofun, nofun⟩
  · exact (next_step hn).prepared hs

/-- While all steps are in time, the preparation completes once. -/
theorem once_of_reachable (hr : (machine τ).ReachableBy InTime s) : Once s := by
  refine (hr.invariant (I := fun s => Exclusive s ∧ Once s) (fun s h => ?_)
    fun s a s' hs ha hn => ?_).2
  · subst h
    exact ⟨nofun, Nat.zero_le 1, nofun, .inl rfl⟩
  · exact ⟨(next_step hn).exclusive hs.1, (next_step hn).once ha hs.1 hs.2⟩

/-- After a step that is not in time, the preparation may complete again. -/
theorem again_of_not_inTime {a : Action τ} (hr : (machine τ).Reachable s) (ha : ¬ InTime s a)
    (hn : next s a = some s') :
    ∃ s'', (machine τ).run s [a, a] = some s'' ∧ 2 ≤ s''.completions := by
  cases a with
  | call t => exact absurd trivial ha
  | throws t => exact absurd trivial ha
  | step t =>
    obtain ⟨ht, hflag⟩ := Classical.not_imp.mp ha
    have hdone : 1 ≤ s.completions :=
      (prepared_of_reachable hr).flag (by simpa using hflag)
    obtain ⟨hplace, hcompletions⟩ : s'.place t = .callOnceContentPreparation ∧
        s'.completions = s.completions := by
      cases next_step hn with
      | enter ht' hlock => exact ⟨by rw [place_goto, if_pos rfl], rfl⟩
      | _ => simp_all
    have hn' : next s' (.step t) =
        some ({ s' with completions := s'.completions + 1 }.goto t .setFlag) := by
      dsimp only [next]
      rw [hplace]
    refine ⟨_, Option.bind_eq_some_iff.mpr ⟨s', hn, Option.bind_eq_some_iff.mpr ⟨_, hn', rfl⟩⟩, ?_⟩
    rw [completions_goto]
    dsimp only
    omega

/-- **The preparation is done once** as long as nobody takes the lock after the
flag was set; as soon as somebody does, it may be done again.  A call that
returns does so after a completion in any case. -/
theorem prepares_once (hr : (machine τ).Reachable s) :
    ((machine τ).ReachableBy InTime s → s.completions ≤ 1) ∧
      (∀ a s', ¬ InTime s a → (machine τ).next s a = some s' →
        ∃ s'', (machine τ).run s [a, a] = some s'' ∧ 2 ≤ s''.completions) ∧
      ∀ t, s.returned t = some true → 1 ≤ s.completions :=
  ⟨fun h => (once_of_reachable h).atMost, fun _ _ ha hn => again_of_not_inTime hr ha hn,
    (prepared_of_reachable hr).returned⟩

/-- The start, with threads that have numbers. -/
def start : State Nat :=
  { callOnceFlag := false, syncRoot := none, place := fun _ => .outside, returned := fun _ => none,
    completions := 0 }

/-- Two threads find the flag unset.  The preparation of the first one throws, the second one
prepares the content, and the first one calls again. -/
def retried : List (Action Nat) :=
  [.call 0, .call 1, .step 0, .step 1, .step 0, .throws 0, .step 0, .step 1, .step 1, .call 0,
    .step 1, .step 0, .step 1]

theorem prepares_once_retried : ∃ s, (machine Nat).run start retried = some s ∧
    s.returned 0 = some true ∧ s.returned 1 = some true ∧ s.completions = 1 := by
  have hrun : (machine Nat).run start retried = some _ := rfl
  have hsteps : (machine Nat).AllSteps InTime start retried := by decide
  have hreach : (machine Nat).ReachableBy InTime _ := .run (.init rfl) hsteps hrun
  obtain ⟨honce, -, hreturned⟩ := prepares_once hreach.reachable
  exact ⟨_, hrun, rfl, rfl, Nat.le_antisymm (honce hreach) (hreturned 0 rfl)⟩

/-- Two threads read the flag before the first of them sets it: both prepare the
content. -/
theorem prepares_twice : ∃ s, (machine Nat).run start
      [.call 0, .call 1, .step 0, .step 1, .step 0, .step 0, .step 0, .step 0, .step 1, .step 1] =
        some s ∧ s.completions = 2 :=
  ⟨_, rfl, rfl⟩

end Garbage.ContentManager.ContentProviderBase
