import Mathlib.Tactic.Push
import Garbage.LongRunning.OneWorker

/-!
# Stops behind a waiter

`WaitForStopNoThrow` keeps `SyncRoot` while it waits for the worker, and every
stop needs `SyncRoot` to cancel the token.  If the body ends only when its token
is cancelled, then a wait without limit never ends (`Heeds.waitsFor`), and a stop
that comes after it cancels nothing.  A stop is never blocked like this exactly
as long as none is called during such a wait, and no such wait begins while one
is called.
-/

namespace Garbage.LongRunning.LongRunningTask

open Foundation (Machine Monitor)

/-- The members that go through `InternalStop`. -/
def Member.stops : Member → Bool
  | .stop | .stopNoThrow | .dispose => true
  | _ => false

variable {τ : Type}

/-- `t` waits for the worker `w` in `WaitForStopNoThrow`, without limit. -/
def WaitsFor (s : State τ) (t : τ) (w : Nat) : Prop :=
  s.calls t = .inside (.waitForStop none w)

/-- `u` has called a member that stops the worker, and waits for `SyncRoot`. -/
def CallsStop (s : State τ) (u : τ) : Prop := ∃ m : Member, m.stops = true ∧ s.calls u = .enter m

variable [DecidableEq τ]

/-- A thread waits for the worker, another has called a stop, and no steps lead to
the cancellation of the token of the worker. -/
def StopBlocked (stopTimeout : Option Nat) (s : State τ) : Prop :=
  ∃ t w u, u ≠ t ∧ WaitsFor s t w ∧ CallsStop s u ∧
    ∀ as s', (machine τ stopTimeout true).run s as = some s' → s'.data.cancelled w = false

omit [DecidableEq τ] in
/-- No stop is called while a thread waits without limit for the worker, and no
such wait begins while a stop is called. -/
def Apart (s : State τ) : Action τ → Prop
  | .call u m => s.calls u = .outside → m.stops = true → ∀ t w, ¬ WaitsFor s t w
  | .step t _ => s.calls t = .inside (.readWorker none) → s.data.workerTask ≠ none →
    ∀ u, ¬ CallsStop s u
  | .other _ => True

/-! ### Bodies that heed their token -/

/-- The worker that is started and not assigned yet. -/
def Place.starting : Place → Option Nat
  | assignWorker w => some w
  | _ => none

/-- The places that know more about a worker. -/
def Place.watched : Place → Bool
  | startTask _ | assignWorker _ | waitForStop _ _ => true
  | _ => false

/-- The worker in `_workerTask` lives, and its token is not cancelled. -/
structure Heeds (f : Fields) (place : Option Place) : Prop extends Sound f place where
  live : ∀ w, f.workerTask = some w ∨ place.bind Place.starting = some w →
    f.Live w ∧ f.cancelled w = false
  fresh : ∀ w, place = some (.startTask w) → f.cancelled w = false
  waited : ∀ timeout w, place = some (.waitForStop timeout w) → f.workerTask = some w

theorem heeds_make : Heeds .make none where
  toSound := sound_make
  live _ h := h.elim (fun h => nomatch h) (fun h => nomatch h)
  fresh _ h := nomatch h
  waited _ _ h := nomatch h

namespace Heeds

variable {f : Fields} {p : Place} {q : Option Place}

/-- Where the place says nothing, the worker in `_workerTask` is all. -/
theorem unwatched (hs : Sound f q) (hq : ∀ p, q = some p → p.watched = false)
    (hlive : ∀ w, f.workerTask = some w → f.Live w ∧ f.cancelled w = false) : Heeds f q where
  toSound := hs
  live w hw := by
    rcases hw with hw | hw
    · exact hlive w hw
    · obtain ⟨p, rfl, hp⟩ := Option.bind_eq_some_iff.mp hw
      cases p <;> first | (cases hp; done) | cases hq _ rfl
  fresh w hw := nomatch hq _ hw
  waited timeout w hw := nomatch hq _ hw

theorem unwatched_afterStop {m : Member} {error : Option Error} {p : Place}
    (h : (m.afterStop error).getLeft? = some p) : p.watched = false := by
  cases m <;> cases h
  rfl

theorem first {m : Member} (hs : Heeds f none) : Heeds f (some (.checkDisposed m)) where
  toSound := hs.toSound.first
  live := hs.live
  fresh _ h := nomatch h
  waited _ _ h := nomatch h

theorem step {stopTimeout : Option Nat} {fails : Bool} {f' : Fields} {n : Next}
    (hs : Heeds f (some p)) (hn : step stopTimeout f p fails = some (f', n)) :
    Heeds f' n.getLeft? := by
  have hsound := hs.toSound.step hn
  have hlive : ∀ w, f.workerTask = some w → f.Live w ∧ f.cancelled w = false :=
    fun w hw => hs.live w (.inl hw)
  -- where the field is null, nothing is left to say
  have free : ∀ {f' : Fields}, p.workerless = true → f'.workerTask = f.workerTask →
      ∀ w, f'.workerTask = some w → f'.Live w ∧ f'.cancelled w = false := by
    intro f' hp hsame w hw
    cases (hs.workerless p rfl hp).symm.trans (hsame.symm.trans hw)
  cases step_cases hn with
  | disposed m | alreadyStarted | noWorker | waitForStop =>
    exact unwatched hsound (fun _ h => nomatch h) hlive
  | enter m =>
    refine unwatched hsound (fun p hp => ?_) hlive
    cases m <;> cases hp <;> rfl
  | checkWorker | callbacks | completed | timeOver =>
    exact unwatched hsound (fun _ h => by cases h; rfl) hlive
  | newSource =>
    refine ⟨hsound, fun w hw => ?_, fun w hw => ?_, fun _ _ h => nomatch h⟩
    · rcases hw with hw | hw
      · refine free ?_ ?_ w hw <;> rfl
      · cases hw
    · cases hw
      exact Function.update_self ..
  | notStarted w => exact unwatched hsound (fun _ h => nomatch h) (free rfl rfl)
  | startTask w =>
    refine ⟨hsound, fun v hv => ?_, fun _ h => (by cases h), fun _ _ h => (by cases h)⟩
    rcases hv with hv | hv
    · refine free ?_ ?_ v hv <;> rfl
    · cases hv
      exact ⟨.inl (Fields.setTask_self ..), hs.fresh w rfl⟩
  | assignWorker w =>
    refine unwatched hsound (fun _ h => nomatch h) fun v hv => ?_
    cases hv
    exact hs.live w (.inr rfl)
  | takeWorker m w hw =>
    exact unwatched hsound (fun _ h => by cases h; rfl) fun _ h => nomatch h
  | notRunning | nullReference | objectDisposed | callbackFailed | disposeTask =>
    exact unwatched hsound (fun _ h => unwatched_afterStop h) hlive
  | cancel m w c hc => exact unwatched hsound (fun _ h => by cases h; rfl) (free rfl rfl)
  | disposeSource => exact unwatched hsound (fun _ h => nomatch h) hlive
  | readWorker timeout w hw =>
    refine ⟨hsound, fun v hv => ?_, fun _ h => (by cases h), fun _ v h => ?_⟩
    · rcases hv with hv | hv
      · exact hlive v hv
      · cases hv
    · cases h
      exact hw

/-- The step lemma of the workers: a body ends only when its token is cancelled. -/
theorem workerStep {e : WorkerStep} {f' : Fields} (hs : Heeds f q)
    (hn : workerStep true f e = some f') : Heeds f' q := by
  have hsound := hs.toSound.workerStep hn
  cases e with
  | run w =>
    dsimp only [LongRunningTask.workerStep] at hn
    split at hn <;> cases hn
    refine ⟨hsound, fun v hv => ⟨?_, (hs.live v hv).2⟩, hs.fresh, hs.waited⟩
    obtain ⟨hlive, hcancelled⟩ := hs.live v hv
    by_cases hvw : v = w
    · subst hvw
      refine .inr ((Fields.setTask_self ..).trans ?_)
      rw [hcancelled]
      rfl
    · rw [Fields.Live, Fields.setTask_ne f _ hvw]
      exact hlive
  | complete w outcome =>
    dsimp only [LongRunningTask.workerStep] at hn
    split at hn
    · split at hn <;> cases hn
      next hends =>
      refine ⟨hsound, fun v hv => ⟨?_, (hs.live v hv).2⟩, hs.fresh, hs.waited⟩
      obtain ⟨hlive, hcancelled⟩ := hs.live v hv
      have hvw : v ≠ w := by
        rintro rfl
        exact hends ⟨rfl, by simp [hcancelled]⟩
      rw [Fields.Live, Fields.setTask_ne f _ hvw]
      exact hlive
    · cases hn

end Heeds

variable {stopTimeout : Option Nat} {s s' : State τ} {a : Action τ}

theorem next_heeds (hs : Monitor.Invariant Heeds s)
    (hn : (machine τ stopTimeout true).next s a = some s') : Monitor.Invariant Heeds s' := by
  apply hs.next hn
  · exact fun m hf => hf.first
  · exact fun t fails p f n _ _ hf hstep => hf.step hstep
  · exact fun e f _ hf => hs.holds.workerStep hf

/-! ### The wait that never ends -/

omit [DecidableEq τ] in
/-- The worker that a thread waits for lives, and its token is not cancelled. -/
theorem live_of_waitsFor {t : τ} {w : Nat} (hs : Monitor.Invariant Heeds s)
    (ht : WaitsFor s t w) : s.data.Live w ∧ s.data.cancelled w = false := by
  have hheeds := hs.holds
  rw [hs.exclusive.place ht] at hheeds
  exact hheeds.live w (.inl (hheeds.waited none w rfl))

theorem next_waitsFor {t : τ} {w : Nat} (hs : Monitor.Invariant Heeds s)
    (ht : WaitsFor s t w) (hn : (machine τ stopTimeout true).next s a = some s') :
    WaitsFor s' t w := by
  have hother : ∀ {u c}, s.calls u ≠ .inside (.waitForStop none w) →
      Function.update s.calls u c t = .inside (.waitForStop none w) := by
    intro u c hu
    have htu : t ≠ u := by
      rintro rfl
      exact hu ht
    rw [Function.update_of_ne htu]
    exact ht
  have hstay : ∀ {u k i d n}, s.calls u = .inside k →
      LongRunningTask.step stopTimeout s.data k i = some (d, n) →
      s.calls u ≠ .inside (.waitForStop none w) := by
    intro u k i d n hu hk hwaits
    cases hu.symm.trans hwaits
    have hlive := (live_of_waitsFor hs hwaits).1
    have hcompleted : (s.data.tasks w).isCompleted = false := by
      rcases hlive with h | h <;> rw [h] <;> rfl
    simp [LongRunningTask.step, hcompleted] at hk
  cases Monitor.next_step hn with
  | call hu => exact hother (by rw [hu]; nofun)
  | enter hu => exact hother (by rw [hu]; nofun)
  | goOn hu hk => exact hother (hstay hu hk)
  | finish hu hk => exact hother (hstay hu hk)
  | leave hu => exact hother (by rw [hu]; nofun)
  | other => exact ht

/-- **A wait without limit never ends, and nothing cancels the token.** -/
theorem never_cancelled {t : τ} {w : Nat} {as : List (Action τ)} : ∀ {s s' : State τ},
    Monitor.Invariant Heeds s → WaitsFor s t w →
    (machine τ stopTimeout true).run s as = some s' → s'.data.cancelled w = false := by
  induction as with
  | nil =>
    intro s s' hs ht hrun
    cases hrun
    exact (live_of_waitsFor hs ht).2
  | cons a as ih =>
    intro s s' hs ht hrun
    obtain ⟨m, hm, hrun⟩ := Option.bind_eq_some_iff.mp hrun
    exact ih (next_heeds hs hm) (next_waitsFor hs ht hm) hrun

theorem stopBlocked_of_waitsFor {t u : τ} {w : Nat} (hs : Monitor.Invariant Heeds s)
    (ht : WaitsFor s t w) (hu : CallsStop s u) : StopBlocked stopTimeout s := by
  refine ⟨t, w, u, ?_, ht, hu, fun as s' hrun => never_cancelled hs ht hrun⟩
  rintro rfl
  obtain ⟨m, -, hm⟩ := hu
  cases hm.symm.trans ht

/-! ### Stops and waits -/

/-- The good states: no stop is called while a thread waits without limit. -/
structure Clear (s : State τ) : Prop where
  heeds : Monitor.Invariant Heeds s
  apart : ∀ t w u, WaitsFor s t w → ¬ CallsStop s u

theorem afterStop_ne_waitForStop {m : Member} {error : Option Error} {w : Nat} :
    m.afterStop error ≠ .inl (.waitForStop none w) := by
  cases m <;> nofun

/-- Only a thread that has found a worker comes to wait for it. -/
theorem readWorker_of_step {fails : Bool} {f f' : Fields} {p : Place} {w : Nat}
    (hn : step stopTimeout f p fails = some (f', .inl (.waitForStop none w))) :
    p = .readWorker none ∧ f.workerTask = some w := by
  generalize hnext : (.inl (.waitForStop none w) : Next) = n at hn
  cases step_cases hn with
  | readWorker timeout v hw =>
    cases hnext
    exact ⟨rfl, hw⟩
  | enter m => cases m <;> cases hnext
  | notRunning | nullReference | objectDisposed | callbackFailed | disposeTask =>
    exact absurd hnext.symm afterStop_ne_waitForStop
  | _ => cases hnext

theorem next_clear (hs : Clear s) (hapart : Apart s a)
    (hn : (machine τ stopTimeout true).next s a = some s') : Clear s' := by
  refine ⟨next_heeds hs.heeds hn, ?_⟩
  rintro t w u ht ⟨m, hm, hu⟩
  -- a thread that has just moved, and one that has not
  have stays : ∀ {v : τ} {c : Monitor.Call Member Place (Option Error)}
      {d : Monitor.Call Member Place (Option Error)} {r : τ}, Function.update s.calls v c r = d →
      c ≠ d → s.calls r = d := by
    intro v c d r hr hc
    by_cases hrv : r = v
    · subst hrv
      rw [Function.update_self] at hr
      exact absurd hr hc
    · rwa [Function.update_of_ne hrv] at hr
  cases Monitor.next_step hn with
  | @call v m' hv =>
    have ht' := stays ht nofun
    by_cases huv : u = v
    · subst huv
      cases (Function.update_self ..).symm.trans hu
      exact hapart hv hm t w ht'
    · exact hs.apart t w u ht' ⟨m, hm, (Function.update_of_ne huv ..).symm.trans hu⟩
  | enter hv hlock => exact hs.apart t w u (stays ht nofun) ⟨m, hm, stays hu nofun⟩
  | @goOn v k i d k' hv hk =>
    have hu' : CallsStop s u := ⟨m, hm, stays hu nofun⟩
    by_cases htv : t = v
    · subst htv
      cases (Function.update_self ..).symm.trans ht
      obtain ⟨rfl, hworker⟩ := readWorker_of_step hk
      exact hapart hv (by rw [hworker]; nofun) u hu'
    · exact hs.apart t w u ((Function.update_of_ne htv ..).symm.trans ht) hu'
  | finish hv hk => exact hs.apart t w u (stays ht nofun) ⟨m, hm, stays hu nofun⟩
  | leave hv => exact hs.apart t w u (stays ht nofun) ⟨m, hm, stays hu nofun⟩
  | other => exact hs.apart t w u ht ⟨m, hm, hu⟩

/-- A stop that is called behind a waiter, or a wait that begins before a stop. -/
theorem stopBlocked_of_not_apart (stopTimeout : Option Nat) (hs : Clear s) (hapart : ¬ Apart s a) :
    ∃ s', (machine τ stopTimeout true).next s a = some s' ∧ StopBlocked stopTimeout s' := by
  match a with
  | .other _ => exact absurd trivial hapart
  | .call u m =>
    simp only [Apart] at hapart
    push Not at hapart
    obtain ⟨hu, hm, t, w, ht⟩ := hapart
    have htu : t ≠ u := by
      rintro rfl
      cases hu.symm.trans ht
    have hn : (machine τ stopTimeout true).next s (.call u m) = some (s.goto u (.enter m)) := by
      simp only [machine, Monitor.machine, Monitor.next, hu]
    have hheeds := next_heeds hs.heeds hn
    refine ⟨_, hn, stopBlocked_of_waitsFor (t := t) (u := u) (w := w) hheeds ?_ ?_⟩
    · exact (Monitor.goto_ne _ htu).trans ht
    · exact ⟨m, hm, Monitor.goto_self ..⟩
  | .step t i =>
    simp only [Apart] at hapart
    push Not at hapart
    obtain ⟨ht, hworker, u, m, hm, hu⟩ := hapart
    obtain ⟨w, hw⟩ := Option.ne_none_iff_exists'.mp hworker
    have hut : u ≠ t := by
      rintro rfl
      cases hu.symm.trans ht
    have hn : (machine τ stopTimeout true).next s (.step t i) =
        some (s.goto t (.inside (.waitForStop none w))) := by
      simp only [machine, Monitor.machine, Monitor.next, ht, monitor, step, hw]
    have hheeds := next_heeds hs.heeds hn
    refine ⟨_, hn, stopBlocked_of_waitsFor (t := t) (u := u) (w := w) hheeds ?_ ?_⟩
    · exact Monitor.goto_self ..
    · exact ⟨m, hm, (Monitor.goto_ne _ hut).trans hu⟩

/-- **Stops that reach the worker.**  If the body ends only when its token is
cancelled, then in every run of any number of threads, for every timeout: no stop
is blocked for ever by a waiter exactly if no stop is called while a thread waits
without limit, and no such wait begins while a stop is called. -/
theorem stops_reach_iff_apart (τ : Type) [DecidableEq τ] (stopTimeout : Option Nat)
    (as : List (Action τ)) :
    (machine τ stopTimeout true).AllStates (fun s => ¬ StopBlocked stopTimeout s)
        (State.make τ) as ↔
      (machine τ stopTimeout true).AllSteps Apart (State.make τ) as := by
  apply Machine.allStates_iff_allSteps (I := Clear)
  · rintro s hs ⟨t, w, u, -, ht, hu, -⟩
    exact hs.apart t w u ht hu
  · exact fun s a s' hs hapart hn => next_clear hs hapart hn
  · intro s a hs hapart
    obtain ⟨s', hn, hblocked⟩ := stopBlocked_of_not_apart stopTimeout hs hapart
    exact ⟨s', hn, not_not.mpr hblocked⟩
  · exact ⟨Monitor.invariant_init (M := monitor stopTimeout true) heeds_make,
      fun _ _ _ ht => nomatch ht⟩

/-- A thread waits for the worker, and another calls `Stop`. -/
theorem stop_blocked : ¬ ∀ s, (machine Nat none true).Reachable s → ¬ StopBlocked none s := by
  intro h
  let as : List (Action Nat) := .call 0 .start :: List.replicate 7 (.step 0 false) ++
    .call 0 (.waitForStopNoThrow none) :: List.replicate 3 (.step 0 false) ++ [.call 1 .stop]
  have hrun : ∃ s, (machine Nat none true).run (State.make Nat) as = some s ∧ WaitsFor s 0 0 ∧
      CallsStop s 1 := ⟨_, rfl, rfl, .stop, rfl, rfl⟩
  obtain ⟨s, hs, ht, hu⟩ := hrun
  have hreach : (machine Nat none true).Reachable s := Machine.Reachable.run (.init rfl) hs
  have hheeds : Monitor.Invariant Heeds s := by
    apply hreach.invariant
    · rintro s rfl
      exact Monitor.invariant_init (M := monitor none true) heeds_make
    · exact fun s a s' hs _ hn => next_heeds hs hn
  exact h s hreach (stopBlocked_of_waitsFor hheeds ht hu)

end Garbage.LongRunning.LongRunningTask
