import Mathlib.Tactic.Push
import Garbage.LongRunning.LongRunningTask

/-!
# At most one worker

A worker that has not completed is the one in `_workerTask`, or the holder of
the lock has it in hand, or `InternalStop` has given it up (`Sound.tracked`): its
wait was over, or a callback of the token has thrown.  `Start` looks at
`_workerTask` only, so it starts a second worker beside one that was given up.
At most one worker runs exactly as long as no worker begins while one that was
given up still runs.

No worker is given up if the waits are not limited and the callbacks return, so such
a task never has two (`atMostOne_of_patient`).
-/

namespace Garbage.LongRunning.LongRunningTask

open Foundation (Machine Monitor)

/-- At most one worker is inside `SchedulingRun`. -/
def Fields.AtMostOne (f : Fields) : Prop :=
  ∀ v w, f.tasks v = .running → f.tasks w = .running → v = w

/-- The worker is started and has not completed. -/
def Fields.Live (f : Fields) (w : Nat) : Prop := f.tasks w = .queued ∨ f.tasks w = .running

namespace Place

/-- The worker that the holder of the lock has in hand. -/
def worker : Place → Option Nat
  | startTask w | assignWorker w | cancel _ w | callbacks _ w | wait _ w => some w
  | _ => none

/-- The worker in hand whose token is cancelled. -/
def stopping : Place → Option Nat
  | callbacks _ w | wait _ w => some w
  | _ => none

/-- The places where `_workerTask` is null. -/
def workerless : Place → Bool
  | newSource | startTask _ | assignWorker _ | cancel _ _ | callbacks _ _ | wait _ _
  | disposeTask _ _ _ | disposeSource => true
  | _ => false

end Place

/-- What holds of the fields and of the place of the holder of the lock. -/
structure Sound (f : Fields) (place : Option Place) : Prop where
  workerless : ∀ p, place = some p → p.workerless = true → f.workerTask = none
  tracked : ∀ w, f.Live w → f.givenUp w = false →
    f.workerTask = some w ∨ place.bind Place.worker = some w
  sourced : ∀ w, f.workerTask = some w ∨ place.bind Place.worker = some w →
    f.cancelSource = some w ∧ f.sourceDisposed w = false
  stopping : ∀ w, place.bind Place.stopping = some w → f.cancelled w = true
  givenUp : ∀ w, f.givenUp w = true → f.cancelled w = true
  made : ∀ w, f.made ≤ w → f.givenUp w = false ∧ f.cancelSource ≠ some w

theorem sound_make : Sound .make none where
  workerless _ h := nomatch h
  tracked _ h := h.elim (fun h => nomatch h) (fun h => nomatch h)
  sourced _ h := h.elim (fun h => nomatch h) (fun h => nomatch h)
  stopping _ h := nomatch h
  givenUp _ h := nomatch h
  made _ _ := ⟨rfl, nofun⟩

theorem Fields.live_setTask {f : Fields} {v w : Nat} {task : TaskState}
    (h : (f.setTask w task).Live v) : f.Live v ∨ v = w ∧ (task = .queued ∨ task = .running) := by
  unfold Fields.Live at h
  by_cases hv : v = w
  · rw [hv, Fields.setTask_self] at h
    exact .inr ⟨hv, h⟩
  · rw [Fields.setTask_ne f task hv] at h
    exact .inl h

theorem Fields.not_live_of_completed {f : Fields} {w : Nat} {outcome : Outcome}
    (h : f.tasks w = .completed outcome) : ¬ f.Live w := by
  rintro (hw | hw) <;> cases h.symm.trans hw

namespace Sound

variable {f : Fields} {p : Place} {q : Option Place}

/-- The holder goes on and keeps the worker it has in hand, if it still lives. -/
theorem goOn (hs : Sound f (some p)) {disposed : Bool}
    (hless : ∀ r, q = some r → r.workerless = true → f.workerTask = none)
    (hkeep : ∀ w, p.worker = some w → f.Live w → q.bind Place.worker = some w)
    (hsame : ∀ w, q.bind Place.worker = some w → p.worker = some w)
    (hstop : ∀ w, q.bind Place.stopping = some w → f.cancelled w = true) :
    Sound { f with disposed } q where
  workerless := hless
  tracked w hw hg := (hs.tracked w hw hg).imp_right fun hp => hkeep w hp hw
  sourced w hw := hs.sourced w (hw.imp_right (hsame w))
  stopping := hstop
  givenUp := hs.givenUp
  made := hs.made

/-- A call of `InternalStop` is over. -/
theorem afterStop {m : Member} {error : Option Error} (hs : Sound f (some p))
    (hless : f.workerTask = none) (hp : ∀ w, p.worker = some w → ¬ f.Live w) :
    Sound f (m.afterStop error).getLeft? := by
  cases m <;>
    exact hs.goOn (fun _ _ _ => hless) (fun w hw hl => absurd hl (hp w hw)) (fun _ h => nomatch h)
      (fun _ h => nomatch h)

theorem giveUp {w : Nat} (hs : Sound f (some p)) (hp : p.worker = some w)
    (hless : p.workerless = true) (hcancelled : f.cancelled w = true)
    (hq : q.bind Place.worker = none)
    (hstop : q.bind Place.stopping = none) : Sound (f.giveUp w) q where
  workerless _ _ _ := hs.workerless p rfl hless
  tracked v hv hg := by
    by_cases hvw : v = w
    · rw [hvw, Fields.giveUp_self] at hg
      cases hg
    · rw [Fields.giveUp_ne f hvw] at hg
      refine (hs.tracked v hv hg).imp_right fun h => ?_
      exact absurd (Option.some.inj (h.symm.trans hp)) hvw
  sourced v hv := by
    rcases hv with hv | hv
    · exact hs.sourced v (.inl hv)
    · rw [hq] at hv
      cases hv
  stopping v hv := by
    rw [hstop] at hv
    cases hv
  givenUp v hv := by
    by_cases hvw : v = w
    · rw [hvw]
      exact hcancelled
    · rw [Fields.giveUp_ne f hvw] at hv
      exact hs.givenUp v hv
  made v hv := by
    refine ⟨?_, (hs.made v hv).2⟩
    have hvw : v ≠ w := by
      rintro rfl
      exact (hs.made v hv).2 (hs.sourced v (.inr hp)).1
    rw [Fields.giveUp_ne f hvw]
    exact (hs.made v hv).1

theorem setTask (w : Nat) (task : TaskState) (hs : Sound f q)
    (hlive : task = .queued ∨ task = .running → f.Live w ∨ q.bind Place.worker = some w) :
    Sound (f.setTask w task) q where
  workerless := hs.workerless
  tracked v hv hg := by
    rcases Fields.live_setTask hv with hv | ⟨rfl, htask⟩
    · exact hs.tracked v hv hg
    · rcases hlive htask with hv | hv
      · exact hs.tracked v hv hg
      · exact .inr hv
  sourced := hs.sourced
  stopping := hs.stopping
  givenUp := hs.givenUp
  made := hs.made

theorem newSource (hs : Sound f (some .newSource)) :
    Sound f.disposeCancelSource.newCancelSource (some (.startTask f.made)) where
  workerless _ _ _ := hs.workerless _ rfl rfl
  tracked v hv hg := by
    rcases hs.tracked v hv hg with h | h
    · exact .inl h
    · cases h
  sourced v hv := by
    rcases hv with hv | hv
    · cases (hs.workerless _ rfl rfl).symm.trans hv
    · cases hv
      exact ⟨rfl, Function.update_self ..⟩
  stopping _ h := nomatch h
  givenUp v hv := by
    have hvm : v ≠ f.made := by
      rintro rfl
      cases hv.symm.trans (hs.made _ (Nat.le_refl _)).1
    exact (Function.update_of_ne hvm ..).trans (hs.givenUp v hv)
  made v hv := by
    refine ⟨(hs.made v (Nat.le_of_succ_le hv)).1, fun h => ?_⟩
    exact absurd (Option.some.inj h) (Nat.ne_of_lt hv)

theorem startTask {w : Nat} (hs : Sound f (some (.startTask w))) :
    Sound (f.setTask w .queued) (some (.assignWorker w)) := by
  have hset := hs.setTask w .queued fun _ => .inr rfl
  exact hset.goOn (fun _ _ _ => hs.workerless _ rfl rfl) (fun v hv _ => hv) (fun v hv => hv)
    (fun _ h => nomatch h)

theorem assignWorker {w : Nat} (hs : Sound f (some (.assignWorker w))) :
    Sound { f with workerTask := some w } none where
  workerless _ h := nomatch h
  tracked v hv hg := by
    rcases hs.tracked v hv hg with h | h
    · cases (hs.workerless _ rfl rfl).symm.trans h
    · exact .inl h
  sourced v hv := by
    rcases hv with hv | hv
    · exact hs.sourced v (.inr hv)
    · cases hv
  stopping _ h := nomatch h
  givenUp := hs.givenUp
  made := hs.made

theorem takeWorker {m : Member} {w : Nat} (hs : Sound f (some (.takeWorker m)))
    (hw : f.workerTask = some w) :
    Sound { f with workerTask := none } (some (.cancel m w)) where
  workerless _ _ _ := rfl
  tracked v hv hg := by
    rcases hs.tracked v hv hg with h | h
    · exact .inr (hw.symm.trans h)
    · cases h
  sourced v hv := by
    rcases hv with hv | hv
    · cases hv
    · exact hs.sourced v (.inl (hw.trans hv))
  stopping _ h := nomatch h
  givenUp := hs.givenUp
  made := hs.made

theorem cancel {m : Member} {w : Nat} (hs : Sound f (some (.cancel m w))) :
    Sound { f with cancelled := Function.update f.cancelled w true } (some (.callbacks m w)) where
  workerless _ _ _ := hs.workerless _ rfl rfl
  tracked := hs.tracked
  sourced := hs.sourced
  stopping v hv := by
    cases hv
    exact Function.update_self ..
  givenUp v hv := by
    dsimp only
    by_cases hvw : v = w
    · rw [hvw, Function.update_self]
    · rw [Function.update_of_ne hvw]
      exact hs.givenUp v hv
  made := hs.made

theorem disposeSource (hs : Sound f (some .disposeSource)) : Sound f.disposeCancelSource none where
  workerless _ h := nomatch h
  tracked := hs.tracked
  sourced v hv := by
    rcases hv with hv | hv
    · cases (hs.workerless _ rfl rfl).symm.trans hv
    · cases hv
  stopping _ h := nomatch h
  givenUp := hs.givenUp
  made := hs.made

theorem first {m : Member} (hs : Sound f none) : Sound f (some (.checkDisposed m)) where
  workerless r hr hless := by
    cases hr
    cases hless
  tracked := hs.tracked
  sourced := hs.sourced
  stopping := hs.stopping
  givenUp := hs.givenUp
  made := hs.made

theorem step {stopTimeout : Option Nat} {fails : Bool} {f' : Fields} {n : Next}
    (hs : Sound f (some p)) (hn : step stopTimeout f p fails = some (f', n)) :
    Sound f' n.getLeft? := by
  -- the places where nothing is in hand, before and after
  have idle : ∀ {r : Option Place} {disposed : Bool}, p.worker = none →
      r.bind Place.worker = none → r.bind Place.stopping = none →
      (∀ r', r = some r' → r'.workerless = true → f.workerTask = none) →
      Sound { f with disposed } r := by
    intro r disposed hp hr hstop hless
    refine hs.goOn hless (fun w hw => ?_) (fun w hw => ?_) (fun w hw => ?_)
    · cases hp.symm.trans hw
    · cases hr.symm.trans hw
    · cases hstop.symm.trans hw
  cases step_cases hn with
  | disposed m | alreadyStarted | noWorker | waitForStop =>
    exact idle rfl rfl rfl fun _ h => nomatch h
  | enter m =>
    cases m <;> exact idle rfl rfl rfl fun _ h hless => by cases h; cases hless
  | checkWorker hw => exact idle rfl rfl rfl fun _ _ _ => hw
  | newSource => exact hs.newSource
  | notStarted w =>
    have hset := hs.setTask w (.completed .faulted) fun h =>
      h.elim (fun h => nomatch h) (fun h => nomatch h)
    refine hset.goOn (fun _ h => nomatch h) (fun v hv hlive => ?_) (fun _ h => nomatch h)
      (fun _ h => nomatch h)
    cases hv
    exact absurd hlive (Fields.not_live_of_completed (Fields.setTask_self ..))
  | startTask w => exact hs.startTask
  | assignWorker w => exact hs.assignWorker
  | notRunning m hw => exact hs.afterStop hw fun _ h => nomatch h
  | takeWorker m w hw => exact hs.takeWorker hw
  | nullReference m w hc => exact nomatch hc.symm.trans (hs.sourced w (.inr rfl)).1
  | objectDisposed m w c hc hd =>
    obtain ⟨hsource, halive⟩ := hs.sourced w (.inr rfl)
    cases hc.symm.trans hsource
    exact nomatch hd.symm.trans halive
  | cancel m w c hc =>
    cases hc.symm.trans (hs.sourced w (.inr rfl)).1
    exact hs.cancel
  | callbackFailed m w hfails =>
    cases m <;> exact hs.giveUp rfl rfl (hs.stopping w rfl) rfl rfl
  | callbacks m w =>
    exact hs.goOn (fun _ _ _ => hs.workerless _ rfl rfl) (fun _ h _ => h) (fun _ h => h)
      hs.stopping
  | completed m w outcome hcompleted =>
    refine hs.goOn (fun _ _ _ => hs.workerless _ rfl rfl) (fun v hv hlive => ?_)
      (fun _ h => nomatch h) (fun _ h => nomatch h)
    cases hv
    exact absurd hlive (Fields.not_live_of_completed hcompleted)
  | timeOver m w hlimited => exact hs.giveUp rfl rfl (hs.stopping w rfl) rfl rfl
  | disposeTask m w error error' =>
    exact hs.afterStop (hs.workerless _ rfl rfl) fun _ h => nomatch h
  | disposeSource => exact hs.disposeSource
  | readWorker timeout w hw =>
    exact idle rfl rfl rfl fun _ h hless => by cases h; cases hless

theorem workerStep {obedient : Bool} {e : WorkerStep} {f' : Fields} (hs : Sound f q)
    (hn : workerStep obedient f e = some f') : Sound f' q := by
  cases e with
  | run w =>
    dsimp only [LongRunningTask.workerStep] at hn
    split at hn <;> cases hn
    next hqueued => exact hs.setTask w _ fun _ => .inl (.inl hqueued)
  | complete w outcome =>
    dsimp only [LongRunningTask.workerStep] at hn
    split at hn
    · split at hn <;> cases hn
      exact hs.setTask w _ fun h => h.elim (fun h => nomatch h) (fun h => nomatch h)
    · cases hn

/-- A worker in hand or in the field is the only one. -/
theorem eq_of_live {v w : Nat} (hs : Sound f q) (hv : f.Live v) (hgv : f.givenUp v = false)
    (hw : f.Live w) (hgw : f.givenUp w = false) : v = w := by
  have hsv := (hs.sourced v (hs.tracked v hv hgv)).1
  have hsw := (hs.sourced w (hs.tracked w hw hgw)).1
  exact Option.some.inj (hsv.symm.trans hsw)

end Sound

/-! ### The running worker -/

theorem Fields.running_of_setTask {f : Fields} {v w : Nat} {task : TaskState}
    (htask : task ≠ .running) (hv : (f.setTask w task).tasks v = .running) :
    f.tasks v = .running := by
  by_cases hvw : v = w
  · rw [hvw, Fields.setTask_self] at hv
    exact absurd hv htask
  · rwa [Fields.setTask_ne f task hvw] at hv

/-- The holder of the lock lets no worker run. -/
theorem running_of_step {stopTimeout : Option Nat} {fails : Bool} {f f' : Fields} {p : Place}
    {n : Next} (hn : step stopTimeout f p fails = some (f', n)) {v : Nat}
    (hv : f'.tasks v = .running) : f.tasks v = .running := by
  cases step_cases hn with
  | startTask w | notStarted w => exact Fields.running_of_setTask (by decide) hv
  | _ => exact hv

theorem Fields.AtMostOne.mono {f f' : Fields} (h : f.AtMostOne)
    (hrunning : ∀ v, f'.tasks v = .running → f.tasks v = .running) : f'.AtMostOne :=
  fun u v hu hv => h u v (hrunning u hu) (hrunning v hv)

/-- The good fields: at most one worker runs. -/
structure Good (f : Fields) (place : Option Place) : Prop where
  sound : Sound f place
  one : f.AtMostOne

theorem good_make : Good .make none := ⟨sound_make, fun _ _ h => nomatch h⟩

variable {τ : Type}

/-- No worker begins while one that was given up still runs. -/
def NoneLeftRunning (s : State τ) : Action τ → Prop
  | .other (.run w) => s.data.tasks w = .queued → s.data.cancelled w = false →
    ∀ v, s.data.givenUp v = true → s.data.tasks v ≠ .running
  | _ => True

theorem Good.run {f : Fields} {q : Option Place} {w : Nat} (hs : Good f q)
    (hqueued : f.tasks w = .queued) (hcancelled : f.cancelled w = false)
    (hleft : ∀ v, f.givenUp v = true → f.tasks v ≠ .running) :
    (f.setTask w .running).AtMostOne := by
  have hw : f.givenUp w = false := by
    by_contra h
    have hc := hs.sound.givenUp w (by simpa using h)
    cases hc.symm.trans hcancelled
  have only : ∀ v, (f.setTask w .running).tasks v = .running → v = w := by
    intro v hv
    by_contra hvw
    rw [Fields.setTask_ne f _ hvw] at hv
    have hgv : f.givenUp v = false := by
      by_contra h
      exact hleft v (by simpa using h) hv
    exact hvw (hs.sound.eq_of_live (.inr hv) hgv (.inl hqueued) hw)
  intro u v hu hv
  exact (only u hu).trans (only v hv).symm

/-- A worker that begins beside one that was given up is the second that runs. -/
theorem two_of_left {f : Fields} {v w : Nat} (hqueued : f.tasks w = .queued)
    (hv : f.tasks v = .running) : ¬ (f.setTask w .running).AtMostOne := by
  intro h
  have hvw : v ≠ w := by
    rintro rfl
    cases hv.symm.trans hqueued
  refine hvw (h v w ?_ (Fields.setTask_self ..))
  exact (Fields.setTask_ne f _ hvw).trans hv

theorem Good.workerStep {obedient : Bool} {s : State τ} {e : WorkerStep} {f : Fields}
    {q : Option Place}
    (hs : Good s.data q) (hleft : NoneLeftRunning s (.other e))
    (hn : workerStep obedient s.data e = some f) : Good f q := by
  refine ⟨hs.sound.workerStep hn, ?_⟩
  cases e with
  | run w =>
    dsimp only [LongRunningTask.workerStep] at hn
    split at hn <;> cases hn
    next hqueued =>
      split
      · exact hs.one.mono fun v => Fields.running_of_setTask (by decide)
      · next hcancelled =>
        have hc : s.data.cancelled w = false := by simpa using hcancelled
        exact hs.run hqueued hc (hleft hqueued hc)
  | complete w outcome =>
    dsimp only [LongRunningTask.workerStep] at hn
    split at hn
    · split at hn <;> cases hn
      exact hs.one.mono fun v => Fields.running_of_setTask nofun
    · cases hn

variable [DecidableEq τ]

theorem next_good {stopTimeout : Option Nat} {obedient : Bool} {s s' : State τ} {a : Action τ}
    (hs : Monitor.Invariant Good s)
    (hleft : NoneLeftRunning s a) (hn : (machine τ stopTimeout obedient).next s a = some s') :
    Monitor.Invariant Good s' := by
  apply hs.next hn
  · exact fun m hf => ⟨hf.sound.first, hf.one⟩
  · intro t fails p f' n _ _ hf hstep
    exact ⟨hf.sound.step hstep, hf.one.mono fun v => running_of_step hstep⟩
  · intro e f ha hf
    exact hs.holds.workerStep (ha ▸ hleft) hf

/-- **At most one worker.**  For every timeout, whatever the body does, in every
run of any number of threads: no two workers are inside `SchedulingRun` exactly
if no worker begins while one that `InternalStop` has given up still runs. -/
theorem one_worker_iff_noneLeftRunning (τ : Type) [DecidableEq τ] (stopTimeout : Option Nat)
    (obedient : Bool) (as : List (Action τ)) :
    (machine τ stopTimeout obedient).AllStates (fun s => s.data.AtMostOne) (State.make τ) as ↔
      (machine τ stopTimeout obedient).AllSteps NoneLeftRunning (State.make τ) as := by
  apply Machine.allStates_iff_allSteps (I := Monitor.Invariant Good)
  · exact fun s hs => hs.holds.one
  · exact fun s a s' hs hleft hn => next_good hs hleft hn
  · intro s a hs hleft
    match a with
    | .call _ _ | .step _ _ | .other (.complete _ _) => exact absurd trivial hleft
    | .other (.run w) =>
      simp only [NoneLeftRunning] at hleft
      push Not at hleft
      obtain ⟨hqueued, hcancelled, v, -, hv⟩ := hleft
      refine ⟨{ s with data := s.data.setTask w .running }, ?_, two_of_left hqueued hv⟩
      simp only [machine, Monitor.machine, Monitor.next, monitor, workerStep, hqueued, hcancelled]
      rfl
  · exact Monitor.invariant_init (M := monitor stopTimeout obedient) good_make

/-- A stop whose wait is over leaves the first worker running, and the next
`Start` lets a second one run. -/
theorem two_workers_run : ¬ ∀ (stopTimeout : Option Nat) (obedient : Bool) (s : State Nat),
    (machine Nat stopTimeout obedient).Reachable s → s.data.AtMostOne := by
  intro h
  let start : List (Action Nat) := .call 0 .start :: List.replicate 7 (.step 0 false)
  let stop : List (Action Nat) := .call 0 .stop :: List.replicate 8 (.step 0 false)
  have hrun : ∃ s, (machine Nat (some 1000) true).run (State.make Nat)
      (start ++ .other (.run 0) :: stop ++ start ++ [.other (.run 1)]) = some s ∧
      s.data.tasks 0 = .running ∧ s.data.tasks 1 = .running := ⟨_, rfl, rfl, rfl⟩
  obtain ⟨s, hs, h0, h1⟩ := hrun
  exact absurd (h (some 1000) true s (Machine.Reachable.run (.init rfl) hs) 0 1 h0 h1) (by decide)

/-! ### Patient stops -/

/-- No callback of the token throws. -/
def CallbacksReturn (s : State τ) : Action τ → Prop
  | .step t fails => ∀ m w, s.calls t = .inside (.callbacks m w) → fails = false
  | _ => True

/-- Nothing is given up. -/
structure Patient (f : Fields) (place : Option Place) : Prop where
  good : Good f place
  none_givenUp : ∀ w, f.givenUp w = false

/-- Only the end of a limited wait and a callback that throws give a worker up. -/
theorem Sound.givenUp_of_step {fails : Bool} {f f' : Fields} {p : Place} {n : Next}
    (hs : Sound f (some p)) (hn : LongRunningTask.step none f p fails = some (f', n))
    (hfails : ∀ m w, p = .callbacks m w → fails = false) : f'.givenUp = f.givenUp := by
  cases step_cases hn with
  | nullReference m w hc => exact nomatch hc.symm.trans (hs.sourced w (.inr rfl)).1
  | objectDisposed m w c hc hd =>
    obtain ⟨hsource, halive⟩ := hs.sourced w (.inr rfl)
    cases hc.symm.trans hsource
    exact nomatch hd.symm.trans halive
  | callbackFailed m w hfail => exact nomatch (hfails m w rfl).symm.trans hfail
  | timeOver m w hlimited => exact nomatch hlimited
  | _ => rfl

theorem workerStep_givenUp {obedient : Bool} {f f' : Fields} {e : WorkerStep}
    (hn : workerStep obedient f e = some f') : f'.givenUp = f.givenUp := by
  cases e with
  | run w =>
    dsimp only [workerStep] at hn
    split at hn <;> cases hn
    rfl
  | complete w outcome =>
    dsimp only [workerStep] at hn
    split at hn
    · split at hn <;> cases hn
      rfl
    · cases hn

/-- Without a limit, and with callbacks that return, at most one worker runs. -/
theorem atMostOne_of_patient {obedient : Bool} {s : State τ}
    (h : (machine τ none obedient).ReachableBy CallbacksReturn s) : s.data.AtMostOne := by
  have hpatient : Monitor.Invariant Patient s := by
    apply h.invariant
    · rintro s rfl
      exact Monitor.invariant_init (M := monitor none obedient) ⟨good_make, fun _ => rfl⟩
    · intro s a s' hs hreturn hn
      apply Monitor.Invariant.next hs hn
      · exact fun m hf => ⟨⟨hf.good.sound.first, hf.good.one⟩, hf.none_givenUp⟩
      · intro t fails p f' n ha ht hf hstep
        refine ⟨⟨hf.good.sound.step hstep, hf.good.one.mono fun v => running_of_step hstep⟩, ?_⟩
        subst ha
        rw [hf.good.sound.givenUp_of_step hstep fun m w hp => hreturn m w (hp ▸ ht)]
        exact hf.none_givenUp
      · intro e f ha hf
        subst ha
        have hleft : NoneLeftRunning s (.other e) := by
          cases e with
          | complete => trivial
          | run w =>
            intro _ _ v hv
            cases hv.symm.trans (hs.holds.none_givenUp v)
        refine ⟨hs.holds.good.workerStep hleft hf, ?_⟩
        rw [workerStep_givenUp hf]
        exact hs.holds.none_givenUp
  exact hpatient.holds.good.one

end Garbage.LongRunning.LongRunningTask
