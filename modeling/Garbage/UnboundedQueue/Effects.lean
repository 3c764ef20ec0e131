import Garbage.UnboundedQueue.Sections

/-!
# What a section can do

`Effect s s' e` lists what a locked section can do to a queue: its first state,
its last state and its event.  `PopEffect` is the part of `wait_and_pop_internal`.
Every member's section and every section after a wait is one of them
(`run_effect`, `resume_effect`), and `next_effect` says the same of a step of the
threads.  So an invariant of the queues is checked on the lists and the code is
not unfolded again.

A thread that does not wait can always take its section: `exists_run` for a call,
`exists_resume_run` for a woken thread.
-/

namespace Garbage.UnboundedQueue

open Foundation (CondVar)

variable {τ α : Type} [DecidableEq τ]

/-- What `wait_and_pop_internal` of the thread `t` can do. -/
inductive PopEffect (t : τ) (s : State τ α) : State τ α → Event τ α → Prop
  | returned {items rest : List α} {cv : CondVar τ} (hopen : s.closed = false)
      (hqueue : s.queue = items ++ rest)
      (hcv : rest = [] ∧ cv = s.pushToQueue ∨
        ∃ choice, s.pushToQueue.notifyOne choice = some cv) :
      PopEffect t s { s with queue := rest, pushToQueue := cv } (.returned t items)
  | threwClosed (hclosed : s.closed = true) : PopEffect t s s (.threw t .closed)
  | threwTimeout (hopen : s.closed = false) (hqueue : s.queue = []) :
      PopEffect t s s (.threw t .timeout)
  | blocked {wait : WaitFunctor} {move : MoveFunctor} {cv : CondVar τ}
      (hopen : s.closed = false) (hqueue : s.queue = []) (hcv : s.pushToQueue.block t = some cv) :
      PopEffect t s
        { s with pushToQueue := cv, call := Function.update s.call t (wait, move) } (.blocked t)

/-- What a locked section can do. -/
inductive Effect (s : State τ α) : State τ α → Event τ α → Prop
  | closed :
      Effect s { s with closed := true, pushToQueue := s.pushToQueue.notifyAll } .closed
  | cleared : Effect s { s with queue := [] } (.cleared s.queue)
  | pushed {side : Side} {batch : List α} {cv : CondVar τ} {choice : Option τ}
      (hopen : s.closed = false) (hcv : s.pushToQueue.notifyOne choice = some cv) :
      Effect s { s with queue := side.splice batch s.queue, pushToQueue := cv }
        (.pushed side batch [])
  | refused {side : Side} {batch : List α} : Effect s s (.pushed side [] batch)
  | popped {t : τ} {s' : State τ α} {e : Event τ α} (h : PopEffect t s s' e) : Effect s s' e

variable {s s' : State τ α} {e : Event τ α} {t : τ} {notified : Option τ}

theorem push_effect {side : Side} {batch : List α} (h : push side batch notified s = some (s', e)) :
    Effect s s' e := by
  rw [push] at h
  split at h
  · cases h
    exact .refused
  · next hopen =>
    obtain ⟨cv, hcv, h⟩ := Option.map_eq_some_iff.mp h
    cases h
    exact .pushed (Bool.eq_false_iff.mpr hopen) hcv

theorem pushAll_effect {side : Side} {batch : List α}
    (h : pushAll side batch notified s = some (s', e)) : Effect s s' e := by
  cases batch with
  | nil => cases h; exact .refused
  | cons data rest => exact push_effect h

theorem moveDataFromQueue_effect {move : MoveFunctor} (hopen : s.closed = false)
    (h : moveDataFromQueue t move notified s = some (s', e)) : PopEffect t s s' e := by
  rw [moveDataFromQueue] at h
  split at h
  · cases h
  · next items rest hsplit =>
    obtain ⟨cv, hcv, h⟩ := Option.map_eq_some_iff.mp h
    cases h
    refine .returned hopen (MoveFunctor.split_eq_some hsplit) ?_
    split at hcv
    · next hrest => exact .inl ⟨hrest, (Option.some.inj hcv).symm⟩
    · exact .inr ⟨notified, hcv⟩

theorem blockIn_effect {wait : WaitFunctor} {move : MoveFunctor} (hopen : s.closed = false)
    (hqueue : s.queue = []) (h : blockIn t wait move s = some (s', e)) : PopEffect t s s' e := by
  obtain ⟨cv, hcv, h⟩ := Option.map_eq_some_iff.mp h
  cases h
  exact .blocked hopen hqueue hcv

theorem waitAndPopInternal_effect {wait : WaitFunctor} {move : MoveFunctor} {expired : Bool}
    (h : waitAndPopInternal t wait move expired notified s = some (s', e)) :
    PopEffect t s s' e := by
  unfold waitAndPopInternal at h
  split at h
  · next x hx =>
    obtain ⟨hclosed, rfl⟩ := testPushAndThrowIfClosed_eq_error hx
    cases h
    exact .threwClosed hclosed
  · next hx => exact moveDataFromQueue_effect (testPushAndThrowIfClosed_eq_ok hx).1 h
  · next hx =>
    obtain ⟨hopen, hb⟩ := testPushAndThrowIfClosed_eq_ok hx
    have hqueue : s.queue = [] := by simpa using hb
    cases wait with
    | waitForDataPushToQueue => exact blockIn_effect hopen hqueue h
    | waitForDataPushToQueueOrTimeout =>
      dsimp only at h
      split at h
      · cases h
        exact .threwTimeout hopen hqueue
      · exact blockIn_effect hopen hqueue h
    | rightNowThrowTimeoutExceptionIfNoExistDataAtQueue =>
      cases h
      exact .threwTimeout hopen hqueue

/-- An open queue without data makes `pop_all_or_empty` return nothing. -/
theorem popAllOrEmpty_effect (h : popAllOrEmpty t notified s = some (s', e)) :
    PopEffect t s s' e := by
  unfold popAllOrEmpty at h
  split at h
  · next s₁ hpop =>
    cases h
    cases waitAndPopInternal_effect hpop with
    | threwTimeout hopen hqueue =>
      have hs : { s with queue := [], pushToQueue := s.pushToQueue } = s := by rw [← hqueue]
      have heffect : PopEffect t s { s with queue := [], pushToQueue := s.pushToQueue }
          (.returned t []) := .returned hopen hqueue (.inl ⟨rfl, rfl⟩)
      rwa [hs] at heffect
  · next r hr => exact waitAndPopInternal_effect h

/-- **Every member's section is one of the effects.** -/
theorem run_effect {call : Call α} (h : call.run t notified s = some (s', e)) : Effect s s' e := by
  cases call with
  | close => cases h; exact .closed
  | clear => cases h; exact .cleared
  | push side batch => exact push_effect h
  | pushAll side batch => exact pushAll_effect h
  | waitAndPopInternal wait move => exact .popped (waitAndPopInternal_effect h)
  | popAllOrEmpty => exact .popped (popAllOrEmpty_effect h)

/-- **A section after a wait** is the pop of a thread that has left the waiters. -/
theorem resume_effect {expired : Bool} (h : resume t expired notified s = some (s', e)) :
    ∃ cv, s.pushToQueue.resume t = some cv ∧ PopEffect t { s with pushToQueue := cv } s' e := by
  rw [resume] at h
  split at h
  · cases h
  · next cv hcv => exact ⟨cv, hcv, waitAndPopInternal_effect h⟩

/-! ### Every section can be taken -/

theorem exists_blockIn {wait : WaitFunctor} {move : MoveFunctor}
    (h : t ∉ s.pushToQueue.waiters) : ∃ r, blockIn t wait move s = some r := by
  obtain ⟨cv, hcv⟩ := CondVar.exists_block h
  exact ⟨_, Option.map_eq_some_iff.mpr ⟨cv, hcv, rfl⟩⟩

theorem exists_moveDataFromQueue {move : MoveFunctor} (h : s.queue ≠ []) :
    ∃ notified r, moveDataFromQueue t move notified s = some r := by
  obtain ⟨⟨items, rest⟩, hsplit⟩ : ∃ r, move.split s.queue = some r := by
    cases move with
    | moveDataFromQueueFront =>
      cases hqueue : s.queue with
      | nil => exact absurd hqueue h
      | cons data rest => exact ⟨_, rfl⟩
    | moveAllDataFromQueue => exact ⟨_, rfl⟩
  obtain ⟨notified, cv, hcv⟩ := CondVar.exists_notifyOne s.pushToQueue
  refine ⟨notified, ?_⟩
  simp only [moveDataFromQueue, hsplit]
  split
  · exact ⟨_, rfl⟩
  · rw [hcv]
    exact ⟨_, rfl⟩

theorem exists_waitAndPopInternal (wait : WaitFunctor) (move : MoveFunctor) (expired : Bool)
    (h : t ∉ s.pushToQueue.waiters) :
    ∃ notified r, waitAndPopInternal t wait move expired notified s = some r := by
  cases htest : testPushAndThrowIfClosed s with
  | error e =>
    simp only [waitAndPopInternal, htest]
    exact ⟨none, _, rfl⟩
  | ok b =>
    obtain ⟨-, hb⟩ := testPushAndThrowIfClosed_eq_ok htest
    cases b with
    | true =>
      have hqueue : s.queue ≠ [] := by simpa using hb.symm
      obtain ⟨notified, r, hr⟩ : ∃ notified r, moveDataFromQueue t move notified s = some r :=
        exists_moveDataFromQueue hqueue
      exact ⟨notified, r, by simpa only [waitAndPopInternal, htest] using hr⟩
    | false =>
      obtain ⟨r, hr⟩ : ∃ r, blockIn t wait move s = some r := exists_blockIn h
      simp only [waitAndPopInternal, htest]
      cases wait with
      | waitForDataPushToQueue => exact ⟨none, r, hr⟩
      | waitForDataPushToQueueOrTimeout =>
        cases expired with
        | true => exact ⟨none, _, rfl⟩
        | false => exact ⟨none, r, hr⟩
      | rightNowThrowTimeoutExceptionIfNoExistDataAtQueue => exact ⟨none, _, rfl⟩

theorem exists_push (side : Side) (batch : List α) :
    ∃ notified r, push side batch notified s = some r := by
  obtain ⟨notified, cv, hcv⟩ := CondVar.exists_notifyOne s.pushToQueue
  refine ⟨notified, ?_⟩
  rw [push]
  split
  · exact ⟨_, rfl⟩
  · rw [hcv]
    exact ⟨_, rfl⟩

theorem exists_run (call : Call α) (h : t ∉ s.pushToQueue.waiters) :
    ∃ notified r, call.run t notified s = some r := by
  cases call with
  | close | clear => exact ⟨none, _, rfl⟩
  | push side batch => exact exists_push side batch
  | pushAll side batch =>
    cases batch with
    | nil => exact ⟨none, _, rfl⟩
    | cons data rest => exact exists_push side (data :: rest)
  | waitAndPopInternal wait move => exact exists_waitAndPopInternal wait move false h
  | popAllOrEmpty =>
    obtain ⟨notified, r, hr⟩ := exists_waitAndPopInternal
      .rightNowThrowTimeoutExceptionIfNoExistDataAtQueue .moveAllDataFromQueue false h
    refine ⟨notified, ?_⟩
    rw [Call.run, popAllOrEmpty, hr]
    split
    · exact ⟨_, rfl⟩
    · exact ⟨r, rfl⟩

theorem exists_resume_run (h : t ∈ s.pushToQueue.woken) (expired : Bool) :
    ∃ notified r, resume t expired notified s = some r := by
  obtain ⟨cv, hcv⟩ := CondVar.exists_resume h
  have hleft : t ∉ cv.waiters := fun h => (CondVar.mem_waiters_resume hcv h).1 rfl
  obtain ⟨notified, r, hr⟩ := exists_waitAndPopInternal
    (s := { s with pushToQueue := cv }) (s.call t).1 (s.call t).2 expired hleft
  exact ⟨notified, r, by rw [resume, hcv]; exact hr⟩

/-- What a step of the threads can do. -/
inductive StepEffect (s : Traced τ α) : Traced τ α → Prop
  | called {s' : State τ α} {e : Event τ α} (h : Effect s.state s' e) :
      StepEffect s ⟨s', s.events ++ [e]⟩
  | resumed {t : τ} {cv : CondVar τ} {s' : State τ α} {e : Event τ α}
      (hcv : s.state.pushToQueue.resume t = some cv)
      (h : PopEffect t { s.state with pushToQueue := cv } s' e) :
      StepEffect s ⟨s', s.events ++ [e]⟩
  | woken {t : τ} {cv : CondVar τ} (hcv : s.state.pushToQueue.wake t = some cv) :
      StepEffect s { s with state := { s.state with pushToQueue := cv } }

theorem next_effect {μ : Type} {call : μ → Call α} {s s' : Traced τ α} {a : Action τ μ}
    (h : s.next call a = some s') : StepEffect s s' := by
  cases a with
  | call t member notified =>
    rw [Traced.next] at h
    split at h
    · cases h
    · obtain ⟨r, hr, rfl⟩ := Option.map_eq_some_iff.mp h
      exact .called (run_effect hr)
  | resume t expired notified =>
    obtain ⟨r, hr, rfl⟩ := Option.map_eq_some_iff.mp h
    obtain ⟨cv, hcv, heffect⟩ := resume_effect hr
    exact .resumed hcv heffect
  | wake t =>
    obtain ⟨cv, hcv, rfl⟩ := Option.map_eq_some_iff.mp h
    exact .woken hcv

/-- **The invariant rule of the queues.** -/
theorem reachable_invariant {μ : Type} {call : μ → Call α} {I : Traced τ α → Prop}
    (h0 : I ⟨State.make τ α, []⟩) (hstep : ∀ s s', I s → StepEffect s s' → I s')
    {s : Traced τ α} (h : (machine τ call).Reachable s) : I s := by
  refine h.invariant (fun s hinit => ?_) fun s a s' hs _ hn => hstep s s' hs (next_effect hn)
  rw [show s = ⟨State.make τ α, []⟩ from hinit]
  exact h0

end Garbage.UnboundedQueue
