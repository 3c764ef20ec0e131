import Garbage.Foundation.Draining
import Garbage.UnboundedQueue.Conservation
import Garbage.UnboundedQueue.Wakeup

/-!
# The waiters are answered

As long as no member is called and no wait wakes on its own, only the woken threads
take steps, each when it has the mutex again.  Such a step answers the thread, with
data or with an exception, or puts it back to sleep on an empty open queue; in the
first case it may wake one thread more.  `State.weight` pays for both, so these steps
come to an end, and `Covered` says where: nobody is left asleep beside data or in a
closed queue.
-/

namespace Garbage.UnboundedQueue

open Foundation (CondVar Machine Draining)

variable {τ α μ : Type}

/-! ### The answers -/

/-- The thread whose pop ends with the event. -/
def Event.answered : Event τ α → List τ
  | returned t _ | threw t _ => [t]
  | closed | pushed _ _ _ | cleared _ | blocked _ => []

/-- What the steps of woken threads from `s` to `s'` have done, with the events `new`: each
waiter is answered once or still waits, the data went to them in order, and a closed queue
answers with the exception alone. -/
structure Answers (s s' : Traced τ α) (new : List (Event τ α)) : Prop where
  events : s'.events = s.events ++ new
  waiters : s.state.pushToQueue.waiters.Perm
    (s'.state.pushToQueue.waiters ++ new.flatMap Event.answered)
  queue : s.state.queue = new.flatMap Event.result ++ s'.state.queue
  closed : s'.state.closed = s.state.closed
  threw : s.state.closed = true → new = (new.flatMap Event.answered).map (.threw · .closed)

theorem Answers.refl (s : Traced τ α) : Answers s s [] :=
  ⟨(List.append_nil _).symm, by simp, rfl, rfl, fun _ => rfl⟩

theorem Answers.trans {s₁ s₂ s₃ : Traced τ α} {new₁ new₂ : List (Event τ α)}
    (h₁ : Answers s₁ s₂ new₁) (h₂ : Answers s₂ s₃ new₂) : Answers s₁ s₃ (new₁ ++ new₂) where
  events := by rw [h₂.events, h₁.events, List.append_assoc]
  waiters := by
    have hlast := h₁.waiters.trans (h₂.waiters.append_right _)
    rw [List.append_assoc] at hlast
    rw [List.flatMap_append]
    exact hlast.trans (List.perm_append_comm.append_left _)
  queue := by rw [h₁.queue, h₂.queue, List.flatMap_append, List.append_assoc]
  closed := h₂.closed.trans h₁.closed
  threw hclosed := by
    rw [List.flatMap_append, List.map_append, ← h₁.threw hclosed,
      ← h₂.threw (h₁.closed.trans hclosed)]

/-- What is left to do: a woken thread counts three times, a blocked one twice. -/
def State.weight (s : State τ α) : Nat :=
  s.pushToQueue.woken.length + 2 * s.pushToQueue.waiters.length

variable [DecidableEq τ] {s s' : State τ α} {e : Event τ α} {t : τ}

/-- The pop of a thread that has just left the waiters. -/
theorem PopEffect.answers (h : PopEffect t s s' e) :
    (t :: s.pushToQueue.waiters).Perm (s'.pushToQueue.waiters ++ e.answered) ∧
      s'.weight ≤ s.weight + 2 := by
  have hanswered (cv : CondVar τ) : (t :: cv.waiters).Perm (cv.waiters ++ [t]) :=
    (List.perm_append_singleton t cv.waiters).symm
  cases h with
  | @returned items rest cv hopen hqueue hcv =>
    have hperm : cv.waiters.Perm s.pushToQueue.waiters ∧
        cv.woken.length ≤ s.pushToQueue.woken.length + 1 := by
      rcases hcv with ⟨-, rfl⟩ | ⟨choice, hcv⟩
      · exact ⟨List.Perm.refl _, Nat.le_succ _⟩
      · exact ⟨CondVar.waiters_perm_notifyOne hcv, CondVar.woken_length_notifyOne hcv⟩
    obtain ⟨hwaiters, hwoken⟩ := hperm
    refine ⟨(hwaiters.symm.cons t).trans (hanswered cv), ?_⟩
    have hlength := hwaiters.length_eq
    simp only [State.weight]
    omega
  | threwClosed hclosed => exact ⟨hanswered _, Nat.le_add_right _ _⟩
  | threwTimeout hopen hqueue => exact ⟨hanswered _, Nat.le_add_right _ _⟩
  | @blocked wait move cv hopen hqueue hcv =>
    have hwaiters := CondVar.waiters_perm_block hcv
    refine ⟨by simpa [Event.answered] using hwaiters.symm, ?_⟩
    have hlength := hwaiters.length_eq
    rw [List.length_cons] at hlength
    simp only [State.weight, (CondVar.block_eq_some hcv).2]
    omega

theorem PopEffect.threw_of_closed (h : PopEffect t s s' e) (hclosed : s.closed = true) :
    e = .threw t .closed := by
  cases h with
  | threwClosed => rfl
  | returned hopen | threwTimeout hopen | blocked hopen => simp [hclosed] at hopen

/-- What a woken thread leaves behind when it takes the mutex. -/
theorem weight_resume {cv : CondVar τ} (h : s.pushToQueue.resume t = some cv) :
    State.weight { s with pushToQueue := cv } + 3 = s.weight := by
  have hlength := (CondVar.waiters_perm_resume h).length_eq
  obtain ⟨hmem, -, hwoken⟩ := CondVar.resume_eq_some h
  have herase := List.length_erase_of_mem hmem
  have hpos := List.length_pos_of_mem hmem
  rw [List.length_cons] at hlength
  simp only [State.weight, hwoken]
  omega

/-! ### The steps of woken threads -/

/-- A woken thread takes the mutex; calls and wakeups are up to others. -/
def inner : Action τ μ → Prop
  | .resume _ _ _ => True
  | .call _ _ _ | .wake _ => False

section Steps

variable {call : μ → Call α} {s s' : Traced τ α} {a : Action τ μ}

theorem answers_next (ha : inner a) (hn : s.next call a = some s') :
    (∃ new, Answers s s' new) ∧ s'.state.weight < s.state.weight := by
  cases a with
  | call | wake => exact ha.elim
  | resume t expired notified =>
    obtain ⟨⟨s₁, e⟩, hr, rfl⟩ := Option.map_eq_some_iff.mp hn
    obtain ⟨cv, hcv, heffect⟩ := resume_effect hr
    obtain ⟨hwaiters, hweight⟩ := heffect.answers
    have hfall := weight_resume (s := s.state) hcv
    refine ⟨⟨[e], rfl, ?_, ?_, heffect.closed_eq.1, ?_⟩, ?_⟩
    · rw [List.flatMap_singleton]
      exact (CondVar.waiters_perm_resume hcv).trans hwaiters
    · rw [List.flatMap_singleton]
      have hacts := heffect.acts
      cases heffect with
      | returned hopen hqueue => exact hqueue
      | threwClosed | threwTimeout | blocked => rfl
    · intro hclosed
      rw [heffect.threw_of_closed hclosed]
      rfl
    · exact Nat.lt_of_le_of_lt hweight (by omega)

theorem answers_run {as : List (Action τ μ)} : ∀ {s s' : Traced τ α}, (∀ a ∈ as, inner a) →
    (machine τ call).run s as = some s' → ∃ new, Answers s s' new := by
  induction as with
  | nil =>
    intro s s' _ hrun
    exact ⟨[], Option.some.inj hrun ▸ Answers.refl s⟩
  | cons a as ih =>
    intro s s' hinner hrun
    obtain ⟨m, hm, hrest⟩ := Option.bind_eq_some_iff.mp hrun
    obtain ⟨⟨new₁, h₁⟩, -⟩ := answers_next (hinner a List.mem_cons_self) hm
    obtain ⟨new₂, h₂⟩ := ih (fun b hb => hinner b (List.mem_cons_of_mem a hb)) hrest
    exact ⟨new₁ ++ new₂, h₁.trans h₂⟩

/-- The woken threads use up the weight. -/
def draining (call : μ → Call α) :
    Draining (machine τ call) inner fun _ => True where
  measure s := s.state.weight
  keeps _ _ _ _ _ _ := trivial
  falls _ _ _ _ ha hn := (answers_next ha hn).2

end Steps

/-! ### Rest -/

theorem woken_of_atRest {call : μ → Call α} {s : Traced τ α}
    (hrest : (machine τ call).AtRest inner s) : s.state.pushToQueue.woken = [] := by
  rw [List.eq_nil_iff_forall_not_mem]
  intro t ht
  obtain ⟨notified, r, hr⟩ := exists_resume_run ht false
  have hnone : (resume t false notified s.state).map s.record = none :=
    hrest (.resume t false notified) trivial
  simp [hr] at hnone

/-- **The waiters are answered.**  However the members were called before: from then on the woken
threads take a bounded number of steps, and each waiter is answered once or still waits.  When no
step is left nobody is on the way, those that still wait do so on an empty open queue, and of a
closed queue every waiter has got the exception.  It always comes to that. -/
theorem waiters_answered {call : μ → Call α} {s s' : Traced τ α} {as : List (Action τ μ)}
    (h : (machine τ call).Reachable s) (hinner : ∀ a ∈ as, inner a)
    (hrun : (machine τ call).run s as = some s') :
    as.length ≤ s.state.weight ∧
    (∃ new, Answers s s' new ∧ ((machine τ call).AtRest inner s' →
      s'.state.pushToQueue.woken = [] ∧
      (s'.state.pushToQueue.waiters ≠ [] → s'.state.closed = false ∧ s'.state.queue = []) ∧
      (s.state.closed = true →
        new.Perm (s.state.pushToQueue.waiters.map (.threw · .closed))))) ∧
    ∃ bs s'', (∀ b ∈ bs, inner b) ∧ (machine τ call).run s' bs = some s'' ∧
      (machine τ call).AtRest inner s'' := by
  have hbound := (draining call).length_le trivial hinner hrun
  obtain ⟨new, hanswers⟩ := answers_run hinner hrun
  refine ⟨by simp only [draining] at hbound; omega, ⟨new, hanswers, fun hrest => ?_⟩,
    (draining call).rests trivial⟩
  have hwoken := woken_of_atRest hrest
  have hcovered := covered_reachable (h.run hrun)
  have hwaiting (hwaiters : s'.state.pushToQueue.waiters ≠ []) :
      s'.state.closed = false ∧ s'.state.queue = [] := by
    have hblocked : s'.state.pushToQueue.blocked ≠ [] := by
      simpa [CondVar.waiters, hwoken] using hwaiters
    have hopen : s'.state.closed = false :=
      Bool.eq_false_iff.mpr fun hclosed => hblocked (hcovered.closed hclosed)
    exact ⟨hopen, not_not.mp fun hqueue => hcovered.woken hopen hqueue hblocked hwoken⟩
  refine ⟨hwoken, hwaiting, fun hclosed => ?_⟩
  have hnone : s'.state.pushToQueue.waiters = [] := not_not.mp fun hwaiters => by
    have hopen := (hwaiting hwaiters).1
    simp [hanswers.closed, hclosed] at hopen
  have hperm := hanswers.waiters
  rw [hnone, List.nil_append] at hperm
  rw [hanswers.threw hclosed]
  exact (hperm.map _).symm

/-- Two waiters and a batch of two items with its one notification: the first one passes it on. -/
theorem waiters_answered_batch :
    let before : List (Action Nat (TUnboundedQueueForNonThrowMovable.Member Nat)) :=
      [.call 0 .waitAndPop none, .call 1 .waitAndPop none, .call 2 (.pushBack 7) (some 0),
        .call 2 (.pushBack 8) (some 1)]
    ∃ s s' new, (TUnboundedQueueForNonThrowMovable.machine Nat Nat).run ⟨State.make Nat Nat, []⟩
        before = some s ∧
      (TUnboundedQueueForNonThrowMovable.machine Nat Nat).run s
        [.resume 1 false none, .resume 0 false none] = some s' ∧
      Answers s s' new ∧ s'.events = s.events ++ [.returned 1 [7], .returned 0 [8]] := by
  intro before
  have hreach : ∀ s, (TUnboundedQueueForNonThrowMovable.machine Nat Nat).run
      ⟨State.make Nat Nat, []⟩ before = some s →
      (TUnboundedQueueForNonThrowMovable.machine Nat Nat).Reachable s :=
    fun s h => Machine.Reachable.run (.init rfl) h
  have hinner : ∀ a ∈ ([.resume 1 false none, .resume 0 false none] :
      List (Action Nat (TUnboundedQueueForNonThrowMovable.Member Nat))), inner a := by
    intro a ha
    rcases List.mem_cons.mp ha with rfl | ha
    · trivial
    · rw [List.mem_singleton.mp ha]
      trivial
  obtain ⟨-, ⟨new, hanswers, -⟩, -⟩ := waiters_answered (hreach _ rfl) hinner rfl
  exact ⟨_, _, new, rfl, rfl, hanswers, rfl⟩

end Garbage.UnboundedQueue
