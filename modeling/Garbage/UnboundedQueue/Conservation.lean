import Mathlib.Algebra.Order.Group.Multiset
import Mathlib.Tactic.Abel
import Garbage.UnboundedQueue.Effects

/-!
# Nothing is lost and nothing is duplicated

The purpose of a queue, without threads: the events, in the order in which the
sections held the mutex, are the calls of one deque.  `Event.Acts` says what an
event does to the deque, and `Replay events queue` that the deque ends as
`queue`.  `Replay.perm` and `Replay.fifo` draw the two consequences: what was
accepted is what was returned, cleared or is still there, and without
`push_front` and `clear` the returned items are those accepted first.

What the events are is said per member: `Call.Logs` is the event that a call has to
leave, given the queue it finds, and `Pops` the one of a pop.  So an open queue accepts
the whole batch of a push, and a pop returns data if there is any.

`follows_reachable` is the refinement: the queue of every reachable state is the
replay of its events, and every step leaves the event of its member.
-/

namespace Garbage.UnboundedQueue

open Foundation (CondVar Machine)

variable {τ α μ : Type}

/-! ### The deque -/

namespace Event

/-- What an event does to the deque. -/
def Acts (queue queue' : List α) : Event τ α → Prop
  | pushed side items _ => queue' = side.splice items queue
  | cleared items => queue = items ∧ queue' = []
  | returned _ items => queue = items ++ queue'
  | closed | threw _ _ | blocked _ => queue' = queue

/-- The items a push moved into the queue. -/
def accepted : Event τ α → List α
  | pushed _ items _ => items
  | _ => []

def result : Event τ α → List α
  | returned _ items => items
  | _ => []

def removed : Event τ α → List α
  | cleared items => items
  | _ => []

/-- Neither a push at the front nor a `clear`. -/
def AtBack : Event τ α → Prop
  | pushed side _ _ => side = .back
  | cleared _ => False
  | _ => True

end Event

/-- The deque ends as `queue` after the events. -/
inductive Replay : List (Event τ α) → List α → Prop
  | nil : Replay [] []
  | snoc {events : List (Event τ α)} {e : Event τ α} {queue queue' : List α} :
      Replay events queue → e.Acts queue queue' → Replay (events ++ [e]) queue'

theorem Side.splice_perm (side : Side) (batch queue : List α) :
    (side.splice batch queue).Perm (batch ++ queue) := by
  cases side with
  | front => exact List.Perm.refl _
  | back => exact List.perm_append_comm

/-- **Every accepted item is in exactly one place.** -/
theorem Replay.perm {events : List (Event τ α)} {queue : List α} (h : Replay events queue) :
    (events.flatMap Event.accepted).Perm
      (queue ++ events.flatMap Event.result ++ events.flatMap Event.removed) := by
  rw [← Multiset.coe_eq_coe, ← Multiset.coe_add, ← Multiset.coe_add]
  induction h with
  | nil => rfl
  | @snoc events e queue queue' _ hacts ih =>
    simp only [List.flatMap_append, List.flatMap_cons, List.flatMap_nil, List.append_nil,
      ← Multiset.coe_add, ih]
    cases e with
    | pushed side items left =>
      have hqueue : (queue' : Multiset α) = items + queue :=
        Multiset.coe_eq_coe.mpr ((hacts : queue' = _) ▸ side.splice_perm items queue)
      simp only [hqueue, Event.accepted, Event.result, Event.removed, Multiset.coe_nil]
      abel
    | cleared items =>
      obtain ⟨rfl, rfl⟩ := hacts
      simp only [Event.accepted, Event.result, Event.removed, Multiset.coe_nil]
      abel
    | returned t items =>
      have hqueue : queue = items ++ queue' := hacts
      simp only [hqueue, Event.accepted, Event.result, Event.removed, Multiset.coe_nil,
        ← Multiset.coe_add]
      abel
    | closed | threw _ _ | blocked _ =>
      have hqueue : queue' = queue := hacts
      simp only [hqueue, Event.accepted, Event.result, Event.removed, Multiset.coe_nil, add_zero]

/-- **First in, first out.** -/
theorem Replay.fifo {events : List (Event τ α)} {queue : List α} (h : Replay events queue)
    (hback : ∀ e ∈ events, e.AtBack) :
    events.flatMap Event.accepted = events.flatMap Event.result ++ queue := by
  induction h with
  | nil => rfl
  | @snoc events e queue queue' _ hacts ih =>
    have hprior := ih fun e he => hback e (List.mem_append_left _ he)
    have hlast := hback e (List.mem_append_right _ (List.mem_singleton_self e))
    simp only [List.flatMap_append, List.flatMap_cons, List.flatMap_nil, List.append_nil, hprior]
    cases e with
    | pushed side items left =>
      simp only [Event.Acts] at hacts
      simp only [Event.AtBack] at hlast
      subst hlast
      simp only [hacts, Event.accepted, Event.result, Side.splice, List.append_nil,
        List.append_assoc]
    | cleared items => exact hlast.elim
    | returned t items =>
      simp only [Event.Acts] at hacts
      simp only [hacts, Event.accepted, Event.result, List.append_nil, List.append_assoc]
    | closed | threw _ _ | blocked _ =>
      simp only [Event.Acts] at hacts
      simp only [hacts, Event.accepted, Event.result, List.append_nil]

/-! ### The members -/

/-- What a pop leaves on the queue it finds: the exception of a closed queue, the data of
an open one, and without data it waits or gives up, as its functor says. -/
inductive Pops (t : τ) (s : State τ α) (wait : WaitFunctor) (move : MoveFunctor) :
    Event τ α → Prop
  | closed (hclosed : s.closed = true) : Pops t s wait move (.threw t .closed)
  | front {data : α} {rest : List α} (hopen : s.closed = false) (hqueue : s.queue = data :: rest)
      (hmove : move = .moveDataFromQueueFront) : Pops t s wait move (.returned t [data])
  | all (hopen : s.closed = false) (hqueue : s.queue ≠ []) (hmove : move = .moveAllDataFromQueue) :
      Pops t s wait move (.returned t s.queue)
  | blocks (hopen : s.closed = false) (hqueue : s.queue = [])
      (hwait : wait ≠ .rightNowThrowTimeoutExceptionIfNoExistDataAtQueue) :
      Pops t s wait move (.blocked t)
  | givesUp (hopen : s.closed = false) (hqueue : s.queue = [])
      (hwait : wait ≠ .waitForDataPushToQueue) : Pops t s wait move (.threw t .timeout)

/-- What a call of a member leaves on the queue it finds. -/
def Call.Logs (t : τ) (s : State τ α) : Call α → Event τ α → Prop
  | close, e => e = .closed
  | clear, e => e = .cleared s.queue
  | push side batch, e | pushAll side batch, e =>
    e = if s.closed then .pushed side [] batch else .pushed side batch []
  | waitAndPopInternal wait move, e => Pops t s wait move e
  | popAllOrEmpty, e => e = if s.closed then .threw t .closed else .returned t s.queue

/-- The functors that the waiting threads wait with, after the event of a pop. -/
def Event.waiting [DecidableEq τ] (functors : WaitFunctor × MoveFunctor)
    (call : τ → WaitFunctor × MoveFunctor) : Event τ α → τ → WaitFunctor × MoveFunctor
  | blocked t => Function.update call t functors
  | closed | pushed _ _ _ | cleared _ | returned _ _ | threw _ _ => call

/-- The functors of the call of a pop that may wait. -/
def Call.functors : Call α → Option (WaitFunctor × MoveFunctor)
  | waitAndPopInternal wait move => some (wait, move)
  | close | clear | push _ _ | pushAll _ _ | popAllOrEmpty => none

/-! ### The queues follow the deque -/

/-- The invariant: the queue is the replay of the events, and it is closed once
`close` was called. -/
structure Follows (s : Traced τ α) : Prop where
  replay : Replay s.events s.state.queue
  closed : s.state.closed = true ↔ Event.closed ∈ s.events

theorem follows_make : Follows (⟨State.make τ α, []⟩ : Traced τ α) :=
  ⟨.nil, by simp [State.make]⟩

variable [DecidableEq τ] {s s' : State τ α} {e : Event τ α} {t : τ}

theorem PopEffect.acts (h : PopEffect t s s' e) : e.Acts s.queue s'.queue := by
  cases h with
  | returned _ hqueue _ => exact hqueue
  | threwClosed _ => rfl
  | threwTimeout _ _ => rfl
  | blocked _ _ _ => rfl

/-- A section does to the queue what its event says. -/
theorem Effect.acts (h : Effect s s' e) : e.Acts s.queue s'.queue := by
  cases h with
  | closed => rfl
  | cleared => exact ⟨rfl, rfl⟩
  | pushed _ _ => rfl
  | @refused side batch => cases side <;> simp [Event.Acts, Side.splice]
  | popped h => exact h.acts

theorem PopEffect.closed_eq (h : PopEffect t s s' e) :
    s'.closed = s.closed ∧ e ≠ .closed := by
  cases h <;> exact ⟨rfl, by simp⟩

theorem Effect.closed_iff (h : Effect s s' e) :
    s'.closed = true ↔ s.closed = true ∨ e = .closed := by
  cases h with
  | closed => simp
  | cleared => simp
  | pushed hopen hcv => simp
  | refused => simp
  | popped h => simp [h.closed_eq]

theorem StepEffect.follows {s s' : Traced τ α} (h : StepEffect s s') (hs : Follows s) :
    Follows s' := by
  cases h with
  | called h =>
    refine ⟨.snoc hs.replay h.acts, ?_⟩
    rw [h.closed_iff, hs.closed, List.mem_append, List.mem_singleton, eq_comm (a := Event.closed)]
  | resumed hcv h =>
    refine ⟨.snoc hs.replay h.acts, ?_⟩
    obtain ⟨hclosed, hne⟩ := h.closed_eq
    rw [List.mem_append, List.mem_singleton, or_iff_left (Ne.symm hne), ← hs.closed, hclosed]
  | woken hcv => exact ⟨hs.replay, hs.closed⟩

/-- **The queue is the deque of its events.** -/
theorem follows_reachable {call : μ → Call α} {s : Traced τ α}
    (h : (machine τ call).Reachable s) : Follows s :=
  reachable_invariant follows_make (fun _ _ hs hstep => hstep.follows hs) h

/-! ### What one step cannot do -/

theorem StepEffect.queue_of_threw {s s' : Traced τ α} (h : StepEffect s s') {x : Exception}
    (he : s'.events = s.events ++ [.threw t x]) : s'.state.queue = s.state.queue := by
  cases h with
  | called h =>
    have hacts := h.acts
    rw [List.singleton_inj.mp (List.append_cancel_left he)] at hacts
    exact hacts
  | resumed hcv h =>
    have hacts := h.acts
    rw [List.singleton_inj.mp (List.append_cancel_left he)] at hacts
    exact hacts
  | woken hcv => rfl

/-- A closed queue gives no data away. -/
theorem StepEffect.not_returned_of_closed {s s' : Traced τ α} (h : StepEffect s s')
    (hclosed : s.state.closed = true) (items : List α) :
    s'.events ≠ s.events ++ [.returned t items] := by
  intro he
  cases h with
  | called h =>
    rw [List.singleton_inj.mp (List.append_cancel_left he)] at h
    cases h with
    | popped h =>
      cases h with
      | returned hopen _ _ => exact absurd (hopen ▸ hclosed) (by simp)
  | resumed hcv h =>
    rw [List.singleton_inj.mp (List.append_cancel_left he)] at h
    cases h with
    | returned hopen _ _ => exact absurd (hopen.symm.trans hclosed) (by simp)
  | woken hcv => exact absurd he (by simp)

/-- A push on a closed queue leaves all of it, and the batch with its caller. -/
theorem next_push_of_closed {call : μ → Call α} {s s' : Traced τ α} {m : μ} {side : Side}
    {batch : List α} {notified : Option τ}
    (hm : call m = .push side batch ∨ call m = .pushAll side batch)
    (hclosed : s.state.closed = true) (h : s.next call (.call t m notified) = some s') :
    s' = { s with events := s.events ++ [.pushed side [] batch] } := by
  have hrun : (call m).run t notified s.state = some (s.state, .pushed side [] batch) := by
    rcases hm with hm | hm
    · rw [hm]
      exact if_pos hclosed
    · rw [hm]
      cases batch with
      | nil => rfl
      | cons data rest => exact if_pos hclosed
  rw [Traced.next] at h
  split at h
  · cases h
  · rw [hrun] at h
    exact (Option.some.inj h).symm

/-! ### The members leave their events -/

variable {notified : Option τ}

theorem push_logs {side : Side} {batch : List α} (h : push side batch notified s = some (s', e)) :
    e = (if s.closed then .pushed side [] batch else .pushed side batch []) ∧ s'.call = s.call := by
  rw [push] at h
  split at h
  · next hclosed =>
    cases h
    exact ⟨(if_pos hclosed).symm, rfl⟩
  · next hopen =>
    obtain ⟨cv, -, h⟩ := Option.map_eq_some_iff.mp h
    cases h
    exact ⟨(if_neg hopen).symm, rfl⟩

theorem moveDataFromQueue_pops {wait : WaitFunctor} {move : MoveFunctor} (hopen : s.closed = false)
    (h : moveDataFromQueue t move notified s = some (s', e)) (hqueue : s.queue ≠ []) :
    Pops t s wait move e ∧ s'.call = e.waiting (wait, move) s.call := by
  rw [moveDataFromQueue] at h
  split at h
  · cases h
  · next items rest hsplit =>
    obtain ⟨cv, -, h⟩ := Option.map_eq_some_iff.mp h
    cases h
    refine ⟨?_, rfl⟩
    cases move with
    | moveDataFromQueueFront =>
      cases hs : s.queue with
      | nil => exact absurd hs hqueue
      | cons data queue =>
        rw [hs] at hsplit
        cases hsplit
        exact .front hopen hs rfl
    | moveAllDataFromQueue =>
      cases hsplit
      exact .all hopen hqueue rfl

theorem blockIn_pops {wait : WaitFunctor} {move : MoveFunctor} (hopen : s.closed = false)
    (hqueue : s.queue = []) (hwait : wait ≠ .rightNowThrowTimeoutExceptionIfNoExistDataAtQueue)
    (h : blockIn t wait move s = some (s', e)) :
    Pops t s wait move e ∧ s'.call = e.waiting (wait, move) s.call := by
  obtain ⟨cv, -, h⟩ := Option.map_eq_some_iff.mp h
  cases h
  exact ⟨.blocks hopen hqueue hwait, rfl⟩

theorem waitAndPopInternal_pops {wait : WaitFunctor} {move : MoveFunctor} {expired : Bool}
    (h : waitAndPopInternal t wait move expired notified s = some (s', e)) :
    Pops t s wait move e ∧ s'.call = e.waiting (wait, move) s.call := by
  unfold waitAndPopInternal at h
  split at h
  · next x hx =>
    obtain ⟨hclosed, rfl⟩ := testPushAndThrowIfClosed_eq_error hx
    cases h
    exact ⟨.closed hclosed, rfl⟩
  · next hx =>
    obtain ⟨hopen, hb⟩ := testPushAndThrowIfClosed_eq_ok hx
    exact moveDataFromQueue_pops hopen h (by simpa using hb.symm)
  · next hx =>
    obtain ⟨hopen, hb⟩ := testPushAndThrowIfClosed_eq_ok hx
    have hqueue : s.queue = [] := by simpa using hb
    cases wait with
    | waitForDataPushToQueue => exact blockIn_pops hopen hqueue (by simp) h
    | waitForDataPushToQueueOrTimeout =>
      dsimp only at h
      split at h
      · cases h
        exact ⟨.givesUp hopen hqueue (by simp), rfl⟩
      · exact blockIn_pops hopen hqueue (by simp) h
    | rightNowThrowTimeoutExceptionIfNoExistDataAtQueue =>
      cases h
      exact ⟨.givesUp hopen hqueue (by simp), rfl⟩

theorem popAllOrEmpty_logs (h : popAllOrEmpty t notified s = some (s', e)) :
    e = (if s.closed then .threw t .closed else .returned t s.queue) ∧ s'.call = s.call := by
  unfold popAllOrEmpty at h
  split at h
  · next s₁ hpop =>
    cases h
    obtain ⟨hpops, hcall⟩ := waitAndPopInternal_pops hpop
    cases hpops with
    | givesUp hopen hqueue _ => exact ⟨by simp [hopen, hqueue], hcall⟩
  · next hne =>
    obtain ⟨hpops, hcall⟩ := waitAndPopInternal_pops h
    cases hpops with
    | closed hclosed => exact ⟨by simp [hclosed], hcall⟩
    | front _ _ hmove => cases hmove
    | all hopen _ _ => exact ⟨by simp [hopen], hcall⟩
    | blocks _ _ hwait => exact absurd rfl hwait
    | givesUp _ _ _ => exact (hne s' t h).elim

/-- **Every call leaves the event of its member.** -/
theorem run_logs {call : Call α} (h : call.run t notified s = some (s', e)) :
    call.Logs t s e ∧
      s'.call = call.functors.elim s.call fun functors => e.waiting functors s.call := by
  cases call with
  | close | clear => cases h; exact ⟨rfl, rfl⟩
  | push side batch => exact push_logs h
  | pushAll side batch =>
    cases batch with
    | nil =>
      cases h
      exact ⟨(ite_self _).symm, rfl⟩
    | cons data rest => exact push_logs h
  | waitAndPopInternal wait move => exact waitAndPopInternal_pops h
  | popAllOrEmpty => exact popAllOrEmpty_logs h

theorem resume_pops {expired : Bool} (h : resume t expired notified s = some (s', e)) :
    Pops t s (s.call t).1 (s.call t).2 e ∧ s'.call = s.call := by
  rw [resume] at h
  split at h
  · cases h
  · next cv hcv =>
    obtain ⟨hpops, hcall⟩ := waitAndPopInternal_pops h
    refine ⟨?_, ?_⟩
    · cases hpops with
      | closed hclosed => exact .closed hclosed
      | front hopen hqueue hmove => exact .front hopen hqueue hmove
      | all hopen hqueue hmove => exact .all hopen hqueue hmove
      | blocks hopen hqueue hwait => exact .blocks hopen hqueue hwait
      | givesUp hopen hqueue hwait => exact .givesUp hopen hqueue hwait
    · cases hpops with
      | blocks => exact hcall.trans (Function.update_eq_self t s.call)
      | closed | front | all | givesUp => exact hcall

/-! ### The law of conservation -/

/-- Nothing is lost or duplicated up to `s`, nor by a step from it, and a step does what
its member says. -/
structure Conserves (call : μ → Call α) (s : Traced τ α) : Prop where
  /-- an accepted item is queued, returned once or cleared -/
  perm : (s.events.flatMap Event.accepted).Perm
    (s.state.queue ++ s.events.flatMap Event.result ++ s.events.flatMap Event.removed)
  /-- the events are those of a deque -/
  replay : Replay s.events s.state.queue
  /-- pushes at the back only and no `clear`: what was returned was pushed first -/
  fifo : (∀ e ∈ s.events, e.AtBack) →
    s.events.flatMap Event.result <+: s.events.flatMap Event.accepted
  closed : s.state.closed = true ↔ Event.closed ∈ s.events
  push_after_close : s.state.closed = true → ∀ t m side batch notified s',
    call m = .push side batch ∨ call m = .pushAll side batch →
    s.next call (.call t m notified) = some s' →
    s' = { s with events := s.events ++ [.pushed side [] batch] }
  pop_after_close : s.state.closed = true → ∀ a s' t items,
    s.next call a = some s' → s'.events ≠ s.events ++ [.returned t items]
  pop_threw : ∀ a s' t x, s.next call a = some s' →
    s'.events = s.events ++ [.threw t x] → s'.state.queue = s.state.queue
  /-- a call leaves the event of its member, on the queue it finds -/
  called : ∀ t m notified s', s.next call (.call t m notified) = some s' →
    ∃ e, s'.events = s.events ++ [e] ∧ (call m).Logs t s.state e ∧
      e.Acts s.state.queue s'.state.queue ∧
      s'.state.call = (call m).functors.elim s.state.call fun functors =>
        e.waiting functors s.state.call
  /-- a thread that was woken goes on with the pop that it waits in -/
  resumed : ∀ t expired notified s', s.next call (.resume t expired notified) = some s' →
    ∃ e, s'.events = s.events ++ [e] ∧ Pops t s.state (s.state.call t).1 (s.state.call t).2 e ∧
      e.Acts s.state.queue s'.state.queue ∧ s'.state.call = s.state.call
  woken : ∀ t s', s.next call (.wake t) = some s' →
    s'.events = s.events ∧ s'.state.queue = s.state.queue ∧ s'.state.call = s.state.call
  /-- a thread that does not wait can call every member, and one that was woken can go on -/
  callable : ∀ t m, t ∉ s.state.pushToQueue.waiters →
    ∃ notified s', s.next call (.call t m notified) = some s'
  resumable : ∀ t ∈ s.state.pushToQueue.woken, ∀ expired,
    ∃ notified s', s.next call (.resume t expired notified) = some s'

section Threads

variable {call : μ → Call α} {s s' : Traced τ α} {m : μ} {expired : Bool}

theorem next_call (h : s.next call (.call t m notified) = some s') :
    ∃ e, s'.events = s.events ++ [e] ∧ (call m).Logs t s.state e ∧
      e.Acts s.state.queue s'.state.queue ∧
      s'.state.call = (call m).functors.elim s.state.call fun functors =>
        e.waiting functors s.state.call := by
  rw [Traced.next] at h
  split at h
  · cases h
  · obtain ⟨⟨s₁, e⟩, hr, rfl⟩ := Option.map_eq_some_iff.mp h
    obtain ⟨hlogs, hcall⟩ := run_logs hr
    exact ⟨e, rfl, hlogs, (run_effect hr).acts, hcall⟩

theorem next_resume (h : s.next call (.resume t expired notified) = some s') :
    ∃ e, s'.events = s.events ++ [e] ∧ Pops t s.state (s.state.call t).1 (s.state.call t).2 e ∧
      e.Acts s.state.queue s'.state.queue ∧ s'.state.call = s.state.call := by
  obtain ⟨⟨s₁, e⟩, hr, rfl⟩ := Option.map_eq_some_iff.mp h
  obtain ⟨hpops, hcall⟩ := resume_pops hr
  obtain ⟨cv, -, heffect⟩ := resume_effect hr
  exact ⟨e, rfl, hpops, heffect.acts, hcall⟩

theorem next_wake (h : s.next call (.wake t) = some s') :
    s'.events = s.events ∧ s'.state.queue = s.state.queue ∧ s'.state.call = s.state.call := by
  obtain ⟨cv, -, rfl⟩ := Option.map_eq_some_iff.mp h
  exact ⟨rfl, rfl, rfl⟩

theorem exists_next_call (m : μ) (h : t ∉ s.state.pushToQueue.waiters) :
    ∃ notified s', s.next call (.call t m notified) = some s' := by
  obtain ⟨notified, r, hr⟩ := exists_run (call m) h
  have hwaits : s.state.pushToQueue.waits t = false := by simpa [CondVar.waits] using h
  refine ⟨notified, s.record r, ?_⟩
  rw [Traced.next, hwaits, hr]
  rfl

theorem exists_next_resume (h : t ∈ s.state.pushToQueue.woken) (expired : Bool) :
    ∃ notified s', s.next call (.resume t expired notified) = some s' := by
  obtain ⟨notified, r, hr⟩ := exists_resume_run h expired
  exact ⟨notified, s.record r, congrArg (Option.map s.record) hr⟩

end Threads

theorem Follows.conserves {s : Traced τ α} (h : Follows s) (call : μ → Call α) :
    Conserves call s where
  perm := h.replay.perm
  replay := h.replay
  fifo := fun hback => ⟨s.state.queue, (h.replay.fifo hback).symm⟩
  closed := h.closed
  push_after_close := fun hclosed _ _ _ _ _ _ hm hn => next_push_of_closed hm hclosed hn
  pop_after_close := fun hclosed _ _ _ items hn =>
    (next_effect hn).not_returned_of_closed hclosed items
  pop_threw := fun _ _ _ _ hn he => (next_effect hn).queue_of_threw he
  called := fun _ _ _ _ hn => next_call hn
  resumed := fun _ _ _ _ hn => next_resume hn
  woken := fun _ _ hn => next_wake hn
  callable := fun _ m ht => exists_next_call m ht
  resumable := fun _ ht expired => exists_next_resume ht expired

end Garbage.UnboundedQueue
