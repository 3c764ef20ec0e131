import Garbage.UnboundedQueue.Effects

/-!
# No lost wakeup

A batch of many items is announced by one `notify_one`, and a pop that leaves
data behind passes the notification on.  What this chain keeps is `Covered`: as
long as an open queue has data and a blocked waiter, a woken waiter is on its way
to the data, and a closed queue has no blocked waiter.

The section that follows a wait starts without the waiter that has just left,
so there only the second half is known before it (`PopEffect.covered`); what the
section does restores the first.
-/

namespace Garbage.UnboundedQueue

open Foundation (CondVar Machine)

variable {τ α μ : Type}

/-- An open queue with data and a blocked waiter has a woken one, a closed queue
has no blocked waiter. -/
structure Covered (s : State τ α) : Prop where
  woken : s.closed = false → s.queue ≠ [] → s.pushToQueue.blocked ≠ [] → s.pushToQueue.woken ≠ []
  closed : s.closed = true → s.pushToQueue.blocked = []

/-- No waiter of the queue is overlooked. -/
def NoLostWakeup (s : State τ α) : Prop :=
  (s.closed = false → s.queue ≠ [] → ∀ t ∈ s.pushToQueue.blocked,
    ∃ u ∈ s.pushToQueue.woken, u ≠ t) ∧
  (s.closed = true → s.pushToQueue.blocked = [])

theorem Covered.noLostWakeup {s : State τ α} (h : Covered s) : NoLostWakeup s := by
  refine ⟨fun hopen hqueue t ht => ?_, h.closed⟩
  obtain ⟨u, hu⟩ := List.exists_mem_of_ne_nil _ (h.woken hopen hqueue (List.ne_nil_of_mem ht))
  exact ⟨u, hu, CondVar.ne_of_blocked_of_woken ht hu⟩

theorem covered_make : Covered (State.make τ α) :=
  ⟨fun _ hqueue => absurd rfl hqueue, fun _ => rfl⟩

variable [DecidableEq τ] {s s' : State τ α} {e : Event τ α} {t : τ}

/-- `wait_and_pop_internal` leaves a covered queue, whoever was woken before. -/
theorem PopEffect.covered (h : PopEffect t s s' e)
    (hs : s.closed = true → s.pushToQueue.blocked = []) : Covered s' := by
  cases h with
  | returned hopen hqueue hcv =>
    refine ⟨fun _ hrest hblocked => ?_, fun hclosed => absurd (hopen ▸ hclosed) (by simp)⟩
    rcases hcv with ⟨hnil, -⟩ | ⟨choice, hcv⟩
    · exact absurd hnil hrest
    · exact CondVar.notifyOne_covers hcv hblocked
  | threwClosed hclosed =>
    exact ⟨fun hopen => absurd (hclosed ▸ hopen) (by simp), hs⟩
  | threwTimeout hopen hqueue => exact ⟨fun _ hne => absurd hqueue hne, hs⟩
  | blocked hopen hqueue hcv =>
    exact ⟨fun _ hne => absurd hqueue hne, fun hclosed => absurd (hopen ▸ hclosed) (by simp)⟩

theorem Effect.covered (h : Effect s s' e) (hs : Covered s) : Covered s' := by
  cases h with
  | closed => exact ⟨fun hopen => absurd hopen (by simp), fun _ => rfl⟩
  | cleared => exact ⟨fun _ hqueue => absurd rfl hqueue, hs.closed⟩
  | pushed hopen hcv =>
    exact ⟨fun _ _ hblocked => CondVar.notifyOne_covers hcv hblocked,
      fun hclosed => absurd (hopen ▸ hclosed) (by simp)⟩
  | refused => exact hs
  | popped h => exact h.covered hs.closed

/-- A waiter that wakes on its own is one more that covers the others. -/
theorem Covered.wake {cv : CondVar τ} (hs : Covered s) (hcv : s.pushToQueue.wake t = some cv) :
    Covered { s with pushToQueue := cv } := by
  obtain ⟨hmem, hblocked, hwoken⟩ := CondVar.wake_eq_some hcv
  refine ⟨fun _ _ _ => ?_, fun hclosed => ?_⟩
  · show cv.woken ≠ []
    rw [hwoken]
    exact List.cons_ne_nil _ _
  · exact absurd (hs.closed hclosed) (List.ne_nil_of_mem hmem)

theorem StepEffect.covered {s s' : Traced τ α} (h : StepEffect s s') (hs : Covered s.state) :
    Covered s'.state := by
  cases h with
  | called h => exact h.covered hs
  | @resumed t cv _ _ hcv h =>
    refine h.covered fun hclosed => ?_
    show cv.blocked = []
    rw [(CondVar.resume_eq_some hcv).2.1]
    exact hs.closed hclosed
  | woken hcv => exact hs.wake hcv

theorem covered_reachable {call : μ → Call α} {s : Traced τ α}
    (h : (machine τ call).Reachable s) : Covered s.state :=
  reachable_invariant covered_make (fun _ _ hs hstep => hstep.covered hs) h

/-- **No lost wakeup.**  In every reachable state of either class, with any
number of threads: while an open queue has data, each blocked waiter has another
waiter beside it that was woken and has still to check the queue, and a closed
queue has no blocked waiter. -/
theorem no_lost_wakeup (τ α : Type) [DecidableEq τ] :
    (∀ s, (TUnboundedQueueForNonThrowMovable.machine τ α).Reachable s → NoLostWakeup s.state) ∧
    (∀ s, (TUnboundedQueue_.machine τ α).Reachable s → NoLostWakeup s.state) :=
  ⟨fun _ h => (covered_reachable h).noLostWakeup, fun _ h => (covered_reachable h).noLostWakeup⟩

/-- Two waiters, and a batch of two items with its single notification: the
second waiter stays blocked beside the woken one. -/
theorem no_lost_wakeup_batch :
    let as : List (Action Nat (TUnboundedQueue_.Member Nat)) :=
      [.call 0 .waitAndPopAll none, .call 1 .waitAndPopAll none,
        .call 2 (.pushBackAll [7, 8]) (some 0)]
    ∃ s, (TUnboundedQueue_.machine Nat Nat).run ⟨State.make Nat Nat, []⟩ as = some s ∧
      s.state.queue = [7, 8] ∧ s.state.pushToQueue.blocked = [1] ∧
      s.state.pushToQueue.woken = [0] ∧ NoLostWakeup s.state := by
  intro as
  have hlast : ∀ s, (TUnboundedQueue_.machine Nat Nat).run ⟨State.make Nat Nat, []⟩ as = some s →
      NoLostWakeup s.state :=
    fun s h => (no_lost_wakeup Nat Nat).2 s (Machine.Reachable.run (.init rfl) h)
  exact ⟨_, rfl, rfl, rfl, rfl, hlast _ rfl⟩

end Garbage.UnboundedQueue
