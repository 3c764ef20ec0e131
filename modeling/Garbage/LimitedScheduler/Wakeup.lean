import Garbage.LimitedScheduler.Steps

/-!
# Wakeups that are lost, and when none is

A push and the store of the cancel flag do not take the mutex of the condition
variable, and neither do the notifications after them.  So a notification can
come between the moment a worker finds its predicate false and the moment it
blocks, and wakes nobody: `wakeup_lost` is a run in which the only worker of a
level then sleeps over a task.

Without such a notification no wakeup is lost (`not_stranded`).  The invariant
`Awake` says that a level with a task and a sleeper has a worker that was woken
or is on its way to the queue, unless the notification is still owed, and that
nobody sleeps at a level that `close` has notified.
-/

namespace Garbage.LimitedScheduler

open Foundation (CondVar Machine)

variable {κ : Type}

/-- A worker that will look into the queue before it can leave or block again. -/
def WorkerPc.committed : WorkerPc → Bool
  | .check | .unlock | .popping | .running _ => true
  | _ => false

/-- `close` has notified the level `l`. -/
def ClosePc.notified (l : Level) : ClosePc → Bool
  | .idle => false
  | .notify m => l < m
  | _ => true

theorem ClosePc.ne_idle_of_notified {close : ClosePc} {l : Level}
    (h : close.notified l = true) : close ≠ .idle := by
  rintro rfl
  cases h

/-- All workers of the level sleep in the wait, those that have returned apart,
although there is a task for which no notification is owed any more, or the
scheduler is cancelled and the level was notified. -/
def Stranded (s : State κ) (l : Level) : Prop :=
  (∃ w, w ∈ (s.cvLevels l).blocked) ∧
  (∀ w pc, s.Stands w l pc → w ∈ (s.cvLevels l).blocked ∨ pc = .returned) ∧
  ((s.tasks l ≠ [] ∧ ¬ s.Pending l) ∨ (s.isCancel = true ∧ s.close.notified l = true))

/-- The condition on a step: no notification while a worker of the level is
between its false predicate and its block. -/
def NotifiesOutsideWindow (s : State κ) : Action κ → Prop
  | .call caller _ => ∀ l task, s.calls caller = some (.pushed l task .notify) →
      ¬ s.At l (· = .window)
  | .close => ∀ l, s.close = .notify l → ¬ s.At l (· = .window)
  | _ => True

structure Awake (s : State κ) : Prop where
  waiting : ∀ l w, w ∈ (s.cvLevels l).waiters → s.Stands w l .waiting
  guarded : ∀ l, s.tasks l ≠ [] → ¬ s.Pending l →
    (s.cvLevels l).blocked ≠ [] ∨ s.At l (· = .window) →
    (s.cvLevels l).woken ≠ [] ∨ s.At l (WorkerPc.committed · = true)
  notified : ∀ l, s.close.notified l = true →
    (s.cvLevels l).blocked = [] ∧ ¬ s.At l (· = .window)
  cancelled : s.close ≠ .idle → s.isCancel = true

theorem Awake.someone_awake {s : State κ} (h : Awake s) (l : Level) : ¬ Stranded s l := by
  rintro ⟨⟨w, hw⟩, hall, ⟨htasks, hpending⟩ | ⟨-, hnotified⟩⟩
  · rcases h.guarded l htasks hpending (.inl (List.ne_nil_of_mem hw)) with hwoken | ⟨v, pc, hv, hpc⟩
    · obtain ⟨u, hu⟩ := List.exists_mem_of_ne_nil _ hwoken
      rcases hall u _ (h.waiting l u (CondVar.mem_waiters_of_woken hu)) with hb | hr
      · exact CondVar.ne_of_blocked_of_woken hb hu rfl
      · cases hr
    · rcases hall v pc hv with hb | rfl
      · cases hv.symm.trans (h.waiting l v (CondVar.mem_waiters_of_blocked hb))
        cases hpc
      · cases hpc
  · exact List.ne_nil_of_mem hw (h.notified l hnotified).1

theorem awake_make (limit : Nat) : Awake (State.make κ limit) where
  waiting := fun l w hw => by cases hw
  guarded := fun l htasks => absurd rfl htasks
  notified := fun l hl => by cases hl
  cancelled := fun hclose => absurd rfl hclose

/-! ### What keeps the invariant -/

namespace Awake

variable {s : State κ}

/-- The invariant speaks of these six parts of the state. -/
theorem frame (h : Awake s) {s' : State κ} (hworkers : s'.workers = s.workers)
    (htasks : s'.tasks = s.tasks) (hcvs : s'.cvLevels = s.cvLevels) (hcalls : s'.calls = s.calls)
    (hclose : s'.close = s.close) (hcancel : s'.isCancel = s.isCancel) : Awake s' := by
  refine ⟨fun l w hw => ?_, fun l hne hnone hs => ?_, fun l hl => ?_, fun hidle => ?_⟩
  · rw [State.Stands, hworkers]
    exact h.waiting l w (hcvs ▸ hw)
  · simp only [State.At, State.Stands, State.Pending, hworkers, htasks, hcvs, hcalls] at *
    exact h.guarded l hne hnone hs
  · simp only [State.At, State.Stands, hworkers, hcvs, hclose] at *
    exact h.notified l hl
  · rw [hcancel]
    exact h.cancelled (hclose ▸ hidle)

theorem setPc (h : Awake s) {w : Nat} {l : Level} {pc pc' : WorkerPc} (hw : s.Stands w l pc)
    (hpc : pc ≠ .waiting) (hwindow : pc' = .window → s.tasks l = [] ∧ s.isCancel = false)
    (hcommitted : pc.committed = true → pc'.committed = true ∨ s.tasks l = []) :
    Awake (s.setPc w l pc') := by
  refine ⟨fun m v hv => ?_, fun m htasks hpending hsleeper => ?_, fun m hm => ?_, h.cancelled⟩
  · have hold := h.waiting m v hv
    refine (stands_setPc hw).mpr (.inr ⟨?_, hold⟩)
    rintro rfl
    cases hw.symm.trans hold
    exact hpc rfl
  · have hold : (s.cvLevels m).blocked ≠ [] ∨ s.At m (· = .window) := by
      refine hsleeper.imp id fun hat => ?_
      rcases at_of_setPc hw hat with ⟨rfl, hwin⟩ | hat
      · exact absurd (hwindow hwin).1 htasks
      · exact hat
    refine (h.guarded m htasks hpending hold).imp id fun hat => at_setPc hw ?_ hat
    rintro rfl hc
    exact (hcommitted hc).resolve_right htasks
  · obtain ⟨hblocked, hnone⟩ := h.notified m hm
    refine ⟨hblocked, fun hat => ?_⟩
    rcases at_of_setPc hw hat with ⟨-, hwin⟩ | hat
    · have hcancel := h.cancelled (ClosePc.ne_idle_of_notified hm)
      exact absurd (hcancel.symm.trans (hwindow hwin).2) (by simp)
    · exact hnone hat

/-- A worker that goes on to a place outside the window, and looks into the queue
there if it was going to. -/
theorem goOn (h : Awake s) {w : Nat} {l : Level} {pc pc' : WorkerPc} (hw : s.Stands w l pc)
    (hpc : pc ≠ .waiting) (hwindow : pc' ≠ .window)
    (hcommitted : pc.committed = true → pc'.committed = true) : Awake (s.setPc w l pc') :=
  h.setPc hw hpc (fun h => absurd h hwindow) fun hc => .inl (hcommitted hc)

theorem shrink (h : Awake s) {tasks : Level → List Task}
    (htasks : ∀ l, tasks l ≠ [] → s.tasks l ≠ []) : Awake { s with tasks := tasks } :=
  ⟨h.waiting, fun l hl => h.guarded l (htasks l hl), h.notified, h.cancelled⟩

theorem append (h : Awake s) (l : Level) :
    Awake { s with workers := s.workers ++ [Worker.mk l .start] } := by
  have hat : ∀ m P, ¬ P .start →
      (({ s with workers := s.workers ++ [Worker.mk l .start] } : State κ).At m P ↔ s.At m P) := by
    intro m P hstart
    constructor
    · rintro ⟨v, q, hv, hq⟩
      rcases stands_append.mp hv with hv | ⟨-, -, rfl⟩
      · exact ⟨v, q, hv, hq⟩
      · exact absurd hq hstart
    · rintro ⟨v, q, hv, hq⟩
      exact ⟨v, q, stands_append.mpr (.inl hv), hq⟩
  refine ⟨fun m v hv => stands_append.mpr (.inl (h.waiting m v hv)), fun m htasks hpending hs => ?_,
    fun m hm => ?_, h.cancelled⟩
  · rw [hat m _ (by simp)] at hs
    rw [hat m _ (by simp [WorkerPc.committed])]
    exact h.guarded m htasks hpending hs
  · rw [hat m _ (by simp)]
    exact h.notified m hm

theorem closes (h : Awake s) {close : ClosePc} (hidle : s.close ≠ .idle)
    (hnotified : ∀ l, close.notified l = true → s.close.notified l = true) :
    Awake { s with close := close } :=
  ⟨h.waiting, h.guarded, fun l hl => h.notified l (hnotified l hl), fun _ => h.cancelled hidle⟩

theorem block (h : Awake s) {w : Nat} {l : Level} (cvs : Level → CondVar Nat)
    (hw : s.Stands w l .window) (hcv : (s.cvLevels l).block w = some (cvs l))
    (hcvs : ∀ m, m ≠ l → cvs m = s.cvLevels m) :
    Awake ({ s with cvLevels := cvs }.setPc w l .waiting) := by
  obtain ⟨hblocked, hwoken⟩ := CondVar.block_eq_some hcv
  have hwindow : ∀ m,
      (({ s with cvLevels := cvs } : State κ).setPc w l .waiting).At m (· = .window) →
      s.At m (· = .window) := fun m hat =>
    (at_of_setPc hw hat).resolve_left fun hwin => by cases hwin.2
  have hcommitted : ∀ m, s.At m (WorkerPc.committed · = true) →
      (({ s with cvLevels := cvs } : State κ).setPc w l .waiting).At m
        (WorkerPc.committed · = true) :=
    fun m hat => at_setPc hw (fun _ hc => by cases hc) hat
  refine ⟨fun m v hv => ?_, fun m htasks hpending hsleeper => ?_, fun m hm => ?_, h.cancelled⟩
  · change v ∈ (cvs m).waiters at hv
    by_cases hml : m = l
    · subst hml
      rcases (CondVar.mem_waiters_block hcv).mp hv with rfl | hv
      · exact (stands_setPc hw).mpr (.inl ⟨rfl, rfl, rfl⟩)
      · have hold := h.waiting m v hv
        refine (stands_setPc hw).mpr (.inr ⟨?_, hold⟩)
        rintro rfl
        cases hw.symm.trans hold
    · rw [hcvs m hml] at hv
      have hold := h.waiting m v hv
      refine (stands_setPc hw).mpr (.inr ⟨?_, hold⟩)
      rintro rfl
      cases hw.symm.trans hold
  · show (cvs m).woken ≠ [] ∨ _
    by_cases hml : m = l
    · subst hml
      rw [hwoken]
      exact (h.guarded m htasks hpending (.inr ⟨w, _, hw, rfl⟩)).imp id (hcommitted m)
    · change (cvs m).blocked ≠ [] ∨ _ at hsleeper
      rw [hcvs m hml] at hsleeper ⊢
      exact (h.guarded m htasks hpending (hsleeper.imp id (hwindow m))).imp id (hcommitted m)
  · obtain ⟨hnil, hnone⟩ := h.notified m hm
    have hml : m ≠ l := by
      rintro rfl
      exact hnone ⟨w, _, hw, rfl⟩
    refine ⟨?_, fun hat => hnone (hwindow m hat)⟩
    show (cvs m).blocked = []
    rw [hcvs m hml, hnil]

/-- A woken worker gets the mutex and goes on to check. -/
theorem resume (h : Awake s) {w : Nat} {l : Level} (cvs : Level → CondVar Nat)
    (hw : s.Stands w l .waiting) (hcv : (s.cvLevels l).resume w = some (cvs l))
    (hcvs : ∀ m, m ≠ l → cvs m = s.cvLevels m) :
    Awake ({ s with cvLevels := cvs }.setPc w l .check) := by
  obtain ⟨-, hblocked, -⟩ := CondVar.resume_eq_some hcv
  have hwindow : ∀ m, (({ s with cvLevels := cvs } : State κ).setPc w l .check).At m (· = .window) →
      s.At m (· = .window) := fun m hat =>
    (at_of_setPc hw hat).resolve_left fun hwin => by cases hwin.2
  refine ⟨fun m v hv => ?_, fun m htasks hpending hsleeper => ?_, fun m hm => ?_, h.cancelled⟩
  · change v ∈ (cvs m).waiters at hv
    have hold : v ≠ w ∧ s.Stands v m .waiting := by
      by_cases hml : m = l
      · subst hml
        obtain ⟨hne, hv⟩ := CondVar.mem_waiters_resume hcv hv
        exact ⟨hne, h.waiting m v hv⟩
      · rw [hcvs m hml] at hv
        have hold := h.waiting m v hv
        refine ⟨?_, hold⟩
        rintro rfl
        cases hw.symm.trans hold
        exact hml rfl
    exact (stands_setPc hw).mpr (.inr hold)
  · by_cases hml : m = l
    · subst hml
      exact .inr (at_setPc_self hw rfl)
    · show (cvs m).woken ≠ [] ∨ _
      change (cvs m).blocked ≠ [] ∨ _ at hsleeper
      rw [hcvs m hml] at hsleeper ⊢
      refine (h.guarded m htasks hpending (hsleeper.imp id (hwindow m))).imp id fun hat => ?_
      exact at_setPc hw (fun heq => absurd heq hml) hat
  · obtain ⟨hnil, hnone⟩ := h.notified m hm
    refine ⟨?_, fun hat => hnone (hwindow m hat)⟩
    show (cvs m).blocked = []
    by_cases hml : m = l
    · subst hml
      rw [hblocked, hnil]
    · rw [hcvs m hml, hnil]

theorem awaken (h : Awake s) {l : Level} (cvs : Level → CondVar Nat)
    (calls : Caller κ → Option Call) (hcvs : ∀ m, m ≠ l → cvs m = s.cvLevels m)
    (hmem : ∀ w, w ∈ (cvs l).waiters → w ∈ (s.cvLevels l).waiters)
    (hnil : (s.cvLevels l).blocked = [] → (cvs l).blocked = [])
    (hcover : (cvs l).blocked ≠ [] ∨ s.At l (· = .window) →
      (cvs l).woken ≠ [] ∨ s.At l (WorkerPc.committed · = true))
    (hpending : ∀ m, m ≠ l → s.Pending m → ({ s with calls := calls } : State κ).Pending m) :
    Awake { s with cvLevels := cvs, calls := calls } := by
  refine ⟨fun m v hv => ?_, fun m htasks hnone hsleeper => ?_, fun m hm => ?_, h.cancelled⟩
  · change v ∈ (cvs m).waiters at hv
    by_cases hml : m = l
    · subst hml
      exact h.waiting m v (hmem v hv)
    · rw [hcvs m hml] at hv
      exact h.waiting m v hv
  · by_cases hml : m = l
    · subst hml
      exact hcover hsleeper
    · show (cvs m).woken ≠ [] ∨ _
      change (cvs m).blocked ≠ [] ∨ _ at hsleeper
      rw [hcvs m hml] at hsleeper ⊢
      exact h.guarded m htasks (mt (hpending m hml) hnone) hsleeper
  · obtain ⟨hblocked, hnone⟩ := h.notified m hm
    refine ⟨?_, hnone⟩
    show (cvs m).blocked = []
    by_cases hml : m = l
    · subst hml
      exact hnil hblocked
    · rw [hcvs m hml, hblocked]

theorem wake (h : Awake s) {w : Nat} {l : Level} {cv : CondVar Nat}
    (hcv : (s.cvLevels l).wake w = some cv) :
    Awake { s with cvLevels := Function.update s.cvLevels l cv } := by
  have hself : Function.update s.cvLevels l cv l = cv := Function.update_self ..
  obtain ⟨hmem, -, hwoken⟩ := CondVar.wake_eq_some hcv
  refine h.awaken (l := l) (Function.update s.cvLevels l cv) s.calls
    (fun m hml => Function.update_of_ne hml ..) (fun v hv => ?_) (fun hnil => ?_) (fun _ => ?_)
    fun _ _ hp => hp
  · exact (CondVar.mem_waiters_wake hcv).mp (hself ▸ hv)
  · exact absurd hnil (List.ne_nil_of_mem hmem)
  · rw [hself, hwoken]
    exact .inl (List.cons_ne_nil _ _)

variable [DecidableEq κ]

theorem setCall (h : Awake s) {caller : Caller κ} {call : Option Call}
    (hkeep : ∀ l task pc, s.calls caller = some (.pushed l task pc) →
      ∃ task pc, call = some (.pushed l task pc)) : Awake (s.setCall caller call) :=
  ⟨h.waiting,
    fun l htasks hpending => h.guarded l htasks (mt (pending_setCall (hkeep l)) hpending),
    h.notified, h.cancelled⟩

theorem moves (h : Awake s) {caller : Caller κ} {l : Level} {task : Task} {pc pc' : PushedPc}
    (hcall : s.calls caller = some (.pushed l task pc)) :
    Awake (s.setCall caller (some (.pushed l task pc'))) :=
  h.setCall fun m task' pc'' hp => by
    rw [hcall] at hp
    cases hp
    exact ⟨_, _, rfl⟩

/-- A call pushes its task: from now on it owes a notification. -/
theorem push (h : Awake s) {caller : Caller κ} {l : Level} {task pushed : Nat}
    {tasks : Level → List Task} {pc : PushedPc} (hcall : s.calls caller = some (.push l))
    (htasks : ∀ m, m ≠ l → tasks m = s.tasks m) :
    Awake ({ s with tasks := tasks, pushed := pushed }.setCall caller
      (some (.pushed l task pc))) := by
  refine ⟨h.waiting, fun m hne hnone => ?_, h.notified, h.cancelled⟩
  by_cases hml : m = l
  · subst hml
    exact absurd ⟨caller, task, pc, by rw [calls_setCall, if_pos rfl]⟩ hnone
  · change tasks m ≠ [] at hne
    rw [htasks m hml] at hne
    refine h.guarded m hne (mt (fun hp => ?_) hnone)
    have hkeep : ∀ task' pc', s.calls caller = some (.pushed m task' pc') →
        ∃ task' pc', some (Call.pushed l task pc) = some (.pushed m task' pc') :=
      fun task' pc' hp => by rw [hcall] at hp; cases hp
    exact pending_setCall hkeep hp

/-- A notification outside the window. -/
theorem notify (h : Awake s) {caller : Caller κ} {l : Level} {task : Task} {cv : CondVar Nat}
    {choice : Option Nat} {accepted : List Task}
    (hcall : s.calls caller = some (.pushed l task .notify))
    (hcv : (s.cvLevels l).notifyOne choice = some cv) (hwindow : ¬ s.At l (· = .window)) :
    Awake ({ s with
      cvLevels := Function.update s.cvLevels l cv, accepted := accepted }.setCall caller none) := by
  have hself : Function.update s.cvLevels l cv l = cv := Function.update_self ..
  have hawake := h.awaken (l := l) (Function.update s.cvLevels l cv)
    (Function.update s.calls caller none) (fun m hml => Function.update_of_ne hml ..)
    (fun w hw => (CondVar.mem_waiters_notifyOne hcv).mp (hself ▸ hw))
    (fun hnil => by rw [hself]; exact CondVar.notifyOne_blocked_nil hcv hnil) (fun hsleeper => ?_)
    (fun m hml hp => ?_)
  · exact ⟨hawake.waiting, hawake.guarded, hawake.notified, hawake.cancelled⟩
  · rw [hself] at hsleeper ⊢
    exact .inl (CondVar.notifyOne_covers hcv (hsleeper.resolve_right hwindow))
  · refine pending_setCall (fun task' pc' hp => ?_) hp
    rw [hcall] at hp
    cases hp
    exact absurd rfl hml

end Awake

theorem ClosePc.notified_of_notified {l m : Level} :
    (if l = 0 then ClosePc.notify 1 else .join 0).notified m = true →
      m = l ∨ (ClosePc.notify l).notified m = true := by
  revert l m
  decide

theorem Awake.notifyAll {s : State κ} (h : Awake s) {l : Level} (hclose : s.close = .notify l)
    (hwindow : ¬ s.At l (· = .window)) :
    Awake { s with
      cvLevels := Function.update s.cvLevels l (s.cvLevels l).notifyAll
      close := if l = 0 then .notify 1 else .join 0 } := by
  have hself : Function.update s.cvLevels l (s.cvLevels l).notifyAll l =
    (s.cvLevels l).notifyAll := Function.update_self ..
  have hawake := h.awaken (l := l) (Function.update s.cvLevels l (s.cvLevels l).notifyAll)
    s.calls (fun m hml => Function.update_of_ne hml ..) (fun w hw => by rwa [hself] at hw)
    (fun _ => by rw [hself]; rfl)
    (fun hsleeper => absurd hsleeper (by rw [hself]; simpa using hwindow)) (fun m _ hp => hp)
  refine ⟨hawake.waiting, hawake.guarded, fun m hm => ?_,
    fun _ => h.cancelled (by rw [hclose]; simp)⟩
  rcases ClosePc.notified_of_notified hm with rfl | hm
  · exact ⟨(congrArg CondVar.blocked hself).trans rfl, hwindow⟩
  · exact hawake.notified m (by rw [← hclose] at hm; exact hm)

variable [DecidableEq κ] {s s' : State κ}

theorem Step.awake {a : Action κ} (hstep : Step s a s') (h : Awake s)
    (hc : NotifiesOutsideWindow s a) : Awake s' := by
  cases hstep with
  | start hw => exact h.goOn hw nofun nofun nofun
  | quit hw _ => exact h.goOn hw nofun nofun nofun
  | goOn hw _ => exact h.goOn hw nofun nofun nofun
  | @lock w l hw _ =>
    have h' : Awake { s with mtLevels := Function.update s.mtLevels l (some w) } :=
      h.frame rfl rfl rfl rfl rfl rfl
    exact h'.goOn hw nofun nofun fun _ => rfl
  | ready hw _ => exact h.goOn hw nofun nofun fun _ => rfl
  | unready hw htasks hcancel =>
    exact h.setPc hw (by simp) (fun _ => ⟨htasks, hcancel⟩) (fun _ => .inr htasks)
  | @block w l cv hw hcv =>
    have h' := h.block (Function.update s.cvLevels l cv) hw
      (by rw [Function.update_self]; exact hcv) (fun m hml => Function.update_of_ne hml ..)
    exact h'.frame rfl rfl rfl rfl rfl rfl
  | @resume w l cv hw _ hcv =>
    have h' := h.resume (Function.update s.cvLevels l cv) hw
      (by rw [Function.update_self]; exact hcv) (fun m hml => Function.update_of_ne hml ..)
    exact h'.frame rfl rfl rfl rfl rfl rfl
  | @unlock w l hw =>
    have h' : Awake { s with mtLevels := Function.update s.mtLevels l none } :=
      h.frame rfl rfl rfl rfl rfl rfl
    exact h'.goOn hw nofun nofun fun _ => rfl
  | drained hw htasks => exact h.setPc hw (by simp) (by simp) (fun _ => .inr htasks)
  | @pop w l task rest hw htasks =>
    have h' : Awake { s with tasks := Function.update s.tasks l rest } := by
      refine h.shrink fun m hne => ?_
      by_cases hml : m = l
      · rw [hml, htasks]
        exact List.cons_ne_nil _ _
      · rwa [Function.update_of_ne hml] at hne
    exact h'.goOn hw nofun nofun fun _ => rfl
  | @finish w l task hw _ =>
    have h' : Awake { s with executed := s.executed ++ [task] } :=
      h.frame rfl rfl rfl rfl rfl rfl
    exact h'.goOn hw nofun nofun fun _ => rfl
  | wake hcv => exact (h.wake hcv).frame rfl rfl rfl rfl rfl rfl
  | enter hcall _ => exact h.setCall fun l task pc hp => by rw [hcall] at hp; cases hp
  | early hcall hearly _ =>
    exact h.setCall fun l task pc hp => by
      rw [hcall] at hp
      cases hp
      cases hearly
  | push hcall => exact h.push hcall fun m hml => Function.update_of_ne hml ..
  | look hcall _ _ _ => exact h.moves hcall
  | lockMt hcall _ => exact (h.moves hcall).frame rfl rfl rfl rfl rfl rfl
  | @makeThread caller choice l task hcall =>
    exact ((h.append l).moves hcall).frame rfl rfl rfl rfl rfl rfl
  | register hcall => exact (h.moves hcall).frame rfl rfl rfl rfl rfl rfl
  | unlockMt hcall => exact (h.moves hcall).frame rfl rfl rfl rfl rfl rfl
  | notify hcall hcv => exact h.notify hcall hcv (hc _ _ hcall)
  | cancel hclose =>
    refine ⟨h.waiting, h.guarded, fun m hm => ?_, fun _ => rfl⟩
    have hlt : m < 0 := of_decide_eq_true (show decide (m < 0) = true from hm)
    exact absurd hlt (Fin.not_lt_zero m)
  | notifyAll hclose => exact h.notifyAll hclose (hc _ hclose)
  | takeThread hclose _ =>
    exact (h.closes (by rw [hclose]; simp) fun m _ => by rw [hclose]; rfl).frame
      rfl rfl rfl rfl rfl rfl
  | leave hclose _ => exact h.closes (by rw [hclose]; simp) fun m _ => by rw [hclose]; rfl
  | joined hclose _ => exact h.closes (by rw [hclose]; simp) fun m _ => by rw [hclose]; rfl
  | closed hclose =>
    exact (h.closes (by rw [hclose]; simp) fun m _ => by rw [hclose]; rfl).frame
      rfl rfl rfl rfl rfl rfl

/-- **No lost wakeup** in a run whose notifications all come while no worker of
the level is between its false predicate and its block. -/
theorem not_stranded {limit : Nat} (h : (machine κ limit).ReachableBy NotifiesOutsideWindow s)
    (l : Level) : ¬ Stranded s l := by
  refine (h.invariant (I := Awake) (fun s hinit => ?_) (fun s a s' hs hc hn => ?_)).someone_awake l
  · rw [show s = State.make κ limit from hinit]
    exact awake_make limit
  · exact (next_step hn).awake hs hc

/-- A client schedules while the worker sleeps: the notification wakes it. -/
theorem not_stranded_notified :
    let as : List (Action Unit) := List.replicate 5 (.worker 0) ++ [.enter (.client ())] ++
      List.replicate 6 (.call (.client ()) ⟨true, true, some 0⟩)
    ∃ s, (machine Unit 4).run (State.make Unit 4) as = some s ∧ s.tasks 0 = [0] ∧
      (s.cvLevels 0).woken = [0] ∧ ¬ Stranded s 0 := by
  intro as
  have hsteps : (machine Unit 4).AllSteps NotifiesOutsideWindow (State.make Unit 4) as := by
    -- the only notification comes when worker 0 has blocked
    have hnotify : ∀ s : State Unit, s.workers = [⟨0, .waiting⟩, ⟨1, .start⟩] →
        ¬ s.At 0 (· = .window) := by
      rintro s hs ⟨w, pc, hw, rfl⟩
      rw [State.Stands, hs] at hw
      match w, hw with
      | 0, hw => cases hw
      | 1, hw => cases hw
    repeat' refine Machine.AllSteps.cons rfl ?_ ?_
    all_goals first | trivial | (intro l task h; cases h; try exact hnotify _ rfl)
  have hlast : ∀ s, (machine Unit 4).run (State.make Unit 4) as = some s → ¬ Stranded s 0 :=
    fun s h => not_stranded (Machine.ReachableBy.run (.init rfl) hsteps h) 0
  exact ⟨_, rfl, rfl, rfl, hlast _ rfl⟩

/-- **A wakeup is lost**: the only worker of level 0 finds its predicate false, a
client pushes a task and notifies nobody, and the worker blocks. -/
theorem wakeup_lost :
    let as : List (Action Unit) := List.replicate 4 (.worker 0) ++ [.enter (.client ())] ++
      List.replicate 6 (.call (.client ()) ⟨true, true, none⟩) ++ [.worker 0]
    ∃ s, (machine Unit 4).run (State.make Unit 4) as = some s ∧
      (∀ w pc, s.Stands w 0 pc → w ∈ (s.cvLevels 0).blocked) ∧ s.tasks 0 = [0] ∧
      (∀ l, ¬ s.Pending l) ∧ Stranded s 0 := by
  intro as
  obtain ⟨s, hrun, hworkers, hb, htasks, hcalls⟩ : ∃ s,
      (machine Unit 4).run (State.make Unit 4) as = some s ∧
      s.workers = [⟨0, .waiting⟩, ⟨1, .start⟩] ∧ (s.cvLevels 0).blocked = [0] ∧
      s.tasks 0 = [0] ∧ ∀ caller, s.calls caller = none :=
    ⟨_, rfl, rfl, rfl, rfl, fun caller => by cases caller <;> rfl⟩
  have hblocked : ∀ w pc, s.Stands w 0 pc → w ∈ (s.cvLevels 0).blocked := by
    intro w pc hw
    rw [State.Stands, hworkers] at hw
    match w, hw with
    | 0, _ => rw [hb]; exact List.mem_singleton_self 0
    | 1, hw => cases hw
  have hpending : ∀ l, ¬ s.Pending l := by
    rintro l ⟨caller, task, pc, hcall⟩
    rw [hcalls caller] at hcall
    cases hcall
  exact ⟨s, hrun, hblocked, htasks, hpending, ⟨0, by rw [hb]; exact List.mem_singleton_self 0⟩,
    fun w pc hw => .inl (hblocked w pc hw), .inl ⟨by rw [htasks]; simp, hpending 0⟩⟩

end Garbage.LimitedScheduler
