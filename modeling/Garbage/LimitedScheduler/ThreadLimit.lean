import Garbage.LimitedScheduler.ExactlyOnce

/-!
# The thread limits

`addThread` compares the number of handles in `_threads[level]` with the limit
twice, and only the second time under `_mt[level]`.  What the lock protects is
the difference between the threads that run and the handles: a caller has room
from its second check to its `makeThread`, and between `makeThread` and the
registration of the handle there is one thread more than there are handles
(`Limited`).  All of that happens in the hand of one caller.

As long as `close` is not called no worker returns, so the worker that the
constructor gave a level stays.
-/

namespace Garbage.LimitedScheduler

open Foundation (Machine)

variable {κ : Type}

/-- The number of threads ever created for a level. -/
def State.created (s : State κ) (l : Level) : Nat := (s.workers.map Worker.level).count l

/-- A place between the lock of `_mt` and its release. -/
def PushedPc.locked : PushedPc → Bool
  | .recheck | .makeThread | .register _ | .unlock => true
  | _ => false

/-- A thread runs whose handle is not in `_threads` yet. -/
def State.Registering (s : State κ) (l : Level) : Prop :=
  ∃ caller task w, s.calls caller = some (.pushed l task (.register w))

/-- A call has no handle to register. -/
def Unregistered (call : Option Call) : Prop :=
  ∀ l task w, call ≠ some (.pushed l task (.register w))

/-- The invariant of `addThread` as long as the scheduler is not closed. -/
structure Limited (s : State κ) : Prop where
  uncancelled : s.isCancel = false
  staffed : ∀ l, s.Alive l
  holder : ∀ caller l task pc, s.calls caller = some (.pushed l task pc) → pc.locked = true →
    s.mt l = some caller
  room : ∀ caller l task, s.calls caller = some (.pushed l task .makeThread) →
    (s.threads l).length < s.limits l
  registering : ∀ l, s.Registering l → s.created l = (s.threads l).length + 1
  settled : ∀ l, ¬ s.Registering l → s.created l = (s.threads l).length
  within : ∀ l, s.created l ≤ s.limits l

theorem two_le_threadCount (limit : Nat) : 2 ≤ threadCount limit := by
  simp only [threadCount, minThreadCount, maxThreadCount, maxLevelCount]
  omega

theorem created_make (limit : Nat) (l : Level) : (State.make κ limit).created l = 1 := by
  show List.count l [0, 1] = 1
  revert l
  decide

theorem stands_make (limit : Nat) (l : Level) : (State.make κ limit).Stands l.val l .start := by
  show [Worker.mk 0 .start, Worker.mk 1 .start][l.val]? = some (Worker.mk l .start)
  revert l
  decide

theorem limited_make (limit : Nat) : Limited (State.make κ limit) where
  uncancelled := rfl
  staffed l := ⟨l.val, .start, stands_make limit l, by simp⟩
  holder _ _ _ _ hcall := nomatch hcall
  room _ _ _ hcall := nomatch hcall
  registering _ hl := nomatch hl.choose_spec.choose_spec.choose_spec
  settled l _ := created_make limit l
  within l := by
    rw [created_make]
    exact Nat.le_of_succ_le (two_le_threadCount limit)

theorem map_level_set {workers : List Worker} {w : Nat} {l : Level} {pc pc' : WorkerPc}
    (hw : workers[w]? = some ⟨l, pc⟩) :
    (workers.set w ⟨l, pc'⟩).map Worker.level = workers.map Worker.level := by
  obtain ⟨hlt, hget⟩ := List.getElem?_eq_some_iff.mp hw
  have hlt' : w < (workers.map Worker.level).length := by simpa using hlt
  have hl : (workers.map Worker.level)[w] = l := by
    rw [List.getElem_map, hget]
  rw [List.map_set]
  conv_lhs => rw [← hl]
  exact List.set_getElem_self _

namespace Limited

variable {s : State κ}

/-- The invariant speaks of these parts of the state. -/
theorem frame (h : Limited s) {s' : State κ} (hcancel : s'.isCancel = s.isCancel)
    (hworkers : s'.workers = s.workers) (hcalls : s'.calls = s.calls) (hmt : s'.mt = s.mt)
    (hthreads : s'.threads = s.threads) (hlimits : s'.limits = s.limits) : Limited s' := by
  obtain ⟨limits, isCancel, isClosed, tasks, threads, cvLevels, mtLevels, mt, workers, calls, close,
    pushed, executed, accepted⟩ := s'
  subst hcancel hworkers hcalls hmt hthreads hlimits
  exact ⟨h.uncancelled, h.staffed, h.holder, h.room, h.registering, h.settled, h.within⟩

theorem setPc (h : Limited s) {w : Nat} {l : Level} {pc pc' : WorkerPc} (hw : s.Stands w l pc)
    (hpc' : pc' ≠ .returned) : Limited (s.setPc w l pc') := by
  have hcreated : ∀ m, (s.setPc w l pc').created m = s.created m := fun m =>
    congrArg (List.count m) (map_level_set hw)
  refine ⟨h.uncancelled, fun m => ?_, h.holder, h.room, fun m hm => ?_, fun m hm => ?_, fun m => ?_⟩
  · exact at_setPc hw (fun _ _ => hpc') (h.staffed m)
  · exact (hcreated m).trans (h.registering m hm)
  · exact (hcreated m).trans (h.settled m hm)
  · exact (hcreated m).trans_le (h.within m)

theorem unique (h : Limited s) {c d : Caller κ} {l : Level} {task task' : Task}
    {pc pc' : PushedPc} (hc : s.calls c = some (.pushed l task pc)) (hpc : pc.locked = true)
    (hd : s.calls d = some (.pushed l task' pc')) (hpc' : pc'.locked = true) : d = c :=
  Option.some.inj ((h.holder d l task' pc' hd hpc').symm.trans (h.holder c l task pc hc hpc))

/-- While another place holds `_mt` no handle is missing. -/
theorem not_registering (h : Limited s) {c : Caller κ} {l : Level} {task : Task} {pc : PushedPc}
    (hc : s.calls c = some (.pushed l task pc)) (hpc : pc.locked = true)
    (hpc' : pc.unregistered = true) : ¬ s.Registering l := by
  intro ⟨d, task', w, hd⟩
  cases h.unique hc hpc hd rfl
  cases hc.symm.trans hd
  cases hpc'

theorem setMt (h : Limited s) {l : Level} (holder : Option (Caller κ))
    (hfree : ∀ caller task pc, s.calls caller = some (.pushed l task pc) → pc.locked = false) :
    Limited { s with mt := Function.update s.mt l holder } := by
  refine ⟨h.uncancelled, h.staffed, ?_, h.room, h.registering, h.settled, h.within⟩
  intro caller m task pc hcall hpc
  have hml : m ≠ l := by
    rintro rfl
    exact absurd (hfree caller task pc hcall) (by simp [hpc])
  exact (Function.update_of_ne hml _ _).trans (h.holder caller m task pc hcall hpc)

variable [DecidableEq κ]

theorem setCall (h : Limited s) {caller : Caller κ} {call : Option Call}
    (hold : Unregistered (s.calls caller)) (hnew : Unregistered call)
    (hholder : ∀ l task pc, call = some (.pushed l task pc) → pc.locked = true →
      s.mt l = some caller)
    (hroom : ∀ l task, call = some (.pushed l task .makeThread) →
      (s.threads l).length < s.limits l) : Limited (s.setCall caller call) := by
  have hreg : ∀ m, (s.setCall caller call).Registering m ↔ s.Registering m := by
    intro m
    constructor
    · rintro ⟨other, task, w, hc⟩
      rw [calls_setCall] at hc
      split at hc
      · exact absurd hc (hnew m task w)
      · exact ⟨other, task, w, hc⟩
    · rintro ⟨other, task, w, hc⟩
      refine ⟨other, task, w, ?_⟩
      rw [calls_setCall, if_neg, hc]
      rintro rfl
      exact hold m task w hc
  refine ⟨h.uncancelled, h.staffed, ?_, ?_, ?_, ?_, h.within⟩
  · intro other m task pc hc hpc
    rw [calls_setCall] at hc
    split at hc
    · next heq => exact heq ▸ hholder m task pc hc hpc
    · exact h.holder other m task pc hc hpc
  · intro other m task hc
    rw [calls_setCall] at hc
    split at hc
    · exact hroom m task hc
    · exact h.room other m task hc
  · exact fun m hm => h.registering m ((hreg m).mp hm)
  · exact fun m hm => h.settled m fun hm' => hm ((hreg m).mpr hm')

theorem unlocked (h : Limited s) {caller : Caller κ} {call : Option Call}
    (hold : Unregistered (s.calls caller))
    (hnew : ∀ l task pc, call = some (.pushed l task pc) → pc.locked = false) :
    Limited (s.setCall caller call) := by
  apply h.setCall hold
  · intro l task w hcall
    exact absurd (hnew l task _ hcall) (by simp [PushedPc.locked])
  · intro l task pc hcall hpc
    exact absurd (hnew l task pc hcall) (by simp [hpc])
  · intro l task hcall
    exact absurd (hnew l task _ hcall) (by simp [PushedPc.locked])

theorem lockMt (h : Limited s) {caller : Caller κ} {l : Level} {task : Task}
    (hcall : s.calls caller = some (.pushed l task .lock)) (hm : s.mt l = none) :
    Limited ({ s with mt := Function.update s.mt l (some caller) }.setCall caller
      (some (.pushed l task .recheck))) := by
  have hfree : ∀ other task' pc, s.calls other = some (.pushed l task' pc) → pc.locked = false := by
    intro other task' pc hother
    by_contra hpc
    have hholder := h.holder other l task' pc hother (by simpa using hpc)
    rw [hm] at hholder
    cases hholder
  refine (h.setMt (some caller) hfree).setCall ?_ ?_ ?_ ?_
  · intro m task' w hc
    cases hcall.symm.trans hc
  · intro m task' w hc
    cases hc
  · intro m task' pc hc _
    cases hc
    exact Function.update_self ..
  · intro m task' hc
    cases hc

theorem unlockMt (h : Limited s) {caller : Caller κ} {l : Level} {task : Task}
    (hcall : s.calls caller = some (.pushed l task .unlock)) :
    Limited ({ s with mt := Function.update s.mt l none }.setCall caller
      (some (.pushed l task .notify))) := by
  have hgone : Limited (s.setCall caller (some (.pushed l task .notify))) := by
    apply h.unlocked
    · intro m task' w hc
      cases hcall.symm.trans hc
    · intro m task' pc hc
      cases hc
      rfl
  refine hgone.setMt none fun other task' pc hother => ?_
  rw [calls_setCall] at hother
  split at hother
  · cases hother
    rfl
  · next hne =>
    by_contra hpc
    exact hne (h.unique hcall rfl hother (by simpa using hpc))

theorem makeThread (h : Limited s) {caller : Caller κ} {l : Level} {task : Task}
    (hcall : s.calls caller = some (.pushed l task .makeThread)) :
    Limited ({ s with workers := s.workers ++ [Worker.mk l .start] }.setCall caller
      (some (.pushed l task (.register s.workers.length)))) := by
  have hsettled := h.settled l (h.not_registering hcall rfl rfl)
  have hroom := h.room caller l task hcall
  have hcreated : ∀ m, ((s.workers ++ [Worker.mk l .start]).map Worker.level).count m =
      s.created m + if m = l then 1 else 0 := by
    intro m
    rw [List.map_append, List.count_append]
    congr 1
    by_cases hml : m = l
    · simp [hml]
    · simp [hml, Ne.symm hml]
  refine ⟨h.uncancelled, fun m => ?_, ?_, ?_, ?_, ?_, fun m => ?_⟩
  · obtain ⟨v, q, hv, hq⟩ := h.staffed m
    exact ⟨v, q, stands_append.mpr (.inl hv), hq⟩
  · intro other m task' pc hc hpc
    rw [calls_setCall] at hc
    split at hc
    · next heq =>
      cases hc
      exact heq ▸ h.holder caller l task _ hcall rfl
    · exact h.holder other m task' pc hc hpc
  · intro other m task' hc
    rw [calls_setCall] at hc
    split at hc
    · cases hc
    · exact h.room other m task' hc
  · rintro m ⟨other, task', w, hc⟩
    refine (hcreated m).trans ?_
    rw [calls_setCall] at hc
    split at hc
    · cases hc
      rw [if_pos rfl, hsettled]
      rfl
    · next hne =>
      have hml : m ≠ l := by
        rintro rfl
        exact hne (h.unique hcall rfl hc rfl)
      rw [if_neg hml]
      exact h.registering m ⟨other, task', w, hc⟩
  · intro m hm
    have hml : m ≠ l := by
      rintro rfl
      exact hm ⟨caller, task, _, by rw [calls_setCall, if_pos rfl]⟩
    refine (hcreated m).trans ?_
    rw [if_neg hml]
    apply h.settled m
    rintro ⟨other, task', w, hc⟩
    refine hm ⟨other, task', w, ?_⟩
    rw [calls_setCall, if_neg, hc]
    rintro rfl
    cases hcall.symm.trans hc
  · refine (hcreated m).trans_le ?_
    split
    · next hml =>
      subst hml
      rw [hsettled]
      exact hroom
    · exact h.within m

/-- The handle of the new thread goes into `_threads`. -/
theorem register (h : Limited s) {caller : Caller κ} {l : Level} {task : Task} {w : Nat}
    (hcall : s.calls caller = some (.pushed l task (.register w))) :
    Limited ({ s with threads := Function.update s.threads l (s.threads l ++ [w]) }.setCall caller
      (some (.pushed l task .unlock))) := by
  have hone := h.registering l ⟨caller, task, w, hcall⟩
  have hthreads : ∀ m, m ≠ l →
      Function.update s.threads l (s.threads l ++ [w]) m = s.threads m := fun m hml =>
    Function.update_of_ne hml _ _
  have hother : ∀ {other task' pc}, other ≠ caller →
      s.calls other = some (.pushed l task' pc) → pc.locked = false := by
    intro other task' pc hne hc
    by_contra hpc
    exact hne (h.unique hcall rfl hc (by simpa using hpc))
  refine ⟨h.uncancelled, h.staffed, ?_, ?_, ?_, ?_, h.within⟩
  · intro other m task' pc hc hpc
    rw [calls_setCall] at hc
    split at hc
    · next heq =>
      cases hc
      exact heq ▸ h.holder caller l task _ hcall rfl
    · exact h.holder other m task' pc hc hpc
  · intro other m task' hc
    rw [calls_setCall] at hc
    split at hc
    · cases hc
    · next hne =>
      have hml : m ≠ l := by
        rintro rfl
        cases hother hne hc
      show (Function.update s.threads l (s.threads l ++ [w]) m).length < s.limits m
      rw [hthreads m hml]
      exact h.room other m task' hc
  · rintro m ⟨other, task', v, hc⟩
    rw [calls_setCall] at hc
    split at hc
    · cases hc
    · next hne =>
      have hml : m ≠ l := by
        rintro rfl
        cases hother hne hc
      show s.created m = (Function.update s.threads l (s.threads l ++ [w]) m).length + 1
      rw [hthreads m hml]
      exact h.registering m ⟨other, task', v, hc⟩
  · intro m hm
    show s.created m = (Function.update s.threads l (s.threads l ++ [w]) m).length
    by_cases hml : m = l
    · subst hml
      rw [Function.update_self, List.length_append]
      exact hone
    · rw [hthreads m hml]
      apply h.settled m
      rintro ⟨other, task', v, hc⟩
      refine hm ⟨other, task', v, ?_⟩
      rw [calls_setCall, if_neg, hc]
      rintro rfl
      cases hcall.symm.trans hc
      exact hml rfl

end Limited

/-- A step of `addThread` that only looks keeps its hold on `_mt`. -/
theorem locked_of_look {s : State κ} [DecidableEq κ] {caller : Caller κ} {choice : Choice}
    {l : Level} {task : Task} {pc pc' : PushedPc} (hlocal : pc.local = true)
    (h : pushedStep s caller choice l task pc =
      some (s.setCall caller (some (.pushed l task pc')))) : pc'.locked = pc.locked := by
  have hcall : ∀ {q}, some (s.setCall caller (some (.pushed l task q))) =
      some (s.setCall caller (some (.pushed l task pc'))) → q = pc' := by
    intro q hq
    have hcalls := congrArg (fun t => t.calls caller) (Option.some.inj hq)
    simp only [calls_setCall, if_pos] at hcalls
    cases hcalls
    rfl
  cases pc with
  | threadsSize | tasksSize | findFree | recheck =>
    rw [← hcall h]
    split <;> rfl
  | makeThread =>
    dsimp only [pushedStep] at h
    split at h
    · have hworkers := congrArg (fun t => t.workers.length) (Option.some.inj h)
      simp [State.setCall] at hworkers
    · rw [← hcall h]
      rfl
  | lock | register | unlock | notify => cases hlocal

variable [DecidableEq κ] {s s' : State κ}

theorem next_limited {a : Action κ} (ha : a ≠ .close) (hn : next s a = some s')
    (h : Limited s) : Limited s' := by
  have hstep := next_step hn
  cases hstep with
  | start hw => exact h.setPc hw (by simp)
  | quit hw hcancel => exact absurd (h.uncancelled.symm.trans hcancel) (by decide)
  | goOn hw _ => exact h.setPc hw (by simp)
  | lock hw _ => exact (h.setPc hw (by simp)).frame rfl rfl rfl rfl rfl rfl
  | ready hw _ => exact h.setPc hw (by simp)
  | unready hw _ _ => exact h.setPc hw (by simp)
  | block hw _ => exact (h.setPc hw (by simp)).frame rfl rfl rfl rfl rfl rfl
  | resume hw _ _ => exact (h.setPc hw (by simp)).frame rfl rfl rfl rfl rfl rfl
  | unlock hw => exact (h.setPc hw (by simp)).frame rfl rfl rfl rfl rfl rfl
  | drained hw _ => exact h.setPc hw (by simp)
  | pop hw _ => exact (h.setPc hw (by simp)).frame rfl rfl rfl rfl rfl rfl
  | finish hw _ => exact (h.setPc hw (by simp)).frame rfl rfl rfl rfl rfl rfl
  | wake _ => exact h.frame rfl rfl rfl rfl rfl rfl
  | enter hcall _ =>
    apply h.unlocked
    · simp [Unregistered, hcall]
    · simp
  | early hcall hearly hearly' =>
    apply h.unlocked
    · intro l task w hc
      cases hcall.symm.trans hc
      cases hearly
    · rintro l task pc rfl
      cases hearly' _ rfl
  | push hcall =>
    refine (h.unlocked ?_ ?_).frame rfl rfl rfl rfl rfl rfl
    · simp [Unregistered, hcall]
    · simp [PushedPc.locked]
  | @look caller choice l task pc pc' hcall hlocal hpc' hroom =>
    have hlook : pushedStep s caller choice l task pc =
        some (s.setCall caller (some (.pushed l task pc'))) := by
      rwa [next, callStep, hcall] at hn
    have hlocked := locked_of_look hlocal hlook
    apply h.setCall
    · intro m task' w hc
      cases hcall.symm.trans hc
      cases hlocal
    · intro m task' w hc
      cases hc
      cases hpc'
    · intro m task' q hc hq
      cases hc
      exact h.holder caller l task pc hcall (hlocked ▸ hq)
    · intro m task' hc
      cases hc
      exact hroom rfl
  | lockMt hcall hm => exact h.lockMt hcall hm
  | makeThread hcall => exact h.makeThread hcall
  | register hcall => exact h.register hcall
  | unlockMt hcall => exact h.unlockMt hcall
  | notify hcall _ =>
    refine (h.unlocked ?_ ?_).frame rfl rfl rfl rfl rfl rfl
    · simp [Unregistered, hcall]
    · simp
  | cancel | notifyAll | takeThread | leave | joined | closed => exact absurd rfl ha

/-- **The thread limits.**  Whatever the limit of the constructor, and however
many threads call `schedule` in whatever order: until `close` is called each
level has at least one worker that has not returned, and never more threads were
created for it than `_limits[level]`. -/
theorem thread_limits (κ : Type) [DecidableEq κ] (limit : Nat) :
    ∀ s, (machine κ limit).ReachableBy (fun _ a => a ≠ .close) s →
      ∀ l, s.Alive l ∧ s.created l ≤ s.limits l := by
  intro s h l
  have hs : Limited s := by
    apply h.invariant (I := Limited)
    · intro s hinit
      rw [show s = State.make κ limit from hinit]
      exact limited_make limit
    · exact fun s a s' hs ha hn => next_limited ha hn hs
  exact ⟨hs.staffed l, hs.within l⟩

/-- Two tasks in the queue of a level for two threads: the second thread is
created, and the limit is reached. -/
theorem thread_limits_reached :
    let as : List (Action Unit) := (.enter (.client ()) ::
      List.replicate 6 (.call (.client ()) ⟨false, true, none⟩)) ++ (.enter (.client ()) ::
      List.replicate 10 (.call (.client ()) ⟨false, true, none⟩))
    ∃ s, (machine Unit 4).run (State.make Unit 4) as = some s ∧ s.limits 0 = 2 ∧
      s.created 0 = 2 ∧ s.Alive 0 ∧ s.created 0 ≤ s.limits 0 := by
  intro as
  have hsteps : (machine Unit 4).AllSteps (fun _ a => a ≠ .close) (State.make Unit 4) as := by
    repeat' refine Machine.AllSteps.cons rfl (by simp) ?_
    trivial
  have hlast : ∀ s, (machine Unit 4).run (State.make Unit 4) as = some s →
      s.Alive 0 ∧ s.created 0 ≤ s.limits 0 := fun s hs =>
    thread_limits Unit 4 s (Machine.ReachableBy.run (.init rfl) hsteps hs) 0
  exact ⟨_, rfl, rfl, rfl, hlast _ rfl⟩

end Garbage.LimitedScheduler
