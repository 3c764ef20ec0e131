import Mathlib.Algebra.Order.Group.Multiset
import Mathlib.Data.Multiset.Range
import Mathlib.Tactic.Abel
import Garbage.LimitedScheduler.Steps

/-!
# How often an accepted task is executed

`Counted` holds in every run: each pushed task is queued, running or executed,
and in one place only.  So no task is executed twice (`executed_le_one`).

That none is forgotten at the shutdown needs more.  A worker that finds the
cancel flag at the top of its loop returns without a look at its queue, a call
that has passed its checks pushes also after the workers are gone, and `close`
does not see a thread that `addThread` has started and not registered yet.
`accepted_task_lost` is a run of the first kind.  `executed_once_of_served`:
when each step meets `Serves`, which excludes just these three, every accepted
task has been executed once when `close` has returned.
-/

namespace Garbage.LimitedScheduler

open Foundation (CondVar Machine)

variable {κ : Type}

/-! ### No task is executed twice -/

/-- The task a worker runs at this place. -/
def WorkerPc.task? : WorkerPc → Option Task
  | .running task => some task
  | _ => none

def queued (tasks : Level → List Task) : List Task := tasks 0 ++ tasks 1

def running (workers : List Worker) : List Task := workers.filterMap fun worker => worker.pc.task?

/-- Every pushed task is in one place, and the calls know only pushed tasks. -/
structure Counted (s : State κ) : Prop where
  places : (queued s.tasks + running s.workers + s.executed : Multiset Task) =
    Multiset.range s.pushed
  accepted : ∀ task ∈ s.accepted, task < s.pushed
  called : ∀ caller l task pc, s.calls caller = some (.pushed l task pc) → task < s.pushed

theorem counted_make (limit : Nat) : Counted (State.make κ limit) where
  places := rfl
  accepted := fun task h => by cases h
  called := fun caller l task pc h => by cases h

/-- A queue of one level that changes, and the tasks of the other. -/
theorem queued_update (tasks : Level → List Task) (l : Level) (queue : List Task) :
    ∃ rest : List Task, (queued tasks : Multiset Task) = tasks l + rest ∧
      (queued (Function.update tasks l queue) : Multiset Task) = queue + rest := by
  match l with
  | 0 => exact ⟨tasks 1, rfl, rfl⟩
  | 1 => exact ⟨tasks 0, Multiset.coe_eq_coe.mpr List.perm_append_comm,
      Multiset.coe_eq_coe.mpr List.perm_append_comm⟩

/-- A worker that goes on, and the tasks that the others run. -/
theorem running_set {s : State κ} {w : Nat} {l : Level} {pc : WorkerPc} (pc' : WorkerPc)
    (hw : s.Stands w l pc) : ∃ rest : List Task,
      (running s.workers : Multiset Task) = pc.task?.toList + rest ∧
      (running (s.workers.set w ⟨l, pc'⟩) : Multiset Task) = pc'.task?.toList + rest := by
  obtain ⟨hlt, hget⟩ := List.getElem?_eq_some_iff.mp hw
  have hsplit : s.workers = s.workers.take w ++ ⟨l, pc⟩ :: s.workers.drop (w + 1) := by
    rw [← hget, ← List.drop_eq_getElem_cons hlt, List.take_append_drop]
  have hset : s.workers.set w ⟨l, pc'⟩ =
      s.workers.take w ++ ⟨l, pc'⟩ :: s.workers.drop (w + 1) :=
    List.set_eq_take_append_cons_drop.trans (if_pos hlt)
  have hrun : ∀ q : WorkerPc,
      (running (s.workers.take w ++ ⟨l, q⟩ :: s.workers.drop (w + 1)) : Multiset Task) =
        q.task?.toList + running (s.workers.take w ++ s.workers.drop (w + 1)) := by
    intro q
    rw [running, running, List.filterMap_append, List.filterMap_append, List.filterMap_cons]
    cases hq : q.task? with
    | none => simp
    | some task => simp
  refine ⟨running (s.workers.take w ++ s.workers.drop (w + 1)), ?_, ?_⟩
  · rw [← hrun pc, ← hsplit]
  · rw [← hrun pc', ← hset]

namespace Counted

variable {s : State κ}

/-- The invariant speaks of these parts of the state. -/
theorem frame (h : Counted s) {s' : State κ} (hworkers : s'.workers = s.workers)
    (htasks : s'.tasks = s.tasks) (hcalls : s'.calls = s.calls)
    (hpushed : s'.pushed = s.pushed) (hexecuted : s'.executed = s.executed)
    (haccepted : s'.accepted = s.accepted) : Counted s' := by
  refine ⟨?_, fun task htask => ?_, fun caller l task pc hcall => ?_⟩
  · rw [hworkers, htasks, hpushed, hexecuted]
    exact h.places
  · rw [hpushed]
    exact h.accepted task (haccepted ▸ htask)
  · rw [hpushed]
    exact h.called caller l task pc (hcalls ▸ hcall)

theorem setPc (h : Counted s) {w : Nat} {l : Level} {pc pc' : WorkerPc} (hw : s.Stands w l pc)
    (hpc : pc.task? = none) (hpc' : pc'.task? = none) : Counted (s.setPc w l pc') := by
  obtain ⟨rest, hold, hnew⟩ := running_set pc' hw
  refine ⟨?_, h.accepted, h.called⟩
  have hrun : (running (s.workers.set w ⟨l, pc'⟩) : Multiset Task) = running s.workers := by
    rw [hold, hnew, hpc, hpc']
  have hplaces := h.places
  rwa [← hrun] at hplaces

theorem pop (h : Counted s) {w : Nat} {l : Level} {task : Task} {queue : List Task}
    (hw : s.Stands w l .popping) (htasks : s.tasks l = task :: queue) :
    Counted ({ s with tasks := Function.update s.tasks l queue }.setPc w l (.running task)) := by
  obtain ⟨others, hold, hnew⟩ := queued_update s.tasks l queue
  obtain ⟨rest, hrun, hrun'⟩ := running_set (.running task) hw
  refine ⟨?_, h.accepted, h.called⟩
  have hplaces := h.places
  rw [hold, htasks, hrun] at hplaces
  show (queued (Function.update s.tasks l queue) + running (s.workers.set w ⟨l, .running task⟩) +
    s.executed : Multiset Task) = Multiset.range s.pushed
  rw [hnew, hrun', ← hplaces]
  simp only [WorkerPc.task?, Option.toList_some, Option.toList_none, Multiset.coe_nil,
    ← Multiset.cons_coe, ← Multiset.singleton_add]
  abel

theorem finish (h : Counted s) {w : Nat} {l : Level} {task : Task}
    (hw : s.Stands w l (.running task)) :
    Counted ({ s with executed := s.executed ++ [task] }.setPc w l .popping) := by
  obtain ⟨rest, hrun, hrun'⟩ := running_set .popping hw
  refine ⟨?_, h.accepted, h.called⟩
  have hplaces := h.places
  rw [hrun] at hplaces
  show (queued s.tasks + running (s.workers.set w ⟨l, .popping⟩) +
    (s.executed ++ [task] : List Task) : Multiset Task) = Multiset.range s.pushed
  rw [hrun', ← hplaces, ← Multiset.coe_add]
  simp only [WorkerPc.task?, Option.toList_some, Option.toList_none, Multiset.coe_nil]
  abel

theorem append (h : Counted s) (l : Level) :
    Counted { s with workers := s.workers ++ [Worker.mk l .start] } := by
  refine ⟨?_, h.accepted, h.called⟩
  have hrun : running (s.workers ++ [Worker.mk l .start]) = running s.workers := by
    rw [running, List.filterMap_append]
    exact List.append_nil _
  show (queued s.tasks + running (s.workers ++ [Worker.mk l .start]) + s.executed :
    Multiset Task) = _
  rw [hrun]
  exact h.places

variable [DecidableEq κ]

theorem setCall (h : Counted s) {caller : Caller κ} {call : Option Call}
    (hcall : ∀ l task pc, call = some (.pushed l task pc) → task < s.pushed) :
    Counted (s.setCall caller call) := by
  refine ⟨h.places, h.accepted, fun other l task pc hother => ?_⟩
  rw [calls_setCall] at hother
  split at hother
  · exact hcall l task pc hother
  · exact h.called other l task pc hother

theorem moves (h : Counted s) {caller : Caller κ} {l : Level} {task : Task} {pc pc' : PushedPc}
    (hcall : s.calls caller = some (.pushed l task pc)) :
    Counted (s.setCall caller (some (.pushed l task pc'))) :=
  h.setCall fun m task' pc'' hp => by
    cases hp
    exact h.called caller l task pc hcall

theorem push (h : Counted s) {caller : Caller κ} {l : Level} :
    Counted ({ s with
      tasks := Function.update s.tasks l (s.tasks l ++ [s.pushed])
      pushed := s.pushed + 1 }.setCall caller (some (.pushed l s.pushed .threadsSize))) := by
  obtain ⟨others, hold, hnew⟩ := queued_update s.tasks l (s.tasks l ++ [s.pushed])
  refine ⟨?_, fun task htask => Nat.lt_succ_of_lt (h.accepted task htask),
    fun other m task pc hother => ?_⟩
  · have hplaces := h.places
    rw [hold] at hplaces
    show (queued (Function.update s.tasks l (s.tasks l ++ [s.pushed])) + running s.workers +
      s.executed : Multiset Task) = Multiset.range (s.pushed + 1)
    rw [hnew, Multiset.range_succ, ← hplaces, ← Multiset.coe_add, ← Multiset.singleton_add]
    simp only [Multiset.coe_singleton]
    abel
  · rw [calls_setCall] at hother
    split at hother
    · cases hother
      exact Nat.lt_succ_self _
    · exact Nat.lt_succ_of_lt (h.called other m task pc hother)

theorem returns (h : Counted s) {caller : Caller κ} {l : Level} {task : Task} {pc : PushedPc}
    {cvs : Level → CondVar Nat} (hcall : s.calls caller = some (.pushed l task pc)) :
    Counted ({ s with cvLevels := cvs, accepted := s.accepted ++ [task] }.setCall caller none) := by
  have h' : Counted { s with cvLevels := cvs, accepted := s.accepted ++ [task] } := by
    refine ⟨h.places, fun task' htask => ?_, h.called⟩
    rcases List.mem_append.mp htask with htask | htask
    · exact h.accepted task' htask
    · rw [List.mem_singleton.mp htask]
      exact h.called caller l task pc hcall
  exact h'.setCall fun m task' pc' hp => by cases hp

end Counted

theorem Counted.executed_le_one {s : State κ} (h : Counted s) (task : Task) :
    s.executed.count task ≤ 1 := by
  have hcount := congrArg (Multiset.count task) h.places
  rw [Multiset.count_add] at hcount
  have hone : (Multiset.range s.pushed).count task ≤ 1 :=
    Multiset.nodup_iff_count_le_one.mp (Multiset.nodup_range _) task
  rw [Multiset.coe_count] at hcount
  omega

/-- A pushed task that no queue and no worker holds has been executed. -/
theorem Counted.executed_eq_one {s : State κ} (h : Counted s) (hqueued : queued s.tasks = [])
    (hrunning : running s.workers = []) {task : Task} (htask : task ∈ s.accepted) :
    s.executed.count task = 1 := by
  have hplaces := h.places
  rw [hqueued, hrunning, Multiset.coe_nil, add_zero, zero_add] at hplaces
  rw [← Multiset.coe_count, hplaces]
  exact Multiset.count_eq_one_of_mem (Multiset.nodup_range _)
    (Multiset.mem_range.mpr (h.accepted task htask))

section
variable [DecidableEq κ] {s s' : State κ}

theorem Step.counted {a : Action κ} (hstep : Step s a s') (h : Counted s) : Counted s' := by
  cases hstep with
  | start hw => exact h.setPc hw rfl rfl
  | quit hw _ => exact h.setPc hw rfl rfl
  | goOn hw _ => exact h.setPc hw rfl rfl
  | lock hw _ => exact (h.setPc hw rfl rfl).frame rfl rfl rfl rfl rfl rfl
  | ready hw _ => exact h.setPc hw rfl rfl
  | unready hw _ _ => exact h.setPc hw rfl rfl
  | block hw _ => exact (h.setPc hw rfl rfl).frame rfl rfl rfl rfl rfl rfl
  | resume hw _ _ => exact (h.setPc hw rfl rfl).frame rfl rfl rfl rfl rfl rfl
  | unlock hw => exact (h.setPc hw rfl rfl).frame rfl rfl rfl rfl rfl rfl
  | drained hw _ => exact h.setPc hw rfl rfl
  | pop hw htasks => exact h.pop hw htasks
  | finish hw _ => exact h.finish hw
  | wake _ => exact h.frame rfl rfl rfl rfl rfl rfl
  | enter _ _ => exact h.setCall fun l task pc hp => by cases hp
  | early _ _ hearly' => exact h.setCall fun l task pc hp => by cases hearly' _ hp
  | push _ => exact h.push
  | look hcall _ _ _ => exact h.moves hcall
  | lockMt hcall _ => exact (h.moves hcall).frame rfl rfl rfl rfl rfl rfl
  | @makeThread caller choice l task hcall => exact (h.append l).moves hcall
  | register hcall => exact (h.moves hcall).frame rfl rfl rfl rfl rfl rfl
  | unlockMt hcall => exact (h.moves hcall).frame rfl rfl rfl rfl rfl rfl
  | notify hcall _ => exact h.returns hcall
  | cancel _ | notifyAll _ | takeThread _ _ | leave _ _ | joined _ _ | closed _ =>
    exact h.frame rfl rfl rfl rfl rfl rfl

theorem counted_reachable {limit : Nat} (h : (machine κ limit).Reachable s) : Counted s := by
  refine h.invariant (I := Counted) (fun s hinit => ?_) fun s a s' hs _ hn => ?_
  · rw [show s = State.make κ limit from hinit]
    exact counted_make limit
  · exact (next_step hn).counted hs

end

/-! ### No task is forgotten -/

/-- `close` has left the level `l`: it found `_threads[l]` empty. -/
def ClosePc.left (l : Level) : ClosePc → Bool
  | .join m | .joining m _ => l < m
  | .finish | .returned => true
  | _ => false

/-- Some worker of the level has not returned. -/
def State.Alive (s : State κ) (l : Level) : Prop := s.At l (· ≠ .returned)

/-- Some worker of the level runs a task. -/
def State.Busy (s : State κ) (l : Level) : Prop := s.At l fun pc => pc.task?.isSome

/-- The condition on a step.  The last worker of a level does not take the
`_isCancel` return over a queue with tasks; a call pushes only while the level
has a worker and `close` has not left it; `close` leaves a level only if a
thread that `addThread` has started and not registered has nothing to do. -/
def Serves (s : State κ) : Action κ → Prop
  | .worker w => ∀ l, s.Stands w l .top → s.isCancel = true →
      s.tasks l = [] ∨ ∃ v pc, v ≠ w ∧ s.Stands v l pc ∧ pc ≠ .returned
  | .call caller _ => ∀ l, s.calls caller = some (.push l) → s.close.left l = false ∧ s.Alive l
  | .close => ∀ l, s.close = .join l → s.threads l = [] → ∀ caller task w pc,
      s.calls caller = some (.pushed l task (.register w)) → s.Stands w l pc →
      pc ≠ .returned → s.tasks l = [] ∧ pc.task? = none
  | _ => True

structure Served (s : State κ) : Prop where
  registered : ∀ w l pc, s.Stands w l pc → pc ≠ .returned → w ∈ s.threads l ∨
    s.close = .joining l w ∨ ∃ caller task, s.calls caller = some (.pushed l task (.register w))
  deserted : ∀ l, ¬ s.Alive l → s.tasks l = []
  left : ∀ l, s.close.left l = true → s.tasks l = [] ∧ ¬ s.Busy l

theorem served_make (limit : Nat) : Served (State.make κ limit) where
  registered := by
    intro w l pc hw _
    match w, hw with
    | 0, hw => cases hw; exact .inl (List.mem_singleton_self 0)
    | 1, hw => cases hw; exact .inl (List.mem_singleton_self 1)
  deserted := fun l _ => rfl
  left := fun l hl => by cases hl

theorem ClosePc.left_of_left {l m : Level} :
    (if l = 0 then ClosePc.join 1 else .finish).left m = true →
      m = l ∨ (ClosePc.join l).left m = true := by
  revert l m
  decide

theorem ClosePc.not_left_afterNotify (l m : Level) :
    ¬ (if l = 0 then ClosePc.notify 1 else .join 0).left m = true := by
  revert l m
  decide

namespace Served

variable {s : State κ}

/-- The invariant speaks of these parts of the state. -/
theorem frame (h : Served s) {s' : State κ} (hworkers : s'.workers = s.workers)
    (htasks : s'.tasks = s.tasks) (hthreads : s'.threads = s.threads)
    (hcalls : s'.calls = s.calls) (hclose : s'.close = s.close) : Served s' := by
  refine ⟨fun w l pc hw hpc => ?_, fun l hdead => ?_, fun l hl => ?_⟩
  · simp only [State.Stands, hworkers, hthreads, hcalls, hclose] at *
    exact h.registered w l pc hw hpc
  · simp only [State.Alive, State.At, State.Stands, hworkers, htasks] at *
    exact h.deserted l hdead
  · simp only [State.Busy, State.At, State.Stands, hworkers, htasks, hclose] at *
    exact h.left l hl

theorem setPc (h : Served s) {w : Nat} {l : Level} {pc pc' : WorkerPc} (hw : s.Stands w l pc)
    (hpc : pc ≠ .returned) (hpc' : pc'.task? = none)
    (hreturned : pc' = .returned →
      s.tasks l = [] ∨ ∃ v q, v ≠ w ∧ s.Stands v l q ∧ q ≠ .returned) :
    Served (s.setPc w l pc') := by
  refine ⟨fun v m q hv hq => ?_, fun m hdead => ?_, fun m hm => ?_⟩
  · rcases (stands_setPc hw).mp hv with ⟨rfl, rfl, rfl⟩ | ⟨-, hv⟩
    · exact h.registered v m pc hw hpc
    · exact h.registered v m q hv hq
  · by_cases hml : m = l
    · subst hml
      have hq : pc' = .returned := by
        by_contra hne
        exact hdead (at_setPc_self hw hne)
      refine (hreturned hq).resolve_right ?_
      rintro ⟨v, q, hne, hv, hq⟩
      exact hdead ⟨v, q, (stands_setPc hw).mpr (.inr ⟨hne, hv⟩), hq⟩
    · refine h.deserted m (mt (fun halive => ?_) hdead)
      exact at_setPc hw (fun heq => absurd heq hml) halive
  · obtain ⟨htasks, hidle⟩ := h.left m hm
    refine ⟨htasks, fun hbusy => ?_⟩
    rcases at_of_setPc hw hbusy with ⟨-, hq⟩ | hbusy
    · rw [hpc'] at hq
      cases hq
    · exact hidle hbusy

theorem pop (h : Served s) {w : Nat} {l : Level} {task : Task} {queue : List Task}
    (hw : s.Stands w l .popping) (htasks : s.tasks l = task :: queue) :
    Served ({ s with tasks := Function.update s.tasks l queue }.setPc w l (.running task)) := by
  refine ⟨fun v m q hv hq => ?_, fun m hdead => ?_, fun m hm => ?_⟩
  · rcases (stands_setPc hw).mp hv with ⟨rfl, rfl, rfl⟩ | ⟨-, hv⟩
    · exact h.registered v m _ hw (by simp)
    · exact h.registered v m q hv hq
  · by_cases hml : m = l
    · subst hml
      exact absurd (at_setPc_self hw (by simp)) hdead
    · refine (Function.update_of_ne hml ..).trans (h.deserted m (mt (fun halive => ?_) hdead))
      exact at_setPc hw (fun heq => absurd heq hml) halive
  · obtain ⟨hnil, hidle⟩ := h.left m hm
    have hml : m ≠ l := by
      rintro rfl
      rw [htasks] at hnil
      cases hnil
    refine ⟨(Function.update_of_ne hml ..).trans hnil, fun hbusy => ?_⟩
    rcases at_of_setPc hw hbusy with ⟨heq, -⟩ | hbusy
    · exact hml heq
    · exact hidle hbusy

theorem closes (h : Served s) {close : ClosePc} (hclose : ∀ l w, s.close ≠ .joining l w)
    (hleft : ∀ l, close.left l = true → s.close.left l = true) :
    Served { s with close := close } :=
  ⟨fun w l pc hw hpc => (h.registered w l pc hw hpc).imp id
    (Or.imp (fun hj => absurd hj (hclose l w)) id), h.deserted, fun l hl => h.left l (hleft l hl)⟩

theorem takeThread (h : Served s) {l : Level} {w : Nat} {rest : List Nat}
    (hclose : s.close = .join l) (hthreads : s.threads l = w :: rest) :
    Served { s with threads := Function.update s.threads l rest, close := .joining l w } := by
  refine ⟨fun v m pc hv hpc => ?_, h.deserted, fun m hm => h.left m (by rw [hclose]; exact hm)⟩
  rcases h.registered v m pc hv hpc with hmem | hj | hcall
  · by_cases hml : m = l
    · subst hml
      rw [hthreads] at hmem
      rcases List.mem_cons.mp hmem with rfl | hmem
      · exact .inr (.inl rfl)
      · refine .inl ?_
        show v ∈ Function.update s.threads m rest m
        rwa [Function.update_self]
    · refine .inl ?_
      show v ∈ Function.update s.threads l rest m
      rwa [Function.update_of_ne hml]
  · rw [hclose] at hj
    cases hj
  · exact .inr (.inr hcall)

theorem joined (h : Served s) {l l' : Level} {w : Nat} (hclose : s.close = .joining l w)
    (hw : s.Stands w l' .returned) : Served { s with close := .join l } := by
  refine ⟨fun v m pc hv hpc => ?_, h.deserted, fun m hm => h.left m (by rw [hclose]; exact hm)⟩
  rcases h.registered v m pc hv hpc with hmem | hj | hcall
  · exact .inl hmem
  · rw [hclose] at hj
    cases hj
    cases hw.symm.trans hv
    exact absurd rfl hpc
  · exact .inr (.inr hcall)

theorem leave (h : Served s) {l : Level} (hclose : s.close = .join l) (hthreads : s.threads l = [])
    (hnothing : ∀ caller task w pc, s.calls caller = some (.pushed l task (.register w)) →
      s.Stands w l pc → pc ≠ .returned → s.tasks l = [] ∧ pc.task? = none) :
    Served { s with close := if l = 0 then .join 1 else .finish } := by
  -- a worker that has not returned is one that `addThread` has not registered
  have hlate : ∀ w pc, s.Stands w l pc → pc ≠ .returned → s.tasks l = [] ∧ pc.task? = none := by
    intro w pc hw hpc
    rcases h.registered w l pc hw hpc with hmem | hj | ⟨caller, task, hcall⟩
    · rw [hthreads] at hmem
      cases hmem
    · rw [hclose] at hj
      cases hj
    · exact hnothing caller task w pc hcall hw hpc
  refine ⟨fun w m pc hw hpc => (h.registered w m pc hw hpc).imp id (Or.imp (fun hj => ?_) id),
    h.deserted, fun m hm => ?_⟩
  · rw [hclose] at hj
    cases hj
  · rcases ClosePc.left_of_left hm with rfl | hm
    · constructor
      · by_cases halive : s.Alive m
        · obtain ⟨w, pc, hw, hpc⟩ := halive
          exact (hlate w pc hw hpc).1
        · exact h.deserted m halive
      · rintro ⟨w, pc, hw, htask⟩
        by_cases hpc : pc = .returned
        · rw [hpc] at htask
          cases htask
        · rw [(hlate w pc hw hpc).2] at htask
          cases htask
    · exact h.left m (by rw [hclose]; exact hm)

variable [DecidableEq κ]

theorem setCall (h : Served s) {caller : Caller κ} {call : Option Call}
    (hcall : ∀ l task w, s.calls caller ≠ some (.pushed l task (.register w))) :
    Served (s.setCall caller call) := by
  refine ⟨fun w l pc hw hpc => ?_, h.deserted, h.left⟩
  refine (h.registered w l pc hw hpc).imp id (Or.imp id ?_)
  rintro ⟨other, task, hother⟩
  refine ⟨other, task, ?_⟩
  rw [calls_setCall, if_neg, hother]
  rintro rfl
  exact hcall l task w hother

theorem push (h : Served s) {caller : Caller κ} {l : Level} {tasks : Level → List Task}
    {pushed : Nat} {call : Option Call} (hcall : s.calls caller = some (.push l))
    (htasks : ∀ m, m ≠ l → tasks m = s.tasks m) (hleft : s.close.left l = false)
    (halive : s.Alive l) :
    Served ({ s with tasks := tasks, pushed := pushed }.setCall caller call) := by
  have h' : Served { s with tasks := tasks, pushed := pushed } := by
    refine ⟨h.registered, fun m hdead => ?_, fun m hm => ?_⟩
    · have hml : m ≠ l := by
        rintro rfl
        exact hdead halive
      exact (htasks m hml).trans (h.deserted m hdead)
    · have hml : m ≠ l := by
        rintro rfl
        exact absurd (hleft.symm.trans hm) (by simp)
      exact ⟨(htasks m hml).trans (h.left m hm).1, (h.left m hm).2⟩
  refine h'.setCall fun m task w hp => ?_
  rw [show s.calls caller = _ from hp] at hcall
  cases hcall

theorem makeThread (h : Served s) {caller : Caller κ} {l : Level} {task : Task}
    (hcall : s.calls caller = some (.pushed l task .makeThread)) :
    Served ({ s with workers := s.workers ++ [Worker.mk l .start] }.setCall caller
      (some (.pushed l task (.register s.workers.length)))) := by
  refine ⟨fun w m pc hw hpc => ?_, fun m hdead => ?_, fun m hm => ?_⟩
  · rcases stands_append.mp hw with hw | ⟨rfl, rfl, rfl⟩
    · refine (h.registered w m pc hw hpc).imp id (Or.imp id ?_)
      rintro ⟨other, task', hother⟩
      refine ⟨other, task', ?_⟩
      rw [calls_setCall, if_neg]
      · exact hother
      · rintro rfl
        rw [hcall] at hother
        cases hother
    · exact .inr (.inr ⟨caller, task, by rw [calls_setCall, if_pos rfl]⟩)
  · refine h.deserted m (mt ?_ hdead)
    rintro ⟨w, pc, hw, hpc⟩
    exact ⟨w, pc, stands_append.mpr (.inl hw), hpc⟩
  · obtain ⟨hnil, hidle⟩ := h.left m hm
    refine ⟨hnil, ?_⟩
    rintro ⟨w, pc, hw, htask⟩
    rcases stands_append.mp hw with hw | ⟨-, -, rfl⟩
    · exact hidle ⟨w, pc, hw, htask⟩
    · cases htask

theorem register (h : Served s) {caller : Caller κ} {l : Level} {task : Task} {w : Nat}
    {call : Option Call} (hcall : s.calls caller = some (.pushed l task (.register w))) :
    Served ({ s with threads := Function.update s.threads l (s.threads l ++ [w]) }.setCall caller
      call) := by
  refine ⟨fun v m pc hv hpc => ?_, h.deserted, h.left⟩
  have hkeep : v ∈ s.threads m → v ∈ Function.update s.threads l (s.threads l ++ [w]) m := by
    intro hmem
    by_cases hml : m = l
    · subst hml
      rw [Function.update_self]
      exact List.mem_append_left _ hmem
    · rwa [Function.update_of_ne hml]
  rcases h.registered v m pc hv hpc with hmem | hj | ⟨other, task', hother⟩
  · exact .inl (hkeep hmem)
  · exact .inr (.inl hj)
  · by_cases heq : other = caller
    · subst heq
      rw [hcall] at hother
      cases hother
      refine .inl ?_
      show w ∈ Function.update s.threads l (s.threads l ++ [w]) l
      rw [Function.update_self]
      exact List.mem_append_right _ (List.mem_singleton_self w)
    · refine .inr (.inr ⟨other, task', ?_⟩)
      rw [calls_setCall, if_neg heq]
      exact hother

end Served

/-- When `close` has returned nothing is left to do. -/
theorem Served.executed_eq_one {s : State κ} (h : Served s) (hcounted : Counted s)
    (hclose : s.close = .returned) {task : Task} (htask : task ∈ s.accepted) :
    s.executed.count task = 1 := by
  have hleft : ∀ l, s.close.left l = true := fun l => by rw [hclose]; rfl
  refine hcounted.executed_eq_one ?_ ?_ htask
  · rw [queued, (h.left 0 (hleft 0)).1, (h.left 1 (hleft 1)).1, List.append_nil]
  · refine List.filterMap_eq_nil_iff.mpr fun worker hworker => ?_
    obtain ⟨w, hw⟩ := List.mem_iff_getElem?.mp hworker
    by_contra htask
    exact (h.left _ (hleft worker.level)).2 ⟨w, worker.pc, hw, Option.isSome_iff_ne_none.mpr htask⟩

variable [DecidableEq κ] {s s' : State κ}

theorem Step.served {a : Action κ} (hstep : Step s a s') (h : Served s) (hc : Serves s a) :
    Served s' := by
  cases hstep with
  | start hw => exact h.setPc hw (by simp) rfl (by simp)
  | quit hw hcancel => exact h.setPc hw (by simp) rfl fun _ => hc _ hw hcancel
  | goOn hw _ => exact h.setPc hw (by simp) rfl (by simp)
  | lock hw _ => exact (h.setPc hw (by simp) rfl (by simp)).frame rfl rfl rfl rfl rfl
  | ready hw _ => exact h.setPc hw (by simp) rfl (by simp)
  | unready hw _ _ => exact h.setPc hw (by simp) rfl (by simp)
  | block hw _ => exact (h.setPc hw (by simp) rfl (by simp)).frame rfl rfl rfl rfl rfl
  | resume hw _ _ => exact (h.setPc hw (by simp) rfl (by simp)).frame rfl rfl rfl rfl rfl
  | unlock hw => exact (h.setPc hw (by simp) rfl (by simp)).frame rfl rfl rfl rfl rfl
  | drained hw _ => exact h.setPc hw (by simp) rfl (by simp)
  | pop hw htasks => exact h.pop hw htasks
  | finish hw _ => exact (h.setPc hw (by simp) rfl (by simp)).frame rfl rfl rfl rfl rfl
  | wake _ => exact h.frame rfl rfl rfl rfl rfl
  | enter hcall _ => exact h.setCall fun l task w hp => by rw [hcall] at hp; cases hp
  | early hcall hearly _ =>
    exact h.setCall fun l task w hp => by
      rw [hcall] at hp
      cases hp
      cases hearly
  | push hcall =>
    obtain ⟨hleft, halive⟩ := hc _ hcall
    exact h.push hcall (fun m hml => Function.update_of_ne hml ..) hleft halive
  | look hcall hlocal _ _ =>
    exact h.setCall fun m task' w hp => by
      rw [hcall] at hp
      cases hp
      cases hlocal
  | lockMt hcall _ | unlockMt hcall | notify hcall _ =>
    refine (h.setCall fun m task' w hp => ?_).frame rfl rfl rfl rfl rfl
    rw [hcall] at hp
    cases hp
  | makeThread hcall => exact h.makeThread hcall
  | register hcall => exact h.register hcall
  | cancel hclose =>
    exact (h.closes (by rw [hclose]; simp) (by simp [ClosePc.left])).frame rfl rfl rfl rfl rfl
  | @notifyAll l hclose =>
    refine (h.closes (by rw [hclose]; simp) fun m hm => ?_).frame rfl rfl rfl rfl rfl
    exact absurd hm (ClosePc.not_left_afterNotify l m)
  | takeThread hclose hthreads => exact h.takeThread hclose hthreads
  | leave hclose hthreads => exact h.leave hclose hthreads (hc _ hclose hthreads)
  | joined hclose hw => exact h.joined hclose hw
  | closed hclose =>
    exact (h.closes (by rw [hclose]; simp) fun m _ => by rw [hclose]; rfl).frame
      rfl rfl rfl rfl rfl

/-- **Every accepted task is executed once.**  In every run no task is executed
twice; in a run whose steps meet `Serves`, each task whose `schedule` returned
has been executed once when `close` has returned. -/
theorem executed_once_of_served (limit : Nat) :
    (∀ s, (machine κ limit).Reachable s → ∀ task, s.executed.count task ≤ 1) ∧
    (∀ s, (machine κ limit).ReachableBy Serves s → s.close = .returned →
      ∀ task ∈ s.accepted, s.executed.count task = 1) := by
  refine ⟨fun s h task => (counted_reachable h).executed_le_one task,
    fun s h hclose task htask => ?_⟩
  have hserved : Served s := by
    refine h.invariant (I := Served) (fun s hinit => ?_) fun s a s' hs hc hn => ?_
    · rw [show s = State.make κ limit from hinit]
      exact served_make limit
    · exact (next_step hn).served hs hc
  exact hserved.executed_eq_one (counted_reachable h.reachable) hclose htask

/-- A client schedules, the worker executes the task, and `close` joins both workers. -/
theorem executed_once_of_served_run :
    let schedule : List (Action Unit) := .enter (.client ()) ::
      List.replicate 6 (.call (.client ()) ⟨true, true, none⟩)
    let as : List (Action Unit) := schedule ++ List.replicate 8 (.worker 0) ++
      List.replicate 3 .close ++ [.worker 0, .worker 1, .worker 1] ++ List.replicate 7 .close
    ∃ s, (machine Unit 4).run (State.make Unit 4) as = some s ∧ s.accepted = [0] ∧
      s.executed.count 0 = 1 := by
  intro schedule as
  have hsteps : (machine Unit 4).AllSteps Serves (State.make Unit 4) as := by
    repeat' refine Machine.AllSteps.cons rfl ?_ ?_
    all_goals first
      | trivial
      -- the steps of the call: the push finds worker 0 alive
      | (intro l hcall; cases hcall; done)
      | (intro l hcall; cases hcall; exact ⟨rfl, 0, .start, rfl, by simp⟩)
      -- the steps of the workers: a queue is empty when its worker returns
      | (intro l hw hcancel; cases hw; done)
      | (intro l hw hcancel; cases hw; cases hcancel; done)
      | (intro l hw hcancel; cases hw; exact .inl rfl)
      -- the steps of `close`: no call is registering a thread
      | (intro l hclose hthreads; cases hclose; done)
      | (intro l hclose hthreads caller task w pc hcall; cases caller <;> cases hcall)
  have hlast : ∀ s, (machine Unit 4).run (State.make Unit 4) as = some s → s.close = .returned →
      0 ∈ s.accepted → s.executed.count 0 = 1 := fun s h hclose htask =>
    (executed_once_of_served 4).2 s (Machine.ReachableBy.run (.init rfl) hsteps h) hclose 0 htask
  exact ⟨_, rfl, rfl, hlast _ rfl rfl (List.mem_singleton_self 0)⟩

/-- **An accepted task is lost**: a client schedules a task before the worker has
reached its loop, `close` cancels and joins, and the worker returns at the top of
its loop. -/
theorem accepted_task_lost :
    let schedule : List (Action Unit) := .enter (.client ()) ::
      List.replicate 6 (.call (.client ()) ⟨true, true, none⟩)
    let as : List (Action Unit) := schedule ++ List.replicate 3 .close ++
      [.worker 0, .worker 0, .worker 1, .worker 1] ++ List.replicate 7 .close
    ∃ s, (machine Unit 4).run (State.make Unit 4) as = some s ∧ s.close = .returned ∧
      s.accepted = [0] ∧ s.executed = [] :=
  ⟨_, rfl, rfl, rfl, rfl⟩

end Garbage.LimitedScheduler
