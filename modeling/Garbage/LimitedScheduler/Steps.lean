import Mathlib.Data.List.Basic
import Garbage.LimitedScheduler.Scheduler

/-!
# What a step can do

`Step s a s'` lists the steps of the scheduler, one constructor for each line of
the code that touches shared data and each way it can go, with the guard it
passed.  `next_step` reads it off the code; the invariants are checked on the
list.

`State.At l P` says that some worker of the level `l` stands at a place with
`P`, and `State.Pending l` that a call has pushed a task to `l` and has not
notified yet.
-/

namespace Garbage.LimitedScheduler

open Foundation (CondVar Machine)

variable {κ : Type}

/-- The worker `w` belongs to the level `l` and stands at `pc`. -/
abbrev State.Stands (s : State κ) (w : Nat) (l : Level) (pc : WorkerPc) : Prop :=
  s.workers[w]? = some (Worker.mk l pc)

/-- Some worker of the level `l` stands at a place with `P`. -/
def State.At (s : State κ) (l : Level) (P : WorkerPc → Prop) : Prop :=
  ∃ w pc, s.Stands w l pc ∧ P pc

/-- Some call of `schedule` is between its push to `l` and its notification. -/
def State.Pending (s : State κ) (l : Level) : Prop :=
  ∃ caller task pc, s.calls caller = some (.pushed l task pc)

/-- A call that has not pushed yet. -/
def Call.early : Call → Bool
  | .pushed _ _ _ => false
  | _ => true

/-- A place of `addThread` at which a step changes no more than the place. -/
def PushedPc.local : PushedPc → Bool
  | .threadsSize | .tasksSize | .findFree | .recheck | .makeThread => true
  | _ => false

/-- A place in `addThread` other than the registration, or its end. -/
def PushedPc.unregistered : PushedPc → Bool
  | .register _ => false
  | _ => true

variable [DecidableEq κ]

inductive Step (s : State κ) : Action κ → State κ → Prop
  | start {w l} (hw : s.Stands w l .start) : Step s (.worker w) (s.setPc w l .top)
  | quit {w l} (hw : s.Stands w l .top) (hcancel : s.isCancel = true) :
      Step s (.worker w) (s.setPc w l .returned)
  | goOn {w l} (hw : s.Stands w l .top) (hcancel : s.isCancel = false) :
      Step s (.worker w) (s.setPc w l .lock)
  | lock {w l} (hw : s.Stands w l .lock) (hm : s.mtLevels l = none) :
      Step s (.worker w)
        ({ s with mtLevels := Function.update s.mtLevels l (some w) }.setPc w l .check)
  | ready {w l} (hw : s.Stands w l .check)
      (hready : s.tasks l ≠ [] ∨ s.isCancel = true) :
      Step s (.worker w) (s.setPc w l .unlock)
  | unready {w l} (hw : s.Stands w l .check) (htasks : s.tasks l = [])
      (hcancel : s.isCancel = false) :
      Step s (.worker w) (s.setPc w l .window)
  | block {w l cv} (hw : s.Stands w l .window)
      (hcv : (s.cvLevels l).block w = some cv) :
      Step s (.worker w) ({ s with
        mtLevels := Function.update s.mtLevels l none
        cvLevels := Function.update s.cvLevels l cv }.setPc w l .waiting)
  | resume {w l cv} (hw : s.Stands w l .waiting) (hm : s.mtLevels l = none)
      (hcv : (s.cvLevels l).resume w = some cv) :
      Step s (.worker w) ({ s with
        mtLevels := Function.update s.mtLevels l (some w)
        cvLevels := Function.update s.cvLevels l cv }.setPc w l .check)
  | unlock {w l} (hw : s.Stands w l .unlock) :
      Step s (.worker w)
        ({ s with mtLevels := Function.update s.mtLevels l none }.setPc w l .popping)
  | drained {w l} (hw : s.Stands w l .popping) (htasks : s.tasks l = []) :
      Step s (.worker w) (s.setPc w l .top)
  | pop {w l task rest} (hw : s.Stands w l .popping)
      (htasks : s.tasks l = task :: rest) :
      Step s (.worker w)
        ({ s with tasks := Function.update s.tasks l rest }.setPc w l (.running task))
  | finish {w l task} (hw : s.Stands w l (.running task))
      (hcall : s.calls (.worker w) = none) :
      Step s (.worker w) ({ s with executed := s.executed ++ [task] }.setPc w l .popping)
  | wake {w l cv} (hcv : (s.cvLevels l).wake w = some cv) :
      Step s (.wake l w) { s with cvLevels := Function.update s.cvLevels l cv }
  | enter {caller level} (hcall : s.calls caller = none) (hmay : mayCall s caller = true) :
      Step s (.enter caller) (s.setCall caller (some (.checkClosed level)))
  | early {caller choice call call'} (hcall : s.calls caller = some call)
      (hearly : call.early = true) (hearly' : ∀ c ∈ call', Call.early c = true) :
      Step s (.call caller choice) (s.setCall caller call')
  | push {caller choice l} (hcall : s.calls caller = some (.push l)) :
      Step s (.call caller choice) ({ s with
        tasks := Function.update s.tasks l (s.tasks l ++ [s.pushed])
        pushed := s.pushed + 1 }.setCall caller (some (.pushed l s.pushed .threadsSize)))
  | look {caller choice l task pc pc'} (hcall : s.calls caller = some (.pushed l task pc))
      (hlocal : pc.local = true) (hpc' : pc'.unregistered = true)
      (hroom : pc' = .makeThread → (s.threads l).length < s.limits l) :
      Step s (.call caller choice) (s.setCall caller (some (.pushed l task pc')))
  | lockMt {caller choice l task} (hcall : s.calls caller = some (.pushed l task .lock))
      (hm : s.mt l = none) :
      Step s (.call caller choice)
        ({ s with mt := Function.update s.mt l (some caller) }.setCall caller
          (some (.pushed l task .recheck)))
  | makeThread {caller choice l task} (hcall : s.calls caller = some (.pushed l task .makeThread)) :
      Step s (.call caller choice)
        ({ s with workers := s.workers ++ [Worker.mk l .start] }.setCall caller
          (some (.pushed l task (.register s.workers.length))))
  | register {caller choice l task w}
      (hcall : s.calls caller = some (.pushed l task (.register w))) :
      Step s (.call caller choice)
        ({ s with threads := Function.update s.threads l (s.threads l ++ [w]) }.setCall caller
          (some (.pushed l task .unlock)))
  | unlockMt {caller choice l task} (hcall : s.calls caller = some (.pushed l task .unlock)) :
      Step s (.call caller choice)
        ({ s with mt := Function.update s.mt l none }.setCall caller
          (some (.pushed l task .notify)))
  | notify {caller choice l task cv} (hcall : s.calls caller = some (.pushed l task .notify))
      (hcv : (s.cvLevels l).notifyOne choice.notified = some cv) :
      Step s (.call caller choice) ({ s with
        cvLevels := Function.update s.cvLevels l cv
        accepted := s.accepted ++ [task] }.setCall caller none)
  | cancel (hclose : s.close = .idle) :
      Step s .close { s with isCancel := true, close := .notify 0 }
  | notifyAll {l} (hclose : s.close = .notify l) :
      Step s .close { s with
        cvLevels := Function.update s.cvLevels l (s.cvLevels l).notifyAll
        close := if l = 0 then .notify 1 else .join 0 }
  | takeThread {l w rest} (hclose : s.close = .join l) (hthreads : s.threads l = w :: rest) :
      Step s .close { s with
        threads := Function.update s.threads l rest, close := .joining l w }
  | leave {l} (hclose : s.close = .join l) (hthreads : s.threads l = []) :
      Step s .close { s with close := if l = 0 then .join 1 else .finish }
  | joined {l w l'} (hclose : s.close = .joining l w)
      (hw : s.Stands w l' .returned) :
      Step s .close { s with close := .join l }
  | closed (hclose : s.close = .finish) :
      Step s .close { s with isClosed := true, close := .returned }

variable {s s' : State κ}

/-! ### The code is in the list -/

theorem workerStep_step {w : Nat} (h : workerStep s w = some s') : Step s (.worker w) s' := by
  unfold workerStep at h
  split at h
  · cases h
  · next l pc hw =>
    cases pc with
    | start => cases h; exact .start hw
    | top =>
      cases h
      cases hcancel : s.isCancel with
      | true => exact .quit hw hcancel
      | false => exact .goOn hw hcancel
    | lock =>
      dsimp only at h
      split at h
      · next hm => cases h; exact .lock hw hm
      · cases h
    | check =>
      cases h
      by_cases hready : s.tasks l ≠ [] ∨ s.isCancel = true
      · rw [if_pos (by simpa using hready)]
        exact .ready hw hready
      · obtain ⟨htasks, hcancel⟩ := not_or.mp hready
        rw [if_neg (by simpa using hready)]
        exact .unready hw (not_not.mp htasks) (Bool.eq_false_iff.mpr hcancel)
    | window =>
      obtain ⟨cv, hcv, rfl⟩ := Option.map_eq_some_iff.mp h
      exact .block hw hcv
    | waiting =>
      dsimp only at h
      split at h
      · next hm =>
        obtain ⟨cv, hcv, rfl⟩ := Option.map_eq_some_iff.mp h
        exact .resume hw hm hcv
      · cases h
    | unlock => cases h; exact .unlock hw
    | popping =>
      dsimp only at h
      split at h
      · next htasks => cases h; exact .drained hw htasks
      · next task rest htasks => cases h; exact .pop hw htasks
    | running task =>
      dsimp only at h
      split at h
      · next hcall => cases h; exact .finish hw (Option.isNone_iff_eq_none.mp hcall)
      · cases h
    | returned => cases h

theorem pushedStep_step {caller : Caller κ} {choice : Choice} {l : Level} {task : Task}
    {pc : PushedPc} (hcall : s.calls caller = some (.pushed l task pc))
    (h : pushedStep s caller choice l task pc = some s') : Step s (.call caller choice) s' := by
  cases pc with
  | threadsSize => cases h; exact .look hcall rfl (by split <;> rfl) (by split <;> simp)
  | tasksSize => cases h; exact .look hcall rfl (by split <;> rfl) (by split <;> simp)
  | findFree => cases h; exact .look hcall rfl (by split <;> rfl) (by split <;> simp)
  | lock =>
    dsimp only [pushedStep] at h
    split at h
    · next hm => cases h; exact .lockMt hcall hm
    · cases h
  | recheck =>
    cases h
    refine .look hcall rfl (by split <;> rfl) fun hpc => ?_
    split at hpc
    · cases hpc
    · omega
  | makeThread =>
    dsimp only [pushedStep] at h
    split at h
    · cases h; exact .makeThread hcall
    · cases h; exact .look hcall rfl rfl (by simp)
  | register w => cases h; exact .register hcall
  | unlock => cases h; exact .unlockMt hcall
  | notify =>
    obtain ⟨cv, hcv, rfl⟩ := Option.map_eq_some_iff.mp h
    exact .notify hcall hcv

theorem callStep_step {caller : Caller κ} {choice : Choice}
    (h : callStep s caller choice = some s') : Step s (.call caller choice) s' := by
  unfold callStep at h
  split at h
  · cases h
  · next level hcall =>
    split at h
    · cases h; exact .early hcall rfl (by simp [Call.early])
    · cases h; exact .early hcall rfl (by simp)
  · next l hcall =>
    split at h
    · cases h; exact .early hcall rfl (by simp)
    · cases h; exact .early hcall rfl (by simp [Call.early])
  · next l hcall => cases h; exact .push hcall
  · next l task pc hcall => exact pushedStep_step hcall h

theorem closeStep_step (h : closeStep s = some s') : Step s .close s' := by
  unfold closeStep at h
  split at h
  · next hclose => cases h; exact .cancel hclose
  · next l hclose => cases h; exact .notifyAll hclose
  · next l hclose =>
    split at h
    · next hthreads => cases h; exact .leave hclose hthreads
    · next w rest hthreads => cases h; exact .takeThread hclose hthreads
  · next l w hclose =>
    split at h
    · next hw =>
      cases h
      obtain ⟨⟨l', pc⟩, hw, hpc⟩ := Option.map_eq_some_iff.mp hw
      cases hpc
      exact .joined hclose hw
    · cases h
  · next hclose => cases h; exact .closed hclose
  · cases h

/-- **Every step of the code is in the list.** -/
theorem next_step {a : Action κ} (h : next s a = some s') : Step s a s' := by
  cases a with
  | worker w => exact workerStep_step h
  | wake l w =>
    obtain ⟨cv, hcv, rfl⟩ := Option.map_eq_some_iff.mp h
    exact .wake hcv
  | enter caller =>
    dsimp only [next] at h
    split at h
    · next hmay =>
      cases h
      exact .enter (Option.isNone_iff_eq_none.mp hmay.1) hmay.2
    · cases h
  | call caller choice => exact callStep_step h
  | close => exact closeStep_step h

/-! ### Where the workers and the calls are after a step -/

section Places
omit [DecidableEq κ]

theorem stands_setPc {w v : Nat} {l m : Level} {pc pc' q : WorkerPc} (hw : s.Stands w l pc) :
    (s.setPc w l pc').Stands v m q ↔ v = w ∧ m = l ∧ q = pc' ∨ v ≠ w ∧ s.Stands v m q := by
  obtain ⟨hlt, -⟩ := List.getElem?_eq_some_iff.mp hw
  show (s.workers.set w ⟨l, pc'⟩)[v]? = some ⟨m, q⟩ ↔ _
  by_cases hv : v = w
  · subst hv
    rw [List.getElem?_set_self hlt]
    constructor
    · intro h
      cases h
      exact .inl ⟨rfl, rfl, rfl⟩
    · rintro (⟨-, rfl, rfl⟩ | ⟨hne, -⟩)
      · rfl
      · exact absurd rfl hne
  · rw [List.getElem?_set_ne (Ne.symm hv)]
    exact ⟨fun h => .inr ⟨hv, h⟩, fun h => h.elim (fun h' => absurd h'.1 hv) And.right⟩

theorem stands_append {v : Nat} {l m : Level} {q : WorkerPc} :
    ({ s with workers := s.workers ++ [Worker.mk l .start] } : State κ).Stands v m q ↔
      s.Stands v m q ∨ v = s.workers.length ∧ m = l ∧ q = .start := by
  show (s.workers ++ [Worker.mk l .start])[v]? = some ⟨m, q⟩ ↔ _
  rcases Nat.lt_trichotomy v s.workers.length with hlt | rfl | hgt
  · rw [List.getElem?_append_left hlt]
    exact ⟨.inl, fun h => h.elim id fun h' => absurd h'.1 (by omega)⟩
  · rw [List.getElem?_concat_length]
    constructor
    · intro h
      cases h
      exact .inr ⟨rfl, rfl, rfl⟩
    · rintro (h | ⟨-, rfl, rfl⟩)
      · exact absurd (List.getElem?_eq_some_iff.mp h).1 (by omega)
      · rfl
  · rw [List.getElem?_eq_none (by simp; omega)]
    refine ⟨fun h => (by cases h), ?_⟩
    rintro (h | ⟨rfl, -⟩)
    · exact absurd (List.getElem?_eq_some_iff.mp h).1 (by omega)
    · omega

/-- What holds somewhere after a worker went on held somewhere before, or holds
where the worker went. -/
theorem at_of_setPc {w : Nat} {l m : Level} {pc pc' : WorkerPc} {P : WorkerPc → Prop}
    (hw : s.Stands w l pc) (h : (s.setPc w l pc').At m P) : m = l ∧ P pc' ∨ s.At m P := by
  obtain ⟨v, q, hv, hP⟩ := h
  rcases (stands_setPc hw).mp hv with ⟨-, rfl, rfl⟩ | ⟨-, hv⟩
  · exact .inl ⟨rfl, hP⟩
  · exact .inr ⟨v, q, hv, hP⟩

theorem at_setPc {w : Nat} {l m : Level} {pc pc' : WorkerPc} {P : WorkerPc → Prop}
    (hw : s.Stands w l pc) (hP : m = l → P pc → P pc') (h : s.At m P) :
    (s.setPc w l pc').At m P := by
  obtain ⟨v, q, hv, hq⟩ := h
  by_cases hvw : v = w
  · subst hvw
    cases hw.symm.trans hv
    exact ⟨v, pc', (stands_setPc hw).mpr (.inl ⟨rfl, rfl, rfl⟩), hP rfl hq⟩
  · exact ⟨v, q, (stands_setPc hw).mpr (.inr ⟨hvw, hv⟩), hq⟩

theorem at_setPc_self {w : Nat} {l : Level} {pc pc' : WorkerPc} {P : WorkerPc → Prop}
    (hw : s.Stands w l pc) (hP : P pc') : (s.setPc w l pc').At l P :=
  ⟨w, pc', (stands_setPc hw).mpr (.inl ⟨rfl, rfl, rfl⟩), hP⟩

end Places

theorem calls_setCall {caller other : Caller κ} {call : Option Call} :
    (s.setCall caller call).calls other = if other = caller then call else s.calls other := by
  show Function.update s.calls caller call other = _
  rw [Function.update_apply]

/-- A call that keeps what it owes keeps its level pending. -/
theorem pending_setCall {caller : Caller κ} {call : Option Call} {l : Level}
    (hkeep : ∀ task pc, s.calls caller = some (.pushed l task pc) →
      ∃ task pc, call = some (.pushed l task pc)) (h : s.Pending l) :
    (s.setCall caller call).Pending l := by
  obtain ⟨other, task, pc, hother⟩ := h
  by_cases heq : other = caller
  · subst heq
    obtain ⟨task', pc', hcall⟩ := hkeep task pc hother
    exact ⟨other, task', pc', by rw [calls_setCall, if_pos rfl, hcall]⟩
  · exact ⟨other, task, pc, by rw [calls_setCall, if_neg heq, hother]⟩

end Garbage.LimitedScheduler
