import Garbage.Foundation.Conveyor
import Garbage.Foundation.Draining
import Garbage.ThreeTierThreadPool.Steps
import Mathlib.Algebra.BigOperators.Group.Finset.Piecewise
import Mathlib.Algebra.GroupWithZero.Nat
import Mathlib.Data.Fintype.Basic

/-!
# The calls return and the tasks are executed

Each step of a call or of a worker uses up some `weight`: what is left of the calls,
of the workers and of the queue.  So the system comes to rest when no new calls are
made.  A call waits only for the constructor of the pool, which does not wait, and for
a worker in `Join`, which has been cancelled by then (`Calm`).

The queue is a conveyor from `Add` to `Take`.
-/

namespace Garbage.ThreeTierThreadPool

open Foundation (Machine Conveyor Draining)

variable {τ α : Type}

/-! ### The tasks -/

section Tasks

variable {size : Nat} {f f' : Fields τ α}

/-- The task that the next step of a call adds to the queue. -/
def Phase.accepts (f : Fields τ α) : Phase α → List α
  | .add task => if f.queueDisposed then [] else [task]
  | _ => []

def accepted (s : State τ α) : Action τ α → List α
  | .step t _ => (s.phase t).accepts s.fields
  | _ => []

/-- The task that a worker has taken. -/
def Worker.task : Worker α → List α
  | .running task => [task]
  | _ => []

/-- The task with which a worker starts in a step. -/
def started (s : State τ α) : Action τ α → List α
  | .work k dies =>
    ((s.fields.workers[k]?).bind (Worker.step s.fields dies)).elim [] fun r => r.2.task
  | _ => []

theorem Phase.step_queue {t : τ} {logThrows : Bool} {p : Phase α} {r : Result α}
    (h : p.step size t logThrows f = some (f', r)) : f'.queue = f.queue ++ p.accepts f := by
  cases p with
  | add task =>
    dsimp only [Phase.step] at h
    split at h
    · next hdisposed =>
      cases h
      simp [accepts, hdisposed]
    · next hdisposed =>
      cases h
      simp [accepts, hdisposed]
  | _ => cases step_cases h <;> simp [accepts]

theorem Worker.task_afterError (dies : Bool) : (Worker.afterError dies : Worker α).task = [] := by
  cases dies <;> rfl

theorem Worker.step_queue {dies : Bool} {w w' : Worker α} {queue : List α}
    (h : w.step f dies = some (queue, w')) : f.queue = w'.task ++ queue := by
  cases w with
  | unstarted | ended => exact nomatch h
  | check =>
    cases h
    split <;> rfl
  | running task =>
    cases h
    rw [task_afterError, List.nil_append]
  | take =>
    dsimp only [Worker.step] at h
    split at h
    · cases h
      rw [task_afterError, List.nil_append]
    · split at h
      · cases h
        rfl
      · split at h
        · exact nomatch h
        · next hqueue =>
          cases h
          exact hqueue

/-- The queue, from `Add` to `Take`. -/
def conveyor (τ α : Type) [DecidableEq τ] (size : Nat) :
    Conveyor (machine size : Machine (State τ α) (Action τ α)) α where
  items s := s.fields.queue
  put := accepted
  take := started
  step s a s' h := by
    cases a with
    | addTask t task =>
      dsimp only [machine, next] at h
      split at h
      · cases h
        split <;> simp [accepted, started, State.enter]
      · cases h
    | close t =>
      dsimp only [machine, next] at h
      split at h
      · cases h
        simp [accepted, started, State.enter]
      · cases h
    | step t logThrows =>
      obtain ⟨⟨f', r⟩, hstep, rfl⟩ := Option.map_eq_some_iff.mp h
      have hqueue := Phase.step_queue hstep
      cases r <;> simp [accepted, started, State.advance, hqueue]
    | work k dies =>
      dsimp only [machine, next] at h
      split at h
      · cases h
      · next w hw =>
        obtain ⟨⟨queue, w'⟩, hstep, rfl⟩ := Option.map_eq_some_iff.mp h
        simpa [accepted, started, hw, hstep] using Worker.step_queue hstep

end Tasks

/-! ### The weights -/

section Weights

variable (size : Nat)

def Phase.weight : Phase α → Nat
  | .idle => 0
  | .value _ => 3 * size + 9
  | .constructing k _ => 3 * (size - k) + 8
  | .check _ => 7
  | .readQueue _ => 6
  | .add _ => 5
  | .nullImpl _ => size + 12
  | .isValueCreated _ => size + 11
  | .close => size + 10
  | .readPool => size + 9
  | .nullPool _ => size + 8
  | .taken _ => size + 7
  | .cancel => size + 6
  | .join k => (size - k) + 5
  | .disposeCts => 4
  | .lookQueue => 3
  | .disposeQueue => 2
  | .nullQueue => 1

def Worker.weight : Worker α → Nat
  | .unstarted | .ended => 0
  | .take => 1
  | .check => 2
  | .running _ => 3

def Fields.weight (f : Fields τ α) : Nat := (f.workers.map Worker.weight).sum + 3 * f.queue.length

/-- The weight of the phase in which a call goes on. -/
def Result.weight : Result α → Nat
  | .goes p => p.weight size
  | .returned | .threw => 0

end Weights

theorem sum_set {f : Worker α → Nat} {workers : List (Worker α)} {k : Nat} {w : Worker α}
    (h : workers[k]? = some w) (w' : Worker α) :
    ((workers.set k w').map f).sum + f w = (workers.map f).sum + f w' := by
  induction workers generalizing k with
  | nil => simp at h
  | cons v workers ih =>
    cases k with
    | zero =>
      obtain rfl : v = w := by simpa using h
      simp only [List.set_cons_zero, List.map_cons, List.sum_cons]
      omega
    | succ k =>
      have := ih (by simpa using h)
      simp only [List.set_cons_succ, List.map_cons, List.sum_cons]
      omega

/-- What the queue is gone from, or no longer to be used. -/
def Fields.Gone (f : Fields τ α) : Prop := f.queueDisposed = true ∨ f.queueField = false

section Falls

variable {size : Nat} {t : τ} {logThrows : Bool} {f f' : Fields τ α} {p : Phase α} {r : Result α}

theorem Phase.Step.falls (h : p.Step size t logThrows f f' r) (hf : f.Ok size)
    (hp : p.Ok size t f) : f'.weight + r.weight size < f.weight + p.weight size := by
  cases h with
  | make task hnew =>
    have hworkers := hf.new hnew
    simp [Fields.weight, hworkers, Phase.weight, Result.weight, Worker.weight]
  | start k task hk =>
    obtain ⟨hlazy, -, -⟩ := hp
    have hlt : k < f.workers.length := by
      rw [hf.length (by rw [hlazy]; exact nofun)]
      exact hk
    have hset := sum_set (f := Worker.weight) (List.getElem?_eq_getElem hlt) .check
    simp only [Worker.weight] at hset
    simp only [Fields.weight, Phase.weight, Result.weight]
    omega
  | joined k hended =>
    have hlt : k < f.workers.length := (List.getElem?_eq_some_iff.mp hended).1
    have hlength := hf.length (Lazy.ne_new hp.1)
    simp only [Phase.weight, Result.weight]
    omega
  | add task =>
    simp only [Fields.weight, Phase.weight, Result.weight, List.length_append,
      List.length_singleton]
    omega
  | _ => simp [Fields.weight, Phase.weight, Result.weight]

theorem Worker.weight_afterError (dies : Bool) :
    (Worker.afterError dies : Worker α).weight ≤ 2 := by
  cases dies <;> simp [afterError, weight]

/-- A worker that waits in `Take` finds the queue, as long as it has not ended. -/
theorem Worker.falls {dies : Bool} {w w' : Worker α} {queue : List α}
    (h : w.step f dies = some (queue, w')) (hgone : f.Gone → w = .ended) :
    w'.weight + 3 * queue.length < w.weight + 3 * f.queue.length := by
  have herror := Worker.weight_afterError (α := α) dies
  cases w with
  | unstarted | ended => exact nomatch h
  | check =>
    cases h
    split <;> simp only [weight] <;> omega
  | running task =>
    cases h
    have hrunning : (Worker.running task).weight = 3 := rfl
    omega
  | take =>
    dsimp only [Worker.step] at h
    split at h
    · next hfield =>
      have : f.Gone := by
        simp only [Bool.or_eq_true, Bool.not_eq_true'] at hfield
        exact hfield.symm
      exact nomatch hgone this
    · split at h
      · cases h
        simp only [weight]
        omega
      · split at h
        · exact nomatch h
        · next hqueue =>
          cases h
          rw [hqueue, List.length_cons]
          simp only [weight]
          omega

end Falls

/-! ### The invariant -/

/-- The queue is given up after the last worker, and joined workers are cancelled. -/
structure Calm (s : State τ α) : Prop where
  gone : s.fields.Gone → s.fields.lazy = .created ∧ s.fields.AllEnded
  joins : ∀ t k, s.phase t = .join k → s.fields.cancelled = true

theorem Phase.Step.calm {size : Nat} {t : τ} {logThrows : Bool} {f f' : Fields τ α} {p : Phase α}
    {r : Result α} (h : p.Step size t logThrows f f' r) (hp : p.Ok size t f) :
    (f'.Gone → f.Gone ∨ f.lazy = .created ∧ f.AllEnded) ∧
      (f.cancelled = true → f'.cancelled = true) ∧
      ∀ k, r = .goes (.join k) → f'.cancelled = true ∨ ∃ k', p = .join k' := by
  cases h with
  | cancel => exact ⟨.inl, fun _ => rfl, fun _ _ => .inl rfl⟩
  | joined k => exact ⟨.inl, id, fun _ _ => .inr ⟨k, rfl⟩⟩
  | disposeQueue => exact ⟨fun _ => .inr hp, id, nofun⟩
  | nullQueue => exact ⟨fun _ => .inr hp, id, nofun⟩
  | _ => exact ⟨.inl, id, nofun⟩

section Runs

variable [DecidableEq τ] {size : Nat} {s s' : State τ α} {a : Action τ α}

omit [DecidableEq τ] in
theorem Calm.update {who : Option τ} {f' : Fields τ α} (hs : Calm s)
    (hlater : Later who s.fields f')
    (hgone : f'.Gone → s.fields.Gone ∨ s.fields.lazy = .created ∧ s.fields.AllEnded)
    (hcancelled : s.fields.cancelled = true → f'.cancelled = true) {phase : τ → Phase α}
    (hphase : ∀ t k, phase t = .join k → f'.cancelled = true ∨ ∃ k', s.phase t = .join k')
    (thrown closeReturned : Bool) : Calm ⟨f', phase, thrown, closeReturned⟩ where
  gone h := by
    obtain ⟨hcreated, hall⟩ := (hgone h).elim hs.gone id
    exact ⟨hlater.created hcreated, hlater.allEnded hcreated hall⟩
  joins t k h := by
    obtain hc | ⟨k', hk'⟩ := hphase t k h
    · exact hc
    · exact hcancelled (hs.joins t k' hk')

/-- A client that goes on in a phase other than `Join`, or in `Join` from `Join`. -/
theorem update_joins {t : τ} {q : Phase α} {f' : Fields τ α}
    (hq : ∀ k, q = .join k → f'.cancelled = true ∨ ∃ k', s.phase t = .join k') (u : τ) (k : Nat)
    (h : Function.update s.phase t q u = .join k) :
    f'.cancelled = true ∨ ∃ k', s.phase u = .join k' := by
  by_cases hu : u = t
  · subst hu
    exact hq k (by simpa using h)
  · rw [Function.update_of_ne hu] at h
    exact .inr ⟨k, h⟩

theorem Calm.next (hs : Calm s) (hbase : Base size s) (hn : (machine size).next s a = some s') :
    Calm s' := by
  have hsame : Later none s.fields s.fields := Later.of_eq id rfl rfl
  cases a with
  | addTask t task =>
    dsimp only [machine, ThreeTierThreadPool.next] at hn
    split at hn
    · cases hn
      split
      · exact hs.update hsame .inl id (update_joins (q := .value task) (by simp)) _ _
      · exact hs.update hsame .inl id (fun _ k h => .inr ⟨k, h⟩) _ _
    · exact nomatch hn
  | close t =>
    dsimp only [machine, ThreeTierThreadPool.next] at hn
    split at hn
    · cases hn
      exact hs.update hsame .inl id (update_joins (q := .nullImpl s.fields.impl) (by simp)) _ _
    · exact nomatch hn
  | step t logThrows =>
    obtain ⟨⟨f', r⟩, hstep, rfl⟩ := Option.map_eq_some_iff.mp hn
    have hcases := Phase.step_cases hstep
    obtain ⟨-, hlater, -⟩ := hcases.base hbase.fields (hbase.phase t)
    obtain ⟨hgone, hcancelled, hjoin⟩ := hcases.calm (hbase.phase t)
    cases r with
    | goes p =>
      refine hs.update hlater hgone hcancelled (update_joins fun k h => hjoin k ?_) _ _
      rw [h]
    | returned | threw =>
      exact hs.update hlater hgone hcancelled (update_joins (q := .idle) (by simp)) _ _
  | work k dies =>
    dsimp only [machine, ThreeTierThreadPool.next] at hn
    split at hn
    · exact nomatch hn
    · next w hw =>
      obtain ⟨⟨queue, w'⟩, hstep, rfl⟩ := Option.map_eq_some_iff.mp hn
      obtain ⟨-, hlater⟩ := work_base hbase.fields hw hstep rfl
      exact hs.update hlater .inl id (fun _ k h => .inr ⟨k, h⟩) _ _

def Steady (size : Nat) (s : State τ α) : Prop := Base size s ∧ Calm s

omit [DecidableEq τ] in
theorem start_steady : Steady size (start : State τ α) :=
  ⟨⟨⟨fun _ => rfl, fun h => absurd rfl h, nofun, nofun, fun _ => ⟨rfl, rfl, rfl, rfl, nofun⟩⟩,
    fun _ => trivial, nofun⟩, ⟨fun h => by simp [Fields.Gone, start] at h, nofun⟩⟩

theorem steady_of_reachable (h : (machine size).Reachable s) : Steady size s := by
  refine h.invariant (I := Steady size) ?_ ?_
  · rintro _ rfl
    exact start_steady
  · intro s a s' hs _ hn
    exact ⟨hs.1.next hn, hs.2.next hs.1 hn⟩

/-! ### Rest -/

/-- A step of a call or of a worker; the others are new calls. -/
def inner : Action τ α → Prop
  | .step _ _ | .work _ _ => True
  | .addTask _ _ | .close _ => False

/-- At rest a worker has not started, has ended, or waits for a task. -/
theorem Steady.worker_atRest (hrest : (machine size).AtRest inner s) {k : Nat} {w : Worker α}
    (hw : s.fields.workers[k]? = some w) : w = .unstarted ∨ w = .ended ∨
      w = .take ∧ s.fields.queue = [] ∧ s.fields.cancelled = false := by
  have hnone : w.step s.fields false = none := by
    have := hrest (.work k false) trivial
    simpa [machine, ThreeTierThreadPool.next, hw] using this
  cases w with
  | unstarted => exact .inl rfl
  | ended => exact .inr (.inl rfl)
  | check | running => simp [Worker.step] at hnone
  | take =>
    dsimp only [Worker.step] at hnone
    split at hnone
    · cases hnone
    · split at hnone
      · cases hnone
      · next hcancelled =>
        split at hnone
        · next hqueue => exact .inr (.inr ⟨rfl, hqueue, by simpa using hcancelled⟩)
        · cases hnone

/-- A call waits only for the constructor in another call, or for a worker. -/
theorem Steady.idle_of_atRest (hs : Steady size s) (hrest : (machine size).AtRest inner s) (t : τ) :
    s.phase t = .idle := by
  have hstep (u : τ) : (s.phase u).step size u false s.fields = none := by
    have := hrest (.step u false) trivial
    simpa [machine, ThreeTierThreadPool.next] using this
  have hphase := hs.1.phase t
  cases hp : s.phase t with
  | idle => rfl
  | value task =>
    have hnone := hstep t
    cases hlazy : s.fields.lazy with
    | new | created => simp [hp, Phase.step, hlazy] at hnone
    | running u =>
      obtain ⟨k, task', hu⟩ := hs.1.running u hlazy
      have hnone := hstep u
      simp only [hu, Phase.step] at hnone
      split at hnone <;> simp at hnone
  | join k =>
    rw [hp] at hphase
    have hnone := hstep t
    cases hw : s.fields.workers[k]? with
    | none => simp [hp, Phase.step, hw] at hnone
    | some w =>
      obtain rfl | rfl | ⟨rfl, -, hcancelled⟩ := Steady.worker_atRest hrest hw
      · exact absurd (List.mem_of_getElem? hw) (hs.1.fields.created hphase.1)
      · simp [hp, Phase.step, hw] at hnone
      · exact absurd (hs.2.joins t k hp) (by simp [hcancelled])
  | isValueCreated impl =>
    have hnone := hstep t
    simp only [hp, Phase.step] at hnone
    split at hnone
    · split at hnone <;> simp at hnone
    · simp at hnone
  | constructing | check | readQueue | add | taken | cancel =>
    have hnone := hstep t
    simp only [hp, Phase.step] at hnone
    split at hnone <;> simp at hnone
  | _ =>
    have hnone := hstep t
    simp [hp, Phase.step] at hnone

section Weight

variable [Fintype τ]

def State.weight (size : Nat) (s : State τ α) : Nat :=
  (∑ t, (s.phase t).weight size) + s.fields.weight

/-- The weights of the phases when one client goes on. -/
theorem sum_update (size : Nat) (phase : τ → Phase α) (t : τ) (q : Phase α) :
    (∑ u, (Function.update phase t q u).weight size) + (phase t).weight size =
      (∑ u, (phase u).weight size) + q.weight size := by
  have hupdate : (fun u => (Function.update phase t q u).weight size) =
      Function.update (fun u => (phase u).weight size) t (q.weight size) := by
    funext u
    by_cases hu : u = t
    · subst hu
      simp
    · simp [Function.update_of_ne hu]
  have hsplit := Finset.sum_eq_add_sum_sdiff_singleton_of_mem (Finset.mem_univ t)
    fun u => (phase u).weight size
  rw [hupdate, Finset.sum_update_of_mem (Finset.mem_univ t), hsplit]
  omega

theorem Steady.weight_falls (hs : Steady size s) (ha : inner a)
    (hn : (machine size).next s a = some s') : s'.weight size < s.weight size := by
  cases a with
  | addTask | close => exact ha.elim
  | step t logThrows =>
    obtain ⟨⟨f', r⟩, hstep, rfl⟩ := Option.map_eq_some_iff.mp hn
    have hfalls := (Phase.step_cases hstep).falls hs.1.fields (hs.1.phase t)
    cases r with
    | goes p =>
      have hsum := sum_update size s.phase t p
      simp only [State.weight, State.advance]
      simp only [Result.weight] at hfalls
      omega
    | returned | threw =>
      have hsum := sum_update size s.phase t .idle
      have hidle : (Phase.idle : Phase α).weight size = 0 := rfl
      simp only [State.weight, State.advance]
      simp only [Result.weight] at hfalls
      omega
  | work k dies =>
    dsimp only [machine, ThreeTierThreadPool.next] at hn
    split at hn
    · exact nomatch hn
    · next w hw =>
      obtain ⟨⟨queue, w'⟩, hstep, rfl⟩ := Option.map_eq_some_iff.mp hn
      have hended (hgone : s.fields.Gone) : w = .ended :=
        (hs.2.gone hgone).2 w (List.mem_of_getElem? hw)
      have hfalls := Worker.falls hstep hended
      have hset := sum_set (f := Worker.weight) hw w'
      simp only [State.weight, Fields.weight]
      omega

/-- The calls and the workers of a pool. -/
def draining (τ α : Type) [DecidableEq τ] [Fintype τ] (size : Nat) :
    Draining (machine size : Machine (State τ α) (Action τ α)) inner (Steady size) where
  measure s := s.weight size
  keeps _ _ _ hs _ hn := ⟨hs.1.next hn, hs.2.next hs.1 hn⟩
  falls _ _ _ hs ha hn := hs.weight_falls ha hn

end Weight

end Runs

end Garbage.ThreeTierThreadPool
