import Garbage.ThreeTierThreadPool.ThreadPool
import Mathlib.Data.List.Basic

/-!
# The steps of the thread pool

`Phase.Step` and `Worker.step` say what one thread does.  What the fields and the
phase of each client say of each other in all runs is `Base` (`Base.next`).  A
step of one client keeps what another one knows, because it leaves the fields
`Later` than they were: the pool stays made, started workers stay started and
ended ones ended.
-/

namespace Garbage.ThreeTierThreadPool

open Foundation (Machine)

variable {τ α : Type}

/-! ### The invariant of all runs -/

def Worker.runs : Worker α → Bool
  | .unstarted | .ended => false
  | _ => true

def Fields.AllEnded (f : Fields τ α) : Prop := ∀ w ∈ f.workers, w = .ended

/-- What a client knows of the fields. -/
def Phase.Ok (size : Nat) (t : τ) (f : Fields τ α) : Phase α → Prop
  | .constructing k _ => f.lazy = .running t ∧ k ≤ size ∧
      ∀ i : Nat, i < k → f.workers[i]? ≠ some .unstarted
  | .check _ | .readQueue _ | .add _ | .close | .readPool | .nullPool _ | .taken _ | .cancel =>
    f.lazy = .created
  | .join k => f.lazy = .created ∧ ∀ i : Nat, i < k → f.workers[i]? = some .ended
  | .disposeCts | .lookQueue | .disposeQueue | .nullQueue => f.lazy = .created ∧ f.AllEnded
  | .isValueCreated _ => f.impl = false
  | .idle | .value _ | .nullImpl _ => True

structure Fields.Ok (size : Nat) (f : Fields τ α) : Prop where
  new : f.lazy = .new → f.workers = []
  length : f.lazy ≠ .new → f.workers.length = size
  created : f.lazy = .created → .unstarted ∉ f.workers
  disposed : f.ctsDisposed = true → f.lazy = .created ∧ f.AllEnded
  /-- nobody touches the pool before it is made -/
  untouched : f.lazy ≠ .created → f.cancelled = false ∧ f.queueField = true ∧
    f.queueDisposed = false ∧ f.queue = [] ∧
    ∀ w ∈ f.workers, w = .unstarted ∨ w = .check ∨ w = .take

structure Base (size : Nat) (s : State τ α) : Prop where
  fields : s.fields.Ok size
  phase : ∀ t, (s.phase t).Ok size t s.fields
  running : ∀ t, s.fields.lazy = .running t → ∃ k task, s.phase t = .constructing k task

/-- The fields after a step that is not one of `who`. -/
structure Later (who : Option τ) (f f' : Fields τ α) : Prop where
  impl : f.impl = false → f'.impl = false
  created : f.lazy = .created → f'.lazy = .created
  running : ∀ u, some u ≠ who → f.lazy = .running u → f'.lazy = .running u
  length : f.lazy ≠ .new → f'.workers.length = f.workers.length
  started : f.lazy ≠ .new → ∀ i : Nat, f'.workers[i]? = some .unstarted →
    f.workers[i]? = some .unstarted
  ended : ∀ i : Nat, f.workers[i]? = some .ended → f'.workers[i]? = some .ended

section Later

variable {who : Option τ} {f f' : Fields τ α} {size : Nat} {u : τ} {p : Phase α}

theorem Later.of_eq (himpl : f.impl = false → f'.impl = false) (hlazy : f'.lazy = f.lazy)
    (hworkers : f'.workers = f.workers) : Later who f f' :=
  ⟨himpl, fun h => hlazy.trans h, fun _ _ h => hlazy.trans h,
    fun _ => congrArg List.length hworkers,
    fun _ i h => by rwa [hworkers] at h, fun i h => by rwa [hworkers]⟩

theorem Later.allEnded (h : Later who f f') (hcreated : f.lazy = .created) (hall : f.AllEnded) :
    f'.AllEnded := by
  have hne : f.lazy ≠ .new := by rw [hcreated]; exact nofun
  intro w hw
  obtain ⟨i, hi⟩ := List.mem_iff_getElem?.mp hw
  have hlt : i < f.workers.length := by
    rw [← h.length hne]
    exact (List.getElem?_eq_some_iff.mp hi).1
  have hended : f.workers[i]? = some .ended := by
    rw [List.getElem?_eq_getElem hlt, hall _ (List.getElem_mem hlt)]
  exact Option.some.inj (hi.symm.trans (h.ended i hended))

/-- The step of one client, or of a worker, keeps what another client knows. -/
theorem Phase.Ok.later (hp : p.Ok size u f) (hu : some u ≠ who) (h : Later who f f') :
    p.Ok size u f' := by
  cases p with
  | constructing k task =>
    obtain ⟨hlazy, hk, hstarted⟩ := hp
    refine ⟨h.running u hu hlazy, hk, fun i hi hun => hstarted i hi (h.started ?_ i hun)⟩
    rw [hlazy]
    exact nofun
  | check | readQueue | add | close | readPool | nullPool | taken | cancel => exact h.created hp
  | join k => exact ⟨h.created hp.1, fun i hi => h.ended i (hp.2 i hi)⟩
  | disposeCts | lookQueue | disposeQueue | nullQueue =>
    exact ⟨h.created hp.1, h.allEnded hp.1 hp.2⟩
  | isValueCreated impl => exact h.impl hp
  | idle | value | nullImpl => trivial

end Later

/-! ### The steps of the clients -/

section Steps

variable {f f' : Fields τ α} {size : Nat} {t : τ} {p : Phase α} {r : Result α} {logThrows : Bool}

/-- What the step of a client does to the fields, branch by branch. -/
inductive Phase.Step (size : Nat) (t : τ) (logThrows : Bool) (f : Fields τ α) :
    Phase α → Fields τ α → Result α → Prop
  | make (task : α) (hnew : f.lazy = .new) : Step size t logThrows f (.value task)
      { f with lazy := .running t, workers := List.replicate size .unstarted }
      (.goes (.constructing 0 task))
  | made (task : α) (hcreated : f.lazy = .created) :
      Step size t logThrows f (.value task) f (.goes (.check task))
  | start (k : Nat) (task : α) (hk : k < size) : Step size t logThrows f (.constructing k task)
      { f with workers := f.workers.set k .check } (.goes (.constructing (k + 1) task))
  | created (k : Nat) (task : α) (hk : ¬ k < size) :
      Step size t logThrows f (.constructing k task) { f with lazy := .created }
        (.goes (.check task))
  | late (task : α) : Step size t logThrows f (.check task) f .returned
  | inTime (task : α) : Step size t logThrows f (.check task) f (.goes (.readQueue task))
  | readQueue (task : α) : Step size t logThrows f (.readQueue task) f (.goes (.add task))
  | nullReference (task : α) (hfield : ¬ f.queueField) :
      Step size t logThrows f (.readQueue task) f .threw
  | objectDisposed (task : α) (hdisposed : f.queueDisposed) :
      Step size t logThrows f (.add task) f .threw
  | add (task : α) : Step size t logThrows f (.add task) { f with queue := f.queue ++ [task] }
      .returned
  | nullImpl (impl : Bool) : Step size t logThrows f (.nullImpl impl) { f with impl := false }
      (.goes (.isValueCreated impl))
  | valueCreated (hcreated : f.lazy = .created) :
      Step size t logThrows f (.isValueCreated true) f (.goes .close)
  | notCreated (hcreated : f.lazy ≠ .created) :
      Step size t logThrows f (.isValueCreated true) f .returned
  | noImpl : Step size t logThrows f (.isValueCreated false) f .threw
  | close : Step size t logThrows f .close { f with closed := true } (.goes .readPool)
  | readPool : Step size t logThrows f .readPool f (.goes (.nullPool f.pool))
  | nullPool (pool : Bool) :
      Step size t logThrows f (.nullPool pool) { f with pool := false } (.goes (.taken pool))
  | takenPool : Step size t logThrows f (.taken true) f (.goes .cancel)
  | takenNull : Step size t logThrows f (.taken false) f .returned
  | cancel : Step size t logThrows f .cancel { f with cancelled := true } (.goes (.join 0))
  | cancelLogged (hdisposed : f.ctsDisposed) : Step size t logThrows f .cancel f .returned
  | cancelThrew (hdisposed : f.ctsDisposed) (hlog : logThrows) :
      Step size t logThrows f .cancel f .threw
  | joinedAll (k : Nat) (hnone : f.workers[k]? = none) :
      Step size t logThrows f (.join k) f (.goes .disposeCts)
  | joined (k : Nat) (hended : f.workers[k]? = some .ended) :
      Step size t logThrows f (.join k) f (.goes (.join (k + 1)))
  | disposeCts : Step size t logThrows f .disposeCts { f with ctsDisposed := true }
      (.goes .lookQueue)
  | foundQueue : Step size t logThrows f .lookQueue f (.goes .disposeQueue)
  | foundNull : Step size t logThrows f .lookQueue f (.goes .nullQueue)
  | disposeQueue : Step size t logThrows f .disposeQueue { f with queueDisposed := true }
      (.goes .nullQueue)
  | nullQueue : Step size t logThrows f .nullQueue { f with queueField := false } .returned

section Phases

open Phase (Step)

variable {task : α} {k : Nat}

theorem value_cases (h : (Phase.value task).step size t logThrows f = some (f', r)) :
    Step size t logThrows f (.value task) f' r := by
  dsimp only [Phase.step] at h
  split at h
  · next hnew =>
    cases h
    exact .make task hnew
  · exact nomatch h
  · next hcreated =>
    cases h
    exact .made task hcreated

theorem constructing_cases
    (h : (Phase.constructing k task).step size t logThrows f = some (f', r)) :
    Step size t logThrows f (.constructing k task) f' r := by
  dsimp only [Phase.step] at h
  split at h
  · next hk =>
    cases h
    exact .start k task hk
  · next hk =>
    cases h
    exact .created k task hk

theorem check_cases (h : (Phase.check task).step size t logThrows f = some (f', r)) :
    Step size t logThrows f (.check task) f' r := by
  dsimp only [Phase.step] at h
  split at h
  · cases h
    exact .late task
  · cases h
    exact .inTime task

theorem readQueue_cases (h : (Phase.readQueue task).step size t logThrows f = some (f', r)) :
    Step size t logThrows f (.readQueue task) f' r := by
  dsimp only [Phase.step] at h
  split at h
  · cases h
    exact .readQueue task
  · next hfield =>
    cases h
    exact .nullReference task hfield

theorem add_cases (h : (Phase.add task).step size t logThrows f = some (f', r)) :
    Step size t logThrows f (.add task) f' r := by
  dsimp only [Phase.step] at h
  split at h
  · next hdisposed =>
    cases h
    exact .objectDisposed task hdisposed
  · cases h
    exact .add task

theorem isValueCreated_cases {impl : Bool}
    (h : (Phase.isValueCreated impl : Phase α).step size t logThrows f = some (f', r)) :
    Step size t logThrows f (.isValueCreated impl) f' r := by
  dsimp only [Phase.step] at h
  cases impl with
  | false =>
    cases h
    exact .noImpl
  | true =>
    rw [if_pos rfl] at h
    split at h
    · next hcreated =>
      cases h
      exact .valueCreated hcreated
    · next hcreated =>
      cases h
      exact .notCreated hcreated

theorem taken_cases {pool : Bool}
    (h : (Phase.taken pool : Phase α).step size t logThrows f = some (f', r)) :
    Step size t logThrows f (.taken pool) f' r := by
  cases pool with
  | false =>
    cases h
    exact .takenNull
  | true =>
    cases h
    exact .takenPool

theorem cancel_cases (h : (Phase.cancel : Phase α).step size t logThrows f = some (f', r)) :
    Step size t logThrows f .cancel f' r := by
  dsimp only [Phase.step] at h
  split at h
  · next hdisposed =>
    cases hlog : logThrows with
    | false =>
      rw [hlog] at h
      cases h
      exact .cancelLogged hdisposed
    | true =>
      rw [hlog] at h
      cases h
      exact .cancelThrew hdisposed rfl
  · cases h
    exact .cancel

theorem join_cases (h : (Phase.join k : Phase α).step size t logThrows f = some (f', r)) :
    Step size t logThrows f (.join k) f' r := by
  dsimp only [Phase.step] at h
  split at h
  · next hnone =>
    cases h
    exact .joinedAll k hnone
  · next hended =>
    cases h
    exact .joined k hended
  · exact nomatch h

theorem lookQueue_cases (h : (Phase.lookQueue : Phase α).step size t logThrows f = some (f', r)) :
    Step size t logThrows f .lookQueue f' r := by
  cases h
  split
  · exact .foundQueue
  · exact .foundNull

end Phases

/-- **Every step of a client is in the list.** -/
theorem Phase.step_cases (h : p.step size t logThrows f = some (f', r)) :
    p.Step size t logThrows f f' r := by
  cases p with
  | idle => exact nomatch h
  | value task => exact value_cases h
  | constructing k task => exact constructing_cases h
  | check task => exact check_cases h
  | readQueue task => exact readQueue_cases h
  | add task => exact add_cases h
  | isValueCreated impl => exact isValueCreated_cases h
  | taken pool => exact taken_cases h
  | cancel => exact cancel_cases h
  | join k => exact join_cases h
  | lookQueue => exact lookQueue_cases h
  | nullImpl impl =>
    cases h
    exact .nullImpl impl
  | nullPool pool =>
    cases h
    exact .nullPool pool
  | close =>
    cases h
    exact .close
  | readPool =>
    cases h
    exact .readPool
  | disposeCts =>
    cases h
    exact .disposeCts
  | disposeQueue =>
    cases h
    exact .disposeQueue
  | nullQueue =>
    cases h
    exact .nullQueue

/-- What holds of the phase with which a call goes on. -/
def Result.OfNext (P : Phase α → Prop) : Result α → Prop
  | .goes p => P p
  | .returned | .threw => True

theorem Lazy.ne_new {lazy : Lazy τ} (h : lazy = .created) : lazy ≠ .new := by
  rw [h]
  exact nofun

/-- A step that changes neither the `Lazy` nor the workers of a pool that is made. -/
theorem Fields.Ok.of_created (hf : f.Ok size) (hcreated : f.lazy = .created)
    (hlazy : f'.lazy = f.lazy) (hworkers : f'.workers = f.workers)
    (hdisposed : f'.ctsDisposed = true → f.AllEnded) : f'.Ok size := by
  have hcreated' := hlazy.trans hcreated
  refine ⟨fun h => absurd h (Lazy.ne_new hcreated'), fun _ => ?_, fun _ => ?_, fun h => ?_,
    fun h => absurd hcreated' h⟩
  · rw [hworkers]
    exact hf.length (Lazy.ne_new hcreated)
  · rw [hworkers]
    exact hf.created hcreated
  · refine ⟨hcreated', ?_⟩
    rw [Fields.AllEnded, hworkers]
    exact hdisposed h

theorem value_base (hf : f.Ok size) (hnew : f.lazy = .new) (h : f' = { f with
      lazy := .running t, workers := List.replicate size .unstarted }) :
    f'.Ok size ∧ Later (some t) f f' := by
  have hne {lazy : Lazy τ} (h : f.lazy = lazy) (hlazy : lazy ≠ .new) : False :=
    hlazy (h.symm.trans hnew)
  obtain ⟨hcancelled, hfield, hqueue, hempty, -⟩ := hf.untouched fun h => hne h nofun
  subst h
  refine ⟨⟨nofun, fun _ => List.length_replicate, nofun, fun h => ?_, fun _ =>
    ⟨hcancelled, hfield, hqueue, hempty, fun w hw => .inl (List.eq_of_mem_replicate hw)⟩⟩,
    ⟨id, fun h => (hne h nofun).elim, fun u _ h => (hne h nofun).elim, fun h => absurd hnew h,
      fun h => absurd hnew h, fun i hi => ?_⟩⟩
  · exact (hne (hf.disposed h).1 nofun).elim
  · rw [hf.new hnew] at hi
    exact nomatch hi

theorem start_base {k : Nat} {task : α} (hf : f.Ok size)
    (hp : (Phase.constructing k task).Ok size t f) (hk : k < size)
    (h : f' = { f with workers := f.workers.set k .check }) :
    f'.Ok size ∧ Later (some t) f f' ∧ (Phase.constructing (k + 1) task).Ok size t f' := by
  obtain ⟨hlazy, -, hstarted⟩ := hp
  have hne : f.lazy ≠ .new := by rw [hlazy]; exact nofun
  have hncreated : f.lazy ≠ .created := by rw [hlazy]; exact nofun
  obtain ⟨hcancelled, hfield, hqueue, hempty, hworkers⟩ := hf.untouched hncreated
  have hlength := hf.length hne
  have hset (i : Nat) (hi : (f.workers.set k .check)[i]? = some .unstarted) :
      i ≠ k ∧ f.workers[i]? = some .unstarted := by
    have hik : i ≠ k := by
      rintro rfl
      rw [List.getElem?_set_self (hlength ▸ hk)] at hi
      exact nomatch hi
    rw [List.getElem?_set_ne hik.symm] at hi
    exact ⟨hik, hi⟩
  subst h
  refine ⟨⟨fun h => absurd h hne, fun _ => List.length_set.trans hlength,
    fun h => absurd h hncreated, fun h => absurd (hf.disposed h).1 hncreated, fun _ =>
      ⟨hcancelled, hfield, hqueue, hempty, fun w hw => ?_⟩⟩,
    ⟨id, fun h => absurd h hncreated, fun u _ h => h, fun _ => List.length_set,
      fun _ i hi => (hset i hi).2, fun i hi => ?_⟩, hlazy, hk, fun i hi hun => ?_⟩
  · rcases List.mem_or_eq_of_mem_set hw with hw | rfl
    · exact hworkers w hw
    · exact .inr (.inl rfl)
  · rcases hworkers _ (List.mem_of_getElem? hi) with h | h | h <;> exact nomatch h
  · obtain ⟨hik, hun⟩ := hset i hun
    exact hstarted i (by omega) hun

theorem created_base {k : Nat} {task : α} (hf : f.Ok size)
    (hp : (Phase.constructing k task).Ok size t f) (hk : ¬ k < size)
    (h : f' = { f with lazy := .created }) : f'.Ok size ∧ Later (some t) f f' := by
  obtain ⟨hlazy, -, hstarted⟩ := hp
  have hne : f.lazy ≠ .new := by rw [hlazy]; exact nofun
  have hncreated : f.lazy ≠ .created := by rw [hlazy]; exact nofun
  subst h
  refine ⟨⟨nofun, fun _ => hf.length hne, fun _ hmem => ?_, fun h => ?_, fun h => absurd rfl h⟩,
    ⟨id, fun _ => rfl, fun u hu h => ?_, fun _ => rfl, fun _ _ h => h, fun _ h => h⟩⟩
  · obtain ⟨i, hi⟩ := List.mem_iff_getElem?.mp hmem
    have hlt : i < f.workers.length := (List.getElem?_eq_some_iff.mp hi).1
    have hlength := hf.length hne
    exact hstarted i (by omega) hi
  · exact absurd (hf.disposed h).1 hncreated
  · rw [hlazy] at h
    cases h
    exact absurd rfl hu

theorem join_allEnded {k : Nat} (hended : ∀ i : Nat, i < k → f.workers[i]? = some .ended)
    (hnone : f.workers[k]? = none) : f.AllEnded := by
  intro w hw
  obtain ⟨i, hi⟩ := List.mem_iff_getElem?.mp hw
  have hlt := (List.getElem?_eq_some_iff.mp hi).1
  have hlength := List.getElem?_eq_none_iff.mp hnone
  exact Option.some.inj (hi.symm.trans (hended i (by omega)))

/-- The step of a client keeps the fields in order and leaves them later. -/
theorem Phase.Step.base (h : p.Step size t logThrows f f' r) (hf : f.Ok size)
    (hp : p.Ok size t f) :
    f'.Ok size ∧ Later (some t) f f' ∧ r.OfNext fun p' => p'.Ok size t f' := by
  have hsame : Later (some t) f f := Later.of_eq id rfl rfl
  have hdisposed (h : f.ctsDisposed = true) : f.AllEnded := (hf.disposed h).2
  cases h with
  | make task hnew =>
    obtain ⟨hf', hlater⟩ := value_base (t := t) hf hnew rfl
    exact ⟨hf', hlater, rfl, Nat.zero_le _, nofun⟩
  | start k task hk => exact start_base hf hp hk rfl
  | created k task hk =>
    obtain ⟨hf', hlater⟩ := created_base hf hp hk rfl
    exact ⟨hf', hlater, rfl⟩
  | made task hcreated | valueCreated hcreated => exact ⟨hf, hsame, hcreated⟩
  | inTime | readQueue | readPool | takenPool => exact ⟨hf, hsame, hp⟩
  | foundQueue | foundNull => exact ⟨hf, hsame, hp⟩
  | late | nullReference | objectDisposed | notCreated | noImpl => exact ⟨hf, hsame, trivial⟩
  | takenNull | cancelLogged | cancelThrew => exact ⟨hf, hsame, trivial⟩
  | nullImpl impl =>
    exact ⟨⟨hf.new, hf.length, hf.created, hf.disposed, hf.untouched⟩,
      Later.of_eq (fun _ => rfl) rfl rfl, rfl⟩
  | add task => exact ⟨hf.of_created hp rfl rfl hdisposed, Later.of_eq id rfl rfl, trivial⟩
  | close | nullPool => exact ⟨hf.of_created hp rfl rfl hdisposed, Later.of_eq id rfl rfl, hp⟩
  | cancel =>
    exact ⟨hf.of_created hp rfl rfl hdisposed, Later.of_eq id rfl rfl, hp, nofun⟩
  | joinedAll k hnone => exact ⟨hf, hsame, hp.1, join_allEnded hp.2 hnone⟩
  | joined k hended =>
    refine ⟨hf, hsame, hp.1, fun i hi => ?_⟩
    rcases Nat.lt_succ_iff_lt_or_eq.mp hi with hi | rfl
    · exact hp.2 i hi
    · exact hended
  | disposeCts =>
    exact ⟨hf.of_created hp.1 rfl rfl fun _ => hp.2, Later.of_eq id rfl rfl, hp⟩
  | disposeQueue => exact ⟨hf.of_created hp.1 rfl rfl hdisposed, Later.of_eq id rfl rfl, hp⟩
  | nullQueue => exact ⟨hf.of_created hp.1 rfl rfl hdisposed, Later.of_eq id rfl rfl, trivial⟩

/-- A client that leaves the `Lazy` in the hands of `u` is `u` in the constructor, or
it did not touch the `Lazy`. -/
theorem Phase.Step.running {u : τ} (h : p.Step size t logThrows f f' r) (hp : p.Ok size t f)
    (hrunning : f'.lazy = .running u) :
    (u = t ∧ ∃ k task, r = .goes (.constructing k task)) ∨
      f.lazy = .running u ∧ ∀ k task, p ≠ .constructing k task := by
  cases h with
  | make task hnew =>
    cases hrunning
    exact .inl ⟨rfl, 0, task, rfl⟩
  | start k task hk =>
    cases hp.1.symm.trans hrunning
    exact .inl ⟨rfl, k + 1, task, rfl⟩
  | created => exact nomatch hrunning
  | _ => exact .inr ⟨hrunning, nofun⟩

/-! ### The steps of the workers -/

section Work

variable {k : Nat} {dies : Bool} {w w' : Worker α} {queue : List α}

/-- A worker that takes a step is started. -/
theorem Worker.runs_of_step (h : w.step f dies = some (queue, w')) : w.runs = true := by
  cases w with
  | unstarted | ended => exact nomatch h
  | check | take | running => rfl

theorem Worker.started_of_step (h : w.step f dies = some (queue, w')) : w' ≠ .unstarted := by
  have herror : (Worker.afterError dies : Worker α) ≠ .unstarted := by
    cases dies <;> exact nofun
  cases w with
  | unstarted | ended => exact nomatch h
  | check =>
    cases h
    split <;> exact nofun
  | running task =>
    cases h
    exact herror
  | take =>
    dsimp only [Worker.step] at h
    split at h
    · cases h
      exact herror
    · split at h
      · cases h
        exact nofun
      · split at h
        · exact nomatch h
        · cases h
          exact nofun

/-- A worker of a pool that is not made goes to `Take`, which blocks. -/
theorem Worker.step_untouched (hf : f.Ok size) (hlazy : f.lazy ≠ .created)
    (hw : f.workers[k]? = some w) (h : w.step f dies = some (queue, w')) :
    queue = [] ∧ w' = .take := by
  obtain ⟨hcancelled, hfield, hqueue, hempty, hworkers⟩ := hf.untouched hlazy
  rcases hworkers w (List.mem_of_getElem? hw) with rfl | rfl | rfl
  · exact nomatch h
  · dsimp only [Worker.step] at h
    rw [hcancelled, hempty] at h
    cases h
    exact ⟨rfl, rfl⟩
  · dsimp only [Worker.step] at h
    rw [hfield, hqueue, hcancelled, hempty] at h
    exact nomatch h

theorem work_base (hf : f.Ok size) (hw : f.workers[k]? = some w)
    (h : w.step f dies = some (queue, w')) (hf' : f' = { f with
      queue := queue, workers := f.workers.set k w' }) : f'.Ok size ∧ Later none f f' := by
  have hlt := (List.getElem?_eq_some_iff.mp hw).1
  have hruns := Worker.runs_of_step h
  have hended (i : Nat) (hi : f.workers[i]? = some .ended) :
      (f.workers.set k w')[i]? = some .ended := by
    have hik : k ≠ i := by
      rintro rfl
      cases hw.symm.trans hi
      exact nomatch hruns
    rwa [List.getElem?_set_ne hik]
  have hstarted (i : Nat) (hi : (f.workers.set k w')[i]? = some .unstarted) :
      f.workers[i]? = some .unstarted := by
    by_cases hik : k = i
    · subst hik
      rw [List.getElem?_set_self hlt] at hi
      exact absurd (Option.some.inj hi) (Worker.started_of_step h)
    · rwa [List.getElem?_set_ne hik] at hi
  subst hf'
  have hlater : Later none f { f with queue := queue, workers := f.workers.set k w' } :=
    ⟨id, id, fun _ _ h => h, fun _ => List.length_set, fun _ => hstarted, hended⟩
  refine ⟨⟨fun hnew => ?_, fun hne => List.length_set.trans (hf.length hne),
    fun hcreated hmem => ?_, fun hd => ?_, fun hlazy => ?_⟩, hlater⟩
  · rw [hf.new hnew] at hw
    exact nomatch hw
  · obtain ⟨i, hi⟩ := List.mem_iff_getElem?.mp hmem
    exact hf.created hcreated (List.mem_of_getElem? (hstarted i hi))
  · obtain ⟨hcreated, hall⟩ := hf.disposed hd
    exact ⟨hcreated, hlater.allEnded hcreated hall⟩
  · obtain ⟨hqueue, rfl⟩ := Worker.step_untouched hf hlazy hw h
    obtain ⟨hcancelled, hfield, hdisposed, -, hworkers⟩ := hf.untouched hlazy
    refine ⟨hcancelled, hfield, hdisposed, hqueue, fun v hv => ?_⟩
    rcases List.mem_or_eq_of_mem_set hv with hv | rfl
    · exact hworkers v hv
    · exact .inr (.inr rfl)

end Work

end Steps

/-! ### All runs -/

section Runs

variable [DecidableEq τ] {size : Nat} {s s' : State τ α} {a : Action τ α} {f' : Fields τ α}
  {t : τ} {q : Phase α}

theorem Base.update (hs : Base size s) (hf : f'.Ok size) (hlater : Later (some t) s.fields f')
    (hq : q.Ok size t f') (hrunning : ∀ u, f'.lazy = .running u →
      (u = t ∧ ∃ k task, q = .constructing k task) ∨
        s.fields.lazy = .running u ∧ ∀ k task, s.phase t ≠ .constructing k task)
    (thrown closeReturned : Bool) :
    Base size ⟨f', Function.update s.phase t q, thrown, closeReturned⟩ := by
  refine ⟨hf, fun u => ?_, fun u hu => ?_⟩
  · by_cases hut : u = t
    · subst hut
      simpa using hq
    · have hold := (hs.phase u).later (fun h => hut (Option.some.inj h)) hlater
      simpa [Function.update_of_ne hut] using hold
  · rcases hrunning u hu with ⟨rfl, hq'⟩ | ⟨hlazy, hne⟩
    · simpa using hq'
    · obtain ⟨k, task, hphase⟩ := hs.running u hlazy
      have hut : u ≠ t := by
        rintro rfl
        exact hne k task hphase
      exact ⟨k, task, by simpa [Function.update_of_ne hut] using hphase⟩

theorem Base.next (hs : Base size s) (hn : (machine size).next s a = some s') : Base size s' := by
  have hkeep {t : τ} (hidle : s.phase t = .idle) (u : τ) (hu : s.fields.lazy = .running u) :
      s.fields.lazy = .running u ∧ ∀ k task, s.phase t ≠ .constructing k task :=
    ⟨hu, fun _ _ h => nomatch hidle.symm.trans h⟩
  cases a with
  | addTask t task =>
    dsimp only [machine, ThreeTierThreadPool.next] at hn
    split at hn
    · next hidle =>
      cases hn
      split
      · exact hs.update (q := .value task) hs.fields (Later.of_eq id rfl rfl) trivial
          (fun u hu => .inr (hkeep hidle u hu)) _ _
      · exact ⟨hs.fields, hs.phase, hs.running⟩
    · exact nomatch hn
  | close t =>
    dsimp only [machine, ThreeTierThreadPool.next] at hn
    split at hn
    · next hidle =>
      cases hn
      exact hs.update (q := .nullImpl s.fields.impl) hs.fields (Later.of_eq id rfl rfl) trivial
        (fun u hu => .inr (hkeep hidle u hu)) _ _
    · exact nomatch hn
  | step t logThrows =>
    obtain ⟨⟨f', r⟩, hstep, rfl⟩ := Option.map_eq_some_iff.mp hn
    have hcases := Phase.step_cases hstep
    obtain ⟨hf, hlater, hnext⟩ := hcases.base hs.fields (hs.phase t)
    have hrunning (u : τ) (hu : f'.lazy = .running u) := hcases.running (hs.phase t) hu
    cases r with
    | goes p =>
      refine hs.update hf hlater hnext (fun u hu => ?_) _ _
      refine (hrunning u hu).imp_left fun ⟨hut, k, task, hp⟩ => ⟨hut, k, task, ?_⟩
      cases hp
      rfl
    | returned | threw =>
      refine hs.update (q := .idle) hf hlater trivial (fun u hu => ?_) _ _
      refine (hrunning u hu).imp_left fun ⟨_, k, task, hp⟩ => nomatch hp
  | work k dies =>
    dsimp only [machine, ThreeTierThreadPool.next] at hn
    split at hn
    · exact nomatch hn
    · next w hw =>
      obtain ⟨⟨queue, w'⟩, hstep, rfl⟩ := Option.map_eq_some_iff.mp hn
      obtain ⟨hf, hlater⟩ := work_base hs.fields hw hstep rfl
      exact ⟨hf, fun u => (hs.phase u).later (Option.some_ne_none u) hlater, hs.running⟩

end Runs

end Garbage.ThreeTierThreadPool
