import Garbage.ThreeTierThreadPool.Steps

/-!
# Closing the thread pool

`Good`: no call has thrown, and once a `Close` has returned no worker runs, or
ever will.  A run stays good exactly as long as its steps are `Clean`
(`good_iff_clean`), which names the windows of the code.
-/

namespace Garbage.ThreeTierThreadPool

open Foundation (Machine)

variable {τ α : Type}

/-! ### What should hold -/

/-- The client has the `Lazy` and not yet the pool. -/
def Phase.holdsLazy : Phase α → Bool
  | .value _ | .constructing _ _ => true
  | _ => false

/-- No call has thrown, and after a `Close` no worker runs, whatever happens. -/
def Good [DecidableEq τ] (size : Nat) (s : State τ α) : Prop :=
  s.thrown = false ∧ (s.closeReturned = true → ∀ actions s',
    (machine size).run s actions = some s' → ∀ w ∈ s'.fields.workers, w.runs = false)

/-- The next step of a client does not take one of the branches that go wrong. -/
def Phase.Clean (logThrows : Bool) (s : State τ α) : Phase α → Prop
  | .isValueCreated impl => impl = true ∧
      (s.fields.lazy = .created ∨ ∀ u, (s.phase u).holdsLazy = false)
  | .readQueue _ => s.fields.queueField = true
  | .add _ => s.fields.queueDisposed = false
  | .taken false => s.fields.AllEnded
  | .cancel => s.fields.ctsDisposed = true → logThrows = false
  | _ => True

/-- No call reads `_impl` when it is null.  A `Close` that finds the pool not made
finds no `AddTask` that has the `Lazy`.  An `AddTask` that has passed the check
of `_closed` finds the queue.  A `Dispose` that finds `_pool` null finds the
workers ended, and if it finds the source disposed the logger does not throw. -/
def Clean (s : State τ α) : Action τ α → Prop
  | .addTask t _ => s.phase t = .idle → s.fields.impl = true
  | .step t logThrows => (s.phase t).Clean logThrows s
  | .close _ | .work _ _ => True

section Runs

variable [DecidableEq τ] {size : Nat} {s s' : State τ α} {a : Action τ α} {f' : Fields τ α}
  {t : τ} {q : Phase α}

/-! ### After a `Close` -/

/-- The pool is made and its workers have ended, or it is not made and nobody
can make it. -/
def Settled (s : State τ α) : Prop :=
  (s.fields.lazy = .created ∧ s.fields.AllEnded) ∨
    s.fields.impl = false ∧ s.fields.lazy = .new ∧ ∀ u, (s.phase u).holdsLazy = false

omit [DecidableEq τ] in
/-- Only a client that has the `Lazy` makes the pool. -/
theorem Phase.Step.lazy {f : Fields τ α} {p : Phase α} {r : Result α} {logThrows : Bool}
    (h : p.Step size t logThrows f f' r) (hp : p.holdsLazy = false) :
    f'.lazy = f.lazy ∧ r.OfNext fun p' => p'.holdsLazy = false := by
  cases h with
  | make | made | start | created => exact nomatch hp
  | _ => exact ⟨rfl, by trivial⟩

/-- How the fields and the phase of the client change in a settled state. -/
theorem Settled.advance {thrown closeReturned : Bool} (hs : Settled s)
    (hlater : Later (some t) s.fields f') (hlazy : (s.phase t).holdsLazy = false →
      f'.lazy = s.fields.lazy ∧ q.holdsLazy = false) :
    Settled (⟨f', Function.update s.phase t q, thrown, closeReturned⟩ : State τ α) := by
  rcases hs with ⟨hcreated, hall⟩ | ⟨himpl, hnew, hnobody⟩
  · exact .inl ⟨hlater.created hcreated, hlater.allEnded hcreated hall⟩
  · obtain ⟨hsame, hq⟩ := hlazy (hnobody t)
    refine .inr ⟨hlater.impl himpl, hsame.trans hnew, fun u => ?_⟩
    by_cases hut : u = t
    · subst hut
      simpa using hq
    · simpa [Function.update_of_ne hut] using hnobody u

theorem Settled.next (hs : Settled s) (hbase : Base size s)
    (hn : (machine size).next s a = some s') : Settled s' := by
  cases a with
  | addTask t task =>
    dsimp only [machine, ThreeTierThreadPool.next] at hn
    split at hn
    · cases hn
      split
      · next himpl =>
        rcases hs with ⟨hcreated, hall⟩ | ⟨hnull, -, -⟩
        · exact .inl ⟨hcreated, hall⟩
        · exact absurd himpl (by rw [hnull]; exact nofun)
      · exact hs
    · exact nomatch hn
  | close t =>
    dsimp only [machine, ThreeTierThreadPool.next] at hn
    split at hn
    · cases hn
      exact hs.advance (Later.of_eq id rfl rfl) fun _ => ⟨rfl, rfl⟩
    · exact nomatch hn
  | step t logThrows =>
    obtain ⟨⟨f', r⟩, hstep, rfl⟩ := Option.map_eq_some_iff.mp hn
    have hcases := Phase.step_cases hstep
    obtain ⟨-, hlater, -⟩ := hcases.base hbase.fields (hbase.phase t)
    cases r with
    | goes p => exact hs.advance hlater hcases.lazy
    | returned | threw => exact hs.advance hlater fun hp => ⟨(hcases.lazy hp).1, rfl⟩
  | work k dies =>
    dsimp only [machine, ThreeTierThreadPool.next] at hn
    split at hn
    · exact nomatch hn
    · next w hw =>
      obtain ⟨⟨queue, w'⟩, hstep, rfl⟩ := Option.map_eq_some_iff.mp hn
      obtain ⟨-, hlater⟩ := work_base hbase.fields hw hstep rfl
      rcases hs with ⟨hcreated, hall⟩ | ⟨himpl, hnew, hnobody⟩
      · exact .inl ⟨hlater.created hcreated, hlater.allEnded hcreated hall⟩
      · exact .inr ⟨himpl, hnew, hnobody⟩

omit [DecidableEq τ] in
theorem Settled.quiet (hs : Settled s) (hbase : Base size s) :
    ∀ w ∈ s.fields.workers, w.runs = false := by
  intro w hw
  rcases hs with ⟨-, hall⟩ | ⟨-, hnew, -⟩
  · rw [hall w hw]
    rfl
  · rw [hbase.fields.new hnew] at hw
    exact nomatch hw

theorem Settled.run (hs : Settled s) (hbase : Base size s) {actions : List (Action τ α)}
    (hrun : (machine size).run s actions = some s') : ∀ w ∈ s'.fields.workers, w.runs = false := by
  induction actions generalizing s with
  | nil =>
    cases hrun
    exact hs.quiet hbase
  | cons a actions ih =>
    obtain ⟨m, hn, hrun⟩ := Option.bind_eq_some_iff.mp hrun
    exact ih (hs.next hbase hn) (hbase.next hn) hrun

/-! ### Clean steps -/

/-- The invariant of the good runs. -/
structure Sound (size : Nat) (s : State τ α) : Prop where
  base : Base size s
  thrown : s.thrown = false
  settled : s.closeReturned = true → Settled s

theorem Sound.good (hs : Sound size s) : Good size s :=
  ⟨hs.thrown, fun hclose _ _ hrun => (hs.settled hclose).run hs.base hrun⟩

omit [DecidableEq τ] in
/-- A clean step of a client does not throw, and a `Close` returns when the workers
have ended or when nobody can make the pool. -/
theorem Phase.Step.clean {logThrows : Bool} {p : Phase α} {r : Result α}
    (h : p.Step size t logThrows s.fields f' r) (hbase : Base size s) (hp : s.phase t = p)
    (hclean : p.Clean logThrows s) :
    r ≠ .threw ∧ (r = .returned → p.ofClose = true → Settled s) := by
  have hok : p.Ok size t s.fields := hp ▸ hbase.phase t
  cases h with
  | nullReference task hfield => exact absurd hclean hfield
  | objectDisposed task hdisposed => exact nomatch hdisposed.symm.trans hclean
  | noImpl => exact nomatch hclean.1
  | cancelThrew hdisposed hlog => exact nomatch hlog.symm.trans (hclean hdisposed)
  | late | add => exact ⟨nofun, fun _ h => nomatch h⟩
  | notCreated hcreated =>
    have hnobody := hclean.2.resolve_left hcreated
    refine ⟨nofun, fun _ _ => .inr ⟨hok, ?_, hnobody⟩⟩
    cases hlazy : s.fields.lazy with
    | new => rfl
    | created => exact absurd hlazy hcreated
    | running u =>
      obtain ⟨k, task, hu⟩ := hbase.running u hlazy
      have hholds := hnobody u
      rw [hu] at hholds
      exact nomatch hholds
  | takenNull => exact ⟨nofun, fun _ _ => .inl ⟨hok, hclean⟩⟩
  | cancelLogged hdisposed => exact ⟨nofun, fun _ _ => .inl (hbase.fields.disposed hdisposed)⟩
  | nullQueue => exact ⟨nofun, fun _ _ => .inl hok⟩
  | _ => exact ⟨nofun, nofun⟩

theorem Sound.next (hs : Sound size s) (hclean : Clean s a)
    (hn : (machine size).next s a = some s') : Sound size s' := by
  have hbase := hs.base.next hn
  -- a step that no `Close` returns with
  have hkeep (hthrown : s'.thrown = s.thrown) (hclose : s'.closeReturned = s.closeReturned) :
      Sound size s' :=
    ⟨hbase, hthrown.trans hs.thrown, fun h => (hs.settled (hclose ▸ h)).next hs.base hn⟩
  cases a with
  | addTask t task =>
    dsimp only [machine, ThreeTierThreadPool.next] at hn
    split at hn
    · next hidle =>
      rw [if_pos (hclean hidle)] at hn
      cases hn
      exact hkeep rfl rfl
    · exact nomatch hn
  | close t =>
    dsimp only [machine, ThreeTierThreadPool.next] at hn
    split at hn
    · cases hn
      exact hkeep rfl rfl
    · exact nomatch hn
  | step t logThrows =>
    obtain ⟨⟨f', r⟩, hstep, rfl⟩ := Option.map_eq_some_iff.mp hn
    obtain ⟨hthrew, hreturned⟩ := (Phase.step_cases hstep).clean hs.base rfl hclean
    cases r with
    | threw => exact absurd rfl hthrew
    | goes p => exact hkeep rfl rfl
    | returned =>
      refine ⟨hbase, hs.thrown, fun h => ?_⟩
      rcases Bool.or_eq_true_iff.mp h with h | h
      · exact (hs.settled h).next hs.base hn
      · exact (hreturned rfl h).next hs.base hn
  | work k dies =>
    dsimp only [machine, ThreeTierThreadPool.next] at hn
    split at hn
    · exact nomatch hn
    · obtain ⟨r, -, rfl⟩ := Option.map_eq_some_iff.mp hn
      exact hkeep rfl rfl

/-! ### The windows -/

theorem next_step {logThrows : Bool} {f : Fields τ α} {r : Result α} {p : Phase α}
    (hp : s.phase t = p) (h : p.step size t logThrows s.fields = some (f, r)) :
    (machine size).next s (.step t logThrows) = some (s.advance t p (f, r)) := by
  subst hp
  exact congrArg (Option.map (s.advance t (s.phase t))) h

/-- The state leads to one in which a worker runs. -/
def LeadsToRun (size : Nat) (s : State τ α) : Prop :=
  ∃ actions s', (machine size).run s actions = some s' ∧ ∃ w ∈ s'.fields.workers, w.runs = true

theorem LeadsToRun.of_next (hn : (machine size).next s a = some s') (h : LeadsToRun size s') :
    LeadsToRun size s := by
  obtain ⟨actions, s'', hrun, hw⟩ := h
  exact ⟨a :: actions, s'', by rw [Machine.run_cons, hn]; exact hrun, hw⟩

/-- The constructor starts the next worker, or the first one runs. -/
theorem Base.constructing_leads {k : Nat} {task : α} (hs : Base size s) (hsize : 0 < size)
    (ht : s.phase t = .constructing k task) : LeadsToRun size s := by
  have hok := hs.phase t
  rw [ht] at hok
  obtain ⟨hrunning, -, hstarted⟩ := hok
  have hlength := hs.fields.length (by rw [hrunning]; exact nofun)
  by_cases hk : k < size
  · have hstep : (Phase.constructing k task).step size t false s.fields = some (_, _) := if_pos hk
    refine .of_next (next_step ht hstep) ⟨[], _, rfl, .check, ?_, rfl⟩
    have hself : (s.fields.workers.set k .check)[k]? = some .check :=
      List.getElem?_set_self (by omega)
    exact List.mem_of_getElem? hself
  · have hlt : 0 < s.fields.workers.length := by omega
    have hworker := List.getElem?_eq_getElem hlt
    refine ⟨[], s, rfl, _, List.getElem_mem hlt, ?_⟩
    obtain ⟨-, -, -, -, hworkers⟩ := hs.fields.untouched (by rw [hrunning]; exact nofun)
    rcases hworkers _ (List.getElem_mem hlt) with h | h | h
    · rw [h] at hworker
      exact absurd hworker (hstarted 0 (by omega))
    · rw [h]
      rfl
    · rw [h]
      rfl

/-- Someone who has the `Lazy` comes to start a worker. -/
theorem Base.holdsLazy_leads (hs : Base size s) (hsize : 0 < size)
    (hlazy : s.fields.lazy ≠ .created) (ht : (s.phase t).holdsLazy = true) :
    LeadsToRun size s := by
  cases hp : s.phase t with
  | value task =>
    cases hl : s.fields.lazy with
    | created => exact absurd hl hlazy
    | running u =>
      obtain ⟨k, task, hu⟩ := hs.running u hl
      exact hs.constructing_leads hsize hu
    | new =>
      have hstep : (Phase.value task).step size t false s.fields = some ({ s.fields with
          lazy := .running t, workers := List.replicate size .unstarted },
            .goes (.constructing 0 task)) := by
        dsimp only [Phase.step]
        rw [hl]
      have hn := next_step hp hstep
      exact .of_next hn ((hs.next hn).constructing_leads hsize (Function.update_self ..))
  | constructing k task => exact hs.constructing_leads hsize hp
  | _ =>
    rw [hp] at ht
    exact nomatch ht

/-! ### Steps that are not clean -/

theorem not_good_of_thrown {s' : State τ α} (h : s'.thrown = true) : ¬ Good size s' :=
  fun hgood => Bool.false_ne_true (hgood.1.symm.trans h)

theorem not_good_of_leads {s' : State τ α} (h : s'.closeReturned = true)
    (hleads : LeadsToRun size s') : ¬ Good size s' := by
  intro hgood
  obtain ⟨actions, s'', hrun, w, hw, hruns⟩ := hleads
  exact Bool.false_ne_true ((hgood.2 h actions s'' hrun w hw).symm.trans hruns)

/-- `Close` returns from a pool that is disposed while one of its workers goes on. -/
theorem Sound.taken_not_good (hs : Sound size s) {t : τ} {logThrows : Bool}
    (hp : s.phase t = .taken false) (hclean : ¬ (s.phase t).Clean logThrows s) :
    ∃ s', (machine size).next s (.step t logThrows) = some s' ∧ ¬ Good size s' := by
  have hok := hs.base.phase t
  rw [hp] at hclean hok
  have hstep : (Phase.taken false).step size t logThrows s.fields = some (s.fields, .returned) :=
    rfl
  have hex : ∃ w ∈ s.fields.workers, w ≠ .ended := by
    by_contra hno
    exact hclean fun w hw => by_contra fun hne => hno ⟨w, hw, hne⟩
  obtain ⟨w, hw, hne⟩ := hex
  refine ⟨_, next_step hp hstep, not_good_of_leads (Bool.or_true _) ⟨[], _, rfl, w, hw, ?_⟩⟩
  cases w with
  | unstarted => exact absurd hw (hs.base.fields.created hok)
  | ended => exact absurd rfl hne
  | check | take | running => rfl

/-- `Close` returns while another thread is about to create the pool. -/
theorem Sound.isValueCreated_not_good (hs : Sound size s) (hsize : 0 < size) {t : τ}
    {logThrows : Bool} (hp : s.phase t = .isValueCreated true)
    (hclean : ¬ (s.phase t).Clean logThrows s) :
    ∃ s', (machine size).next s (.step t logThrows) = some s' ∧ ¬ Good size s' := by
  rw [hp] at hclean
  have hmade : s.fields.lazy ≠ .created := fun h => hclean ⟨rfl, .inl h⟩
  have hex : ∃ u, (s.phase u).holdsLazy = true := by
    by_contra hno
    refine hclean ⟨rfl, .inr fun u => ?_⟩
    exact eq_false_of_ne_true fun h => hno ⟨u, h⟩
  obtain ⟨u, hu⟩ := hex
  have hstep : (Phase.isValueCreated true).step size t logThrows s.fields =
      some (s.fields, .returned) := by
    dsimp only [Phase.step]
    rw [if_pos rfl]
    cases hl : s.fields.lazy with
    | created => exact absurd hl hmade
    | new | running => rfl
  have hn := next_step hp hstep
  have hut : u ≠ t := by
    rintro rfl
    rw [hp] at hu
    exact nomatch hu
  have hu' := (congrArg Phase.holdsLazy (Function.update_of_ne hut .idle s.phase)).trans hu
  exact ⟨_, hn, not_good_of_leads (Bool.or_true _)
    ((hs.base.next hn).holdsLazy_leads hsize hmade hu')⟩

/-- A step that is not clean opens the way to what should not happen. -/
theorem Sound.not_good (hs : Sound size s) (hsize : 0 < size) (hclean : ¬ Clean s a) :
    ∃ s', (machine size).next s a = some s' ∧ ¬ Good size s' := by
  cases a with
  | addTask t task =>
    obtain ⟨hidle, himpl⟩ := Classical.not_imp.mp hclean
    refine ⟨{ s with thrown := true }, ?_, not_good_of_thrown rfl⟩
    dsimp only [machine, ThreeTierThreadPool.next]
    rw [hidle]
    dsimp only
    rw [if_neg himpl]
  | close t => exact absurd trivial hclean
  | work k dies => exact absurd trivial hclean
  | step t logThrows =>
    have hclean' : ¬ (s.phase t).Clean logThrows s := hclean
    cases hp : s.phase t with
    | readQueue task =>
      rw [hp] at hclean'
      exact ⟨_, next_step hp (if_neg hclean'), not_good_of_thrown rfl⟩
    | add task =>
      rw [hp] at hclean'
      exact ⟨_, next_step hp (if_pos (eq_true_of_ne_false hclean')), not_good_of_thrown rfl⟩
    | cancel =>
      rw [hp] at hclean'
      obtain ⟨hdisposed, hlog⟩ := Classical.not_imp.mp hclean'
      have hstep : Phase.cancel.step size t logThrows s.fields = some (s.fields, .threw) := by
        dsimp only [Phase.step]
        rw [if_pos hdisposed, if_pos (eq_true_of_ne_false hlog)]
      exact ⟨_, next_step hp hstep, not_good_of_thrown rfl⟩
    | taken pool =>
      cases pool with
      | true =>
        rw [hp] at hclean'
        exact absurd trivial hclean'
      | false => exact hs.taken_not_good hp hclean'
    | isValueCreated impl =>
      cases impl with
      | false =>
        have hstep : (Phase.isValueCreated false).step size t logThrows s.fields =
          some (s.fields, .threw) := rfl
        exact ⟨_, next_step hp hstep, not_good_of_thrown rfl⟩
      | true => exact hs.isValueCreated_not_good hsize hp hclean'
    | _ =>
      rw [hp] at hclean'
      exact absurd trivial hclean'

omit [DecidableEq τ] in
theorem start_sound : Sound size (start : State τ α) := by
  refine ⟨⟨⟨fun _ => rfl, fun h => absurd rfl h, nofun, nofun, fun _ =>
    ⟨rfl, rfl, rfl, rfl, nofun⟩⟩, fun _ => trivial, nofun⟩, rfl, nofun⟩

/-- **When the pool shuts down cleanly.**  Along a run no call throws, and no
worker runs or ever will once a `Close` has returned, if and only if all steps
are clean. -/
theorem good_iff_clean (processorCount : Nat) (hcount : 0 < processorCount)
    (actions : List (Action τ α)) :
    (machine (threadPoolSize processorCount)).AllStates (Good (threadPoolSize processorCount))
        start actions ↔
      (machine (threadPoolSize processorCount)).AllSteps Clean start actions := by
  have hsize : 0 < threadPoolSize processorCount := by
    unfold threadPoolSize
    omega
  exact Machine.allStates_iff_allSteps (I := Sound (threadPoolSize processorCount))
    (fun _ hs => hs.good) (fun _ _ _ hs hclean hn => hs.next hclean hn)
    (fun _ _ hs hclean => hs.not_good hsize hclean) actions start start_sound

/-- The client 1 adds the task 7, which makes the pool, a worker runs it, and the client 0
closes the pool. -/
def addRunClose : List (Action Nat Nat) :=
  [.addTask 1 7, .step 1 false, .step 1 false, .step 1 false, .step 1 false, .step 1 false,
    .step 1 false, .step 1 false, .work 0 false, .work 0 false, .work 0 false, .close 0,
    .step 0 false, .step 0 false, .step 0 false, .step 0 false, .step 0 false, .step 0 false,
    .step 0 false, .work 0 false, .work 1 false, .step 0 false, .step 0 false, .step 0 false,
    .step 0 false, .step 0 false, .step 0 false, .step 0 false]

/-- That is clean. -/
theorem good_iff_clean_addRunClose :
    ((machine (threadPoolSize 1)).run start addRunClose).any (·.closeReturned) = true ∧
      (machine (threadPoolSize 1)).AllStates (Good (threadPoolSize 1)) start addRunClose := by
  refine ⟨rfl, (good_iff_clean 1 Nat.one_pos _).mpr ?_⟩
  repeat' refine Machine.AllSteps.cons rfl ?_ ?_
  all_goals first | trivial | rfl | exact fun _ => rfl | exact ⟨rfl, .inl rfl⟩

/-- After a `Close` an `AddTask` throws, and so does another `Close`.  An `AddTask`
that has read `_impl` before makes the pool after the `Close` has returned.  One
that has read `_queue` throws when the `Close` has disposed the queue. -/
theorem close_breaks :
    let size := threadPoolSize 1
    let close : List (Action Nat Nat) := [.close 0, .step 0 false, .step 0 false]
    let make : List (Action Nat Nat) := [.addTask 1 7, .step 1 false, .step 1 false,
      .step 1 false, .step 1 false, .step 1 false, .step 1 false]
    let dispose : List (Action Nat Nat) := [.step 0 false, .step 0 false, .step 0 false,
      .step 0 false, .step 0 false, .work 0 false, .work 1 false, .step 0 false, .step 0 false,
      .step 0 false, .step 0 false, .step 0 false, .step 0 false, .step 0 false]
    ((machine size).run start (close ++ [.addTask 1 7])).any (·.thrown) = true ∧
    ((machine size).run start (close ++ close)).any (·.thrown) = true ∧
    ((machine size).run start (.addTask 1 7 :: close ++ [.step 1 false, .step 1 false])).any
      (fun s => s.closeReturned && s.fields.workers.any Worker.runs) = true ∧
    ((machine size).run start (make ++ close ++ dispose ++ [.step 1 false])).any
      (fun s => s.closeReturned && s.thrown) = true := by
  decide +kernel

end Runs

end Garbage.ThreeTierThreadPool
