import Garbage.Foundation.Machine
import Mathlib.Data.List.Nodup
import Mathlib.Data.List.Perm.Basic

/-!
# The cache of one object for each thread

`Get` and `Dispose` hold the lock `_sync`, which the thread that has it may take
again: the factory, and the `Dispose` of an object, may call the cache.  So the
calls of the owner of the lock are a stack of `Frame`s, and a call is possible
when the lock is free or the top frame runs code of the user.

`returned` are the objects that the factory returned, `disposed` has an object as
often as its `Dispose` was called, `results` are the results of `Get`, `none` for
an exception.  What an object's `Dispose` throws is caught, so it is not told
apart from a normal end.

A thread has a managed id which no other live thread has, and ids are used again.
-/

namespace Garbage.ThreadLocalDisposableObjectsCache

open Foundation (Machine)

inductive Frame (α : Type)
  /-- a `Get` in which the factory runs -/
  | creating
  /-- a `Get` to which the factory returned an object -/
  | adding (object : α)
  /-- a `Get` that could not add its object, whose `Dispose` runs -/
  | compensating
  /-- a `Dispose` that is at its loop, with the objects still to come -/
  | clearing (rest : List α)
  deriving DecidableEq

/-- The code of the user may run. -/
def Frame.calls {α : Type} : Frame α → Bool
  | .adding _ => false
  | _ => true

structure State (τ α : Type) where
  live : List τ
  started : List τ
  managedThreadId : τ → Nat
  cache : Option (List (Nat × α))
  /-- the thread that has the lock -/
  owner : Option τ
  frames : List (Frame α)
  returned : List α
  disposed : List α
  results : List (τ × Option α)

inductive Action (τ α : Type)
  | start (t : τ) (id : Nat)
  | exit (t : τ)
  | get (t : τ)
  | factoryThrows
  | factoryReturns (object : Option α)
  | add
  | compensated
  | dispose (t : τ)
  | disposeNext

variable {τ α : Type}

/-! ### The cache -/

/-- The thread gets the lock, or has it and runs code of the user. -/
def mayCall [DecidableEq τ] (t : τ) (s : State τ α) : Bool :=
  t ∈ s.live && match s.owner, s.frames with
    | none, _ => true
    | some u, f :: _ => u = t && f.calls
    | some _, [] => false

def push (t : τ) (f : Frame α) (s : State τ α) : State τ α :=
  { s with owner := some t, frames := f :: s.frames }

/-- The call is over, and with the last one the lock is free. -/
def pop (s : State τ α) : State τ α :=
  { s with owner := if s.frames.tail.isEmpty then none else s.owner, frames := s.frames.tail }

def answer (t : τ) (result : Option α) (s : State τ α) : State τ α :=
  { s with results := (t, result) :: s.results }

def get (t : τ) (s : State τ α) : State τ α :=
  match s.cache with
  | none => answer t none s
  | some cache =>
    match cache.lookup (s.managedThreadId t) with
    | some objectForCurrentThread => answer t (some objectForCurrentThread) s
    | none => push t .creating s

/-- `_cache.Add`, and the `catch` where it throws. -/
def add (t : τ) (objectForCurrentThread : α) (s : State τ α) : State τ α :=
  let failed := { s with
    frames := .compensating :: s.frames.tail
    disposed := objectForCurrentThread :: s.disposed }
  match s.cache with
  | none => failed
  | some cache =>
    match cache.lookup (s.managedThreadId t) with
    | some _ => failed
    | none => answer t (some objectForCurrentThread) (pop { s with
        cache := some (cache ++ [(s.managedThreadId t, objectForCurrentThread)]) })

def dispose (t : τ) (s : State τ α) : State τ α :=
  match s.cache with
  | none => s
  | some cache => push t (.clearing (cache.map Prod.snd)) { s with cache := none }

section Machine

variable [DecidableEq τ] [DecidableEq α]

def next (s : State τ α) : Action τ α → Option (State τ α)
  | .start t id =>
    if t ∉ s.started ∧ ∀ u ∈ s.live, s.managedThreadId u ≠ id then
      some { s with live := t :: s.live, started := t :: s.started
                    managedThreadId := Function.update s.managedThreadId t id }
    else none
  | .exit t => if s.owner = some t then none else some { s with live := s.live.filter (· ≠ t) }
  | .get t => if mayCall t s then some (get t s) else none
  | .factoryThrows =>
    match s.owner, s.frames with
    | some t, .creating :: _ => some (answer t none (pop s))
    | _, _ => none
  | .factoryReturns object =>
    match s.owner, s.frames, object with
    | some t, .creating :: _, none => some (answer t none (pop s))
    | some _, .creating :: frames, some object =>
      if object ∈ s.returned then none
      else some { s with frames := .adding object :: frames, returned := object :: s.returned }
    | _, _, _ => none
  | .add =>
    match s.owner, s.frames with
    | some t, .adding object :: _ => some (add t object s)
    | _, _ => none
  | .compensated =>
    match s.owner, s.frames with
    | some t, .compensating :: _ => some (answer t none (pop s))
    | _, _ => none
  | .dispose t => if mayCall t s then some (dispose t s) else none
  | .disposeNext =>
    match s.frames with
    | .clearing (object :: rest) :: frames =>
      some { s with frames := .clearing rest :: frames, disposed := object :: s.disposed }
    | .clearing [] :: _ => some (pop s)
    | _ => none

def start : State τ α := ⟨[], [], fun _ => 0, some [], none, [], [], [], []⟩

def machine : Machine (State τ α) (Action τ α) where
  init s := s = start
  next := next

end Machine

/-! ### What should hold -/

def State.cached (s : State τ α) : List α := (s.cache.getD []).map Prod.snd

def Frame.held : Frame α → List α
  | .adding object => [object]
  | .clearing rest => rest
  | _ => []

/-- The objects in the hands of calls that run. -/
def State.held (s : State τ α) : List α := s.frames.flatMap Frame.held

/-- Calls of the cache from a factory, from the `Dispose` of an object that could
not be added, and from that of a cached one. -/
def Stacked : List (Frame α) → Prop
  | [] => True
  | .clearing _ :: frames => Stacked frames
  | _ :: frames => ∀ f ∈ frames, f = .creating

/-- The object is in the cache under exactly one id, and was not disposed. -/
def IsCached [DecidableEq α] (s : State τ α) (object : α) : Prop :=
  (∃! id, (id, object) ∈ s.cache.getD []) ∧ s.disposed.count object = 0

/-- The object was disposed once, and is not in the cache. -/
def IsDisposed [DecidableEq α] (s : State τ α) (object : α) : Prop :=
  (∀ id, (id, object) ∉ s.cache.getD []) ∧ s.disposed.count object = 1

/-- Every object is in one place, and no id is twice in the cache. -/
structure Placed (s : State τ α) : Prop where
  placed : s.returned.Perm (s.cached ++ s.held ++ s.disposed)
  fresh : s.returned.Nodup
  keys : ∀ cache, s.cache = some cache → (cache.map Prod.fst).Nodup

structure Threads (s : State τ α) : Prop where
  started : ∀ t ∈ s.live, t ∈ s.started
  known : ∀ t result, (t, result) ∈ s.results → t ∈ s.started
  managedThreadId : ∀ t ∈ s.live, ∀ u ∈ s.live, s.managedThreadId t = s.managedThreadId u → t = u
  owner : ∀ t, s.owner = some t → t ∈ s.live
  free : s.owner = none ↔ s.frames = []

structure Calls (s : State τ α) : Prop where
  stacked : Stacked s.frames
  clearing : ∀ rest, .clearing rest ∈ s.frames → s.cache = none
  compensating : .compensating ∈ s.frames → ∀ cache, s.cache = some cache →
    ∀ t, s.owner = some t → (cache.lookup (s.managedThreadId t)).isSome

/-- The results of the live threads: those of the cache, for each thread its own. -/
structure Results (s : State τ α) : Prop where
  agree : ∀ cache, s.cache = some cache → ∀ t object, (t, some object) ∈ s.results → t ∈ s.live →
    (s.managedThreadId t, object) ∈ cache
  own : ∀ t ∈ s.live, ∀ u ∈ s.live, ∀ object object', (t, some object) ∈ s.results →
    (u, some object') ∈ s.results → (t = u ↔ object = object')

structure Invariant (s : State τ α) : Prop where
  placed : Placed s
  threads : Threads s
  calls : Calls s
  results : Results s

/-! ### Entries -/

section Entries

variable {cache : List (Nat × α)} {id : Nat} {object object' : α}

theorem mem_of_lookup (h : cache.lookup id = some object) : (id, object) ∈ cache := by
  obtain ⟨l, l', rfl, -⟩ := List.lookup_eq_some_iff.mp h
  exact List.mem_append_right _ (List.mem_cons_self ..)

theorem notMem_of_lookup (h : cache.lookup id = none) : id ∉ cache.map Prod.fst := by
  intro hid
  obtain ⟨entry, hentry, rfl⟩ := List.mem_map.mp hid
  have hne := List.lookup_eq_none_iff.mp h entry hentry
  rw [bne_self_eq_false] at hne
  exact Bool.false_ne_true hne

theorem object_unique (hkeys : (cache.map Prod.fst).Nodup) (h : (id, object) ∈ cache)
    (h' : (id, object') ∈ cache) : object = object' :=
  congrArg Prod.snd (List.inj_on_of_nodup_map hkeys h h' rfl)

theorem lookup_eq (hkeys : (cache.map Prod.fst).Nodup) (h : (id, object) ∈ cache) :
    cache.lookup id = some object := by
  cases hl : cache.lookup id with
  | none => exact absurd (List.mem_map_of_mem h) (notMem_of_lookup hl)
  | some object' => rw [object_unique hkeys h (mem_of_lookup hl)]

end Entries

/-! ### The operations -/

variable {s : State τ α} {t : τ} {object : α} {f : Frame α} {frames : List (Frame α)}
  {cache : List (Nat × α)} {result : Option α}

theorem of_mayCall [DecidableEq τ] (h : mayCall t s = true) (hs : Threads s) : t ∈ s.live ∧
    (s.frames = [] ∨ s.owner = some t ∧ ∃ f frames, s.frames = f :: frames ∧ f.calls = true) := by
  unfold mayCall at h
  rw [Bool.and_eq_true, decide_eq_true_eq] at h
  obtain ⟨hlive, h⟩ := h
  refine ⟨hlive, ?_⟩
  split at h
  · next howner => exact .inl (hs.free.mp howner)
  · next u f frames howner hframes =>
    rw [Bool.and_eq_true, decide_eq_true_eq] at h
    exact .inr ⟨h.1 ▸ howner, f, frames, hframes, h.2⟩
  · exact nomatch h

theorem Placed.cached_nodup (hs : Placed s) : s.cached.Nodup :=
  ((hs.placed.nodup_iff.mp hs.fresh).of_append_left).of_append_left

/-- The results of a thread that gets the object under its id. -/
theorem Invariant.answer (hs : Invariant s) (ht : t ∈ s.live)
    (hresult : ∀ object, result = some object → ∃ cache, s.cache = some cache ∧
      (s.managedThreadId t, object) ∈ cache) : Invariant (answer t result s) := by
  refine ⟨⟨hs.placed.placed, hs.placed.fresh, hs.placed.keys⟩, ⟨hs.threads.started, ?_,
    hs.threads.managedThreadId, hs.threads.owner, hs.threads.free⟩,
    ⟨hs.calls.stacked, hs.calls.clearing, hs.calls.compensating⟩, ?_⟩
  · intro u r hr
    rcases List.mem_cons.mp hr with h | h
    · cases h
      exact hs.threads.started t ht
    · exact hs.threads.known u r h
  · have hagree : ∀ cache, s.cache = some cache → ∀ u object,
        (u, some object) ∈ (t, result) :: s.results → u ∈ s.live →
        (s.managedThreadId u, object) ∈ cache := by
      intro cache hcache u object hr hu
      rcases List.mem_cons.mp hr with h | h
      · cases h
        obtain ⟨cache', hcache', hmem⟩ := hresult object rfl
        rwa [← Option.some.inj (hcache'.symm.trans hcache)]
      · exact hs.results.agree cache hcache u object h hu
    refine ⟨hagree, ?_⟩
    intro u hu v hv object object' hru hrv
    cases hcache : s.cache with
    | none =>
      -- nothing was added to the results
      have hold {w : τ} {o : α} (h : (w, some o) ∈ (t, result) :: s.results) :
          (w, some o) ∈ s.results := by
        rcases List.mem_cons.mp h with h | h
        · cases h
          obtain ⟨cache', hcache', -⟩ := hresult o rfl
          exact nomatch hcache.symm.trans hcache'
        · exact h
      exact hs.results.own u hu v hv object object' (hold hru) (hold hrv)
    | some cache =>
      have hmem := hagree cache hcache u object hru hu
      have hmem' := hagree cache hcache v object' hrv hv
      constructor
      · rintro rfl
        exact object_unique (hs.placed.keys cache hcache) hmem hmem'
      · rintro rfl
        have hvalues := hs.placed.cached_nodup
        rw [State.cached, hcache] at hvalues
        have hentry := List.inj_on_of_nodup_map hvalues hmem hmem' rfl
        exact hs.threads.managedThreadId u hu v hv (congrArg Prod.fst hentry)

theorem stacked_tail (h : Stacked (f :: frames)) : Stacked frames := by
  have hcreating (hall : ∀ g ∈ frames, g = .creating) : Stacked frames := by
    cases frames with
    | nil => trivial
    | cons g rest =>
      obtain rfl := hall g (List.mem_cons_self ..)
      exact fun g' hg' => hall g' (List.mem_cons_of_mem _ hg')
  cases f with
  | clearing rest => exact h
  | creating | adding | compensating => exact hcreating h

theorem notMem_frames {g : Frame α} (hall : ∀ g ∈ frames, g = .creating) (hf : g ≠ f)
    (hcreating : g ≠ .creating) : g ∉ f :: frames := by
  intro hg
  rcases List.mem_cons.mp hg with h | h
  · exact hf h
  · exact hcreating (hall g h)

/-- The lock stays taken where the top call goes on. -/
theorem Threads.free_cons (hs : Threads s) (hframes : s.frames = f :: frames) (g : Frame α) :
    s.owner = none ↔ g :: frames = [] := by
  rw [hs.free, hframes]
  exact iff_of_false nofun nofun

/-- The end of a call that has nothing in its hands. -/
theorem Invariant.pop (hs : Invariant s) (hframes : s.frames = f :: frames) (hf : f.held = []) :
    Invariant (pop s) := by
  have htail : s.frames.tail = frames := by rw [hframes]; rfl
  have hmem {g : Frame α} (hg : g ∈ s.frames.tail) : g ∈ s.frames := List.mem_of_mem_tail hg
  have howner {t : τ} (h : (ThreadLocalDisposableObjectsCache.pop s).owner = some t) :
      s.owner = some t := by
    dsimp only [ThreadLocalDisposableObjectsCache.pop] at h
    split at h
    · exact nomatch h
    · exact h
  refine ⟨⟨?_, hs.placed.fresh, hs.placed.keys⟩, ⟨hs.threads.started, hs.threads.known,
    hs.threads.managedThreadId, fun t ht => hs.threads.owner t (howner ht), ?_⟩,
    ⟨?_, fun rest hrest => hs.calls.clearing rest (hmem hrest), ?_⟩,
    ⟨hs.results.agree, hs.results.own⟩⟩
  · have hheld : (ThreadLocalDisposableObjectsCache.pop s).held = s.held := by
      show s.frames.tail.flatMap Frame.held = s.frames.flatMap Frame.held
      rw [hframes, List.tail_cons, List.flatMap_cons, hf, List.nil_append]
    have hplaced := hs.placed.placed
    rw [← hheld] at hplaced
    exact hplaced
  · dsimp only [ThreadLocalDisposableObjectsCache.pop]
    rw [htail]
    cases frames with
    | nil => exact iff_of_true rfl rfl
    | cons g rest =>
      refine iff_of_false (fun h => ?_) nofun
      have hnil := hs.threads.free.mp h
      rw [hframes] at hnil
      exact nomatch hnil
  · show Stacked s.frames.tail
    rw [htail]
    exact stacked_tail (hframes ▸ hs.calls.stacked)
  · intro hcomp cache hcache t ht
    exact hs.calls.compensating (hmem hcomp) cache hcache t (howner ht)

/-- A call that is made while the lock is free or the top call runs code of the user. -/
theorem Invariant.push (hs : Invariant s) (ht : t ∈ s.live) (hheld : f.held = [])
    (hcalls : Stacked (f :: s.frames)) (hclearing : ∀ rest, f ≠ .clearing rest)
    (hcompensating : .compensating ∉ f :: s.frames) : Invariant (push t f s) := by
  refine ⟨⟨?_, hs.placed.fresh, hs.placed.keys⟩, ⟨hs.threads.started, hs.threads.known,
    hs.threads.managedThreadId, fun u hu => Option.some.inj hu ▸ ht, iff_of_false nofun nofun⟩,
    ⟨hcalls, fun rest hrest => ?_, fun h => absurd h hcompensating⟩,
    ⟨hs.results.agree, hs.results.own⟩⟩
  · have hplaced := hs.placed.placed
    have hsame : (ThreadLocalDisposableObjectsCache.push t f s).held = s.held := by
      show f.held ++ s.held = s.held
      rw [hheld, List.nil_append]
    rw [← hsame] at hplaced
    exact hplaced
  · rcases List.mem_cons.mp hrest with h | h
    · exact absurd h.symm (hclearing rest)
    · exact hs.calls.clearing rest h

/-- The frames under a new `Get` that runs the factory. -/
theorem Calls.all_creating (hs : Calls s) (hcache : s.cache = some cache)
    (hlookup : cache.lookup (s.managedThreadId t) = none)
    (hframes : s.frames = [] ∨
      s.owner = some t ∧ ∃ f frames, s.frames = f :: frames ∧ f.calls = true) :
    ∀ f ∈ s.frames, f = .creating := by
  obtain hnil | ⟨howner, f, frames, hf, hcalls⟩ := hframes
  · rw [hnil]
    exact nofun
  · have hstacked := hs.stacked
    cases f with
    | creating =>
      rw [hf] at hstacked ⊢
      exact List.forall_mem_cons.mpr ⟨rfl, hstacked⟩
    | adding object => exact nomatch hcalls
    | compensating =>
      have hsome := hs.compensating (hf ▸ List.mem_cons_self ..) cache hcache t howner
      rw [hlookup] at hsome
      exact nomatch hsome
    | clearing rest =>
      have hnone := hs.clearing rest (hf ▸ List.mem_cons_self ..)
      exact nomatch hcache.symm.trans hnone

theorem Invariant.get (hs : Invariant s) [DecidableEq τ] (h : mayCall t s = true) :
    Invariant (get t s) := by
  obtain ⟨ht, hframes⟩ := of_mayCall h hs.threads
  unfold ThreadLocalDisposableObjectsCache.get
  cases hcache : s.cache with
  | none => exact hs.answer ht nofun
  | some cache =>
    dsimp only
    cases hlookup : cache.lookup (s.managedThreadId t) with
    | some object =>
      refine hs.answer ht fun o ho => ⟨cache, hcache, ?_⟩
      rw [← Option.some.inj ho]
      exact mem_of_lookup hlookup
    | none =>
      have hall := hs.calls.all_creating hcache hlookup hframes
      refine hs.push ht rfl hall nofun ?_
      intro hmem
      rcases List.mem_cons.mp hmem with h | h
      · exact nomatch h
      · exact nomatch hall _ h

theorem Invariant.dispose (hs : Invariant s) [DecidableEq τ] (h : mayCall t s = true) :
    Invariant (dispose t s) := by
  obtain ⟨ht, hframes⟩ := of_mayCall h hs.threads
  unfold ThreadLocalDisposableObjectsCache.dispose
  cases hcache : s.cache with
  | none => exact hs
  | some cache =>
    refine ⟨⟨?_, hs.placed.fresh, nofun⟩, ⟨hs.threads.started, hs.threads.known,
      hs.threads.managedThreadId, fun u hu => Option.some.inj hu ▸ ht, iff_of_false nofun nofun⟩,
      ⟨hs.calls.stacked, fun _ _ => rfl, fun _ => nofun⟩, ⟨nofun, hs.results.own⟩⟩
    have hplaced := hs.placed.placed
    rw [State.cached, hcache] at hplaced
    exact hplaced

theorem Invariant.factoryReturns (hs : Invariant s) (hframes : s.frames = .creating :: frames)
    (hobject : object ∉ s.returned) : Invariant { s with
      frames := .adding object :: frames, returned := object :: s.returned } := by
  have hstacked := hs.calls.stacked
  have hheld : s.held = frames.flatMap Frame.held := by
    rw [State.held, hframes]
    rfl
  rw [hframes] at hstacked
  refine ⟨⟨?_, List.nodup_cons.mpr ⟨hobject, hs.placed.fresh⟩, hs.placed.keys⟩,
    ⟨hs.threads.started, hs.threads.known, hs.threads.managedThreadId, hs.threads.owner,
      hs.threads.free_cons hframes _⟩,
    ⟨hstacked, fun rest hrest => absurd hrest (notMem_frames hstacked nofun nofun),
      fun hcomp => absurd hcomp (notMem_frames hstacked nofun nofun)⟩,
    ⟨hs.results.agree, hs.results.own⟩⟩
  · have hplaced := hs.placed.placed
    rw [hheld] at hplaced
    refine (hplaced.cons object).trans ?_
    show (object :: (s.cached ++ frames.flatMap Frame.held ++ s.disposed)).Perm
      (s.cached ++ ([object] ++ frames.flatMap Frame.held) ++ s.disposed)
    rw [List.append_assoc, List.append_assoc, List.singleton_append, List.cons_append]
    exact List.perm_middle.symm

/-- `Add` throws: the object that was in the hands of the `Get` is disposed. -/
theorem Invariant.compensates (hs : Invariant s) (hframes : s.frames = .adding object :: frames)
    (hkey : ∀ cache, s.cache = some cache → ∀ t, s.owner = some t →
      (cache.lookup (s.managedThreadId t)).isSome) : Invariant { s with
        frames := .compensating :: s.frames.tail, disposed := object :: s.disposed } := by
  have hstacked := hs.calls.stacked
  have hheld : s.held = object :: frames.flatMap Frame.held := by
    rw [State.held, hframes]
    rfl
  rw [hframes] at hstacked ⊢
  refine ⟨⟨?_, hs.placed.fresh, hs.placed.keys⟩,
    ⟨hs.threads.started, hs.threads.known, hs.threads.managedThreadId, hs.threads.owner,
      hs.threads.free_cons hframes _⟩,
    ⟨hstacked, fun rest hrest => absurd hrest (notMem_frames hstacked nofun nofun), fun _ => hkey⟩,
    ⟨hs.results.agree, hs.results.own⟩⟩
  · have hplaced := hs.placed.placed
    rw [hheld] at hplaced
    refine hplaced.trans ?_
    show (s.cached ++ object :: frames.flatMap Frame.held ++ s.disposed).Perm
      (s.cached ++ frames.flatMap Frame.held ++ object :: s.disposed)
    rw [List.append_assoc, List.append_assoc, List.cons_append]
    exact List.perm_middle.symm.append_left _

/-- `Add` puts the object that was in the hands of the `Get` under the id of its thread. -/
theorem Invariant.adds (hs : Invariant s) (ht : s.owner = some t)
    (hframes : s.frames = .adding object :: frames) (hcache : s.cache = some cache)
    (hlookup : cache.lookup (s.managedThreadId t) = none) :
    Invariant (ThreadLocalDisposableObjectsCache.answer t (some object)
      (ThreadLocalDisposableObjectsCache.pop
        { s with cache := some (cache ++ [(s.managedThreadId t, object)]) })) := by
  have hstacked := hs.calls.stacked
  have hheld : s.held = object :: frames.flatMap Frame.held := by
    rw [State.held, hframes]
    rfl
  rw [hframes] at hstacked
  -- the frame as if it had nothing in its hands, so that `pop` applies
  have hadded : Invariant { s with
      cache := some (cache ++ [(s.managedThreadId t, object)])
      frames := .creating :: frames } := by
    refine ⟨⟨?_, hs.placed.fresh, ?_⟩, ⟨hs.threads.started, hs.threads.known,
      hs.threads.managedThreadId, hs.threads.owner, hs.threads.free_cons hframes _⟩,
      ⟨hstacked, fun rest hrest => absurd hrest (notMem_frames hstacked nofun nofun),
        fun hcomp => absurd hcomp (notMem_frames hstacked nofun nofun)⟩, ⟨?_, hs.results.own⟩⟩
    · have hplaced := hs.placed.placed
      rw [hheld, State.cached, hcache] at hplaced
      refine hplaced.trans ?_
      show (cache.map Prod.snd ++ object :: frames.flatMap Frame.held ++ s.disposed).Perm
        ((cache ++ [(s.managedThreadId t, object)]).map Prod.snd ++ frames.flatMap Frame.held ++
          s.disposed)
      rw [List.map_append, List.append_assoc, List.append_assoc, List.append_assoc]
      exact List.Perm.refl _
    · intro cache' hcache'
      rw [← Option.some.inj hcache', List.map_append]
      refine List.nodup_append.mpr ⟨hs.placed.keys cache hcache, List.nodup_singleton _, ?_⟩
      intro id hid id' hid'
      rw [List.mem_singleton.mp hid']
      rintro rfl
      exact notMem_of_lookup hlookup hid
    · intro cache' hcache' u o hr hu
      rw [← Option.some.inj hcache']
      exact List.mem_append_left _ (hs.results.agree cache hcache u o hr hu)
  have hpopped := hadded.pop rfl rfl
  have hpop : ThreadLocalDisposableObjectsCache.pop { s with
      cache := some (cache ++ [(s.managedThreadId t, object)]), frames := .creating :: frames } =
        ThreadLocalDisposableObjectsCache.pop
          { s with cache := some (cache ++ [(s.managedThreadId t, object)]) } := by
    dsimp only [ThreadLocalDisposableObjectsCache.pop]
    rw [hframes]
    rfl
  rw [hpop] at hpopped
  refine hpopped.answer (hs.threads.owner t ht) fun o ho => ⟨_, rfl, ?_⟩
  rw [← Option.some.inj ho]
  exact List.mem_append_right _ (List.mem_cons_self ..)

theorem Invariant.add (hs : Invariant s) (ht : s.owner = some t)
    (hframes : s.frames = .adding object :: frames) : Invariant (add t object s) := by
  unfold ThreadLocalDisposableObjectsCache.add
  cases hcache : s.cache with
  | none =>
    have hfailed := hs.compensates hframes fun cache' h => nomatch hcache.symm.trans h
    rwa [hcache] at hfailed
  | some cache =>
    dsimp only
    cases hlookup : cache.lookup (s.managedThreadId t) with
    | none => exact hs.adds ht hframes hcache hlookup
    | some object' =>
      have hfailed := hs.compensates hframes fun cache' hcache' u hu => by
        rw [← Option.some.inj (hcache.symm.trans hcache'),
          ← Option.some.inj (ht.symm.trans hu), hlookup]
        rfl
      rwa [hcache] at hfailed

theorem Invariant.disposeNext {rest : List α} (hs : Invariant s)
    (hframes : s.frames = .clearing (object :: rest) :: frames) : Invariant { s with
      frames := .clearing rest :: frames, disposed := object :: s.disposed } := by
  have hstacked := hs.calls.stacked
  have hheld : s.held = object :: (rest ++ frames.flatMap Frame.held) := by
    rw [State.held, hframes]
    rfl
  have hnone := hs.calls.clearing (object :: rest) (hframes ▸ List.mem_cons_self ..)
  rw [hframes] at hstacked
  refine ⟨⟨?_, hs.placed.fresh, hs.placed.keys⟩,
    ⟨hs.threads.started, hs.threads.known, hs.threads.managedThreadId, hs.threads.owner,
      hs.threads.free_cons hframes _⟩,
    ⟨hstacked, fun _ _ => hnone, fun _ cache hcache => nomatch hnone.symm.trans hcache⟩,
    ⟨hs.results.agree, hs.results.own⟩⟩
  · have hplaced := hs.placed.placed
    rw [hheld] at hplaced
    refine hplaced.trans ?_
    show (s.cached ++ object :: (rest ++ frames.flatMap Frame.held) ++ s.disposed).Perm
      (s.cached ++ (rest ++ frames.flatMap Frame.held) ++ object :: s.disposed)
    rw [List.append_assoc, List.append_assoc, List.cons_append]
    exact List.perm_middle.symm.append_left _

theorem Invariant.start [DecidableEq τ] {id : Nat} (hs : Invariant s) (ht : t ∉ s.started)
    (hid : ∀ u ∈ s.live, s.managedThreadId u ≠ id) : Invariant { s with
      live := t :: s.live, started := t :: s.started
      managedThreadId := Function.update s.managedThreadId t id } := by
  have hne {u : τ} (hu : u ∈ s.live) : u ≠ t := by
    rintro rfl
    exact ht (hs.threads.started u hu)
  have hsame {u : τ} (hu : u ∈ s.live) :
      Function.update s.managedThreadId t id u = s.managedThreadId u :=
    Function.update_of_ne (hne hu) ..
  have hself : Function.update s.managedThreadId t id t = id := Function.update_self ..
  have hold {u : τ} {object : α} (hu : u ∈ t :: s.live) (hr : (u, some object) ∈ s.results) :
      u ∈ s.live := by
    rcases List.mem_cons.mp hu with rfl | hu
    · exact absurd (hs.threads.known u _ hr) ht
    · exact hu
  refine ⟨⟨hs.placed.placed, hs.placed.fresh, hs.placed.keys⟩,
    ⟨fun u hu => ?_, fun u r hr => List.mem_cons_of_mem _ (hs.threads.known u r hr), ?_,
      fun u hu => List.mem_cons_of_mem _ (hs.threads.owner u hu), hs.threads.free⟩,
    ⟨hs.calls.stacked, hs.calls.clearing, fun hcomp cache hcache u hu => ?_⟩,
    ⟨fun cache hcache u object hr hu => ?_, fun u hu v hv object object' hr hr' =>
      hs.results.own u (hold hu hr) v (hold hv hr') object object' hr hr'⟩⟩
  · rcases List.mem_cons.mp hu with rfl | hu
    · exact List.mem_cons_self ..
    · exact List.mem_cons_of_mem _ (hs.threads.started u hu)
  · intro u hu v hv huv
    dsimp only at huv
    rcases List.mem_cons.mp hu with rfl | hu'
    · rcases List.mem_cons.mp hv with rfl | hv'
      · rfl
      · rw [hself, hsame hv'] at huv
        exact absurd huv.symm (hid v hv')
    · rcases List.mem_cons.mp hv with rfl | hv'
      · rw [hself, hsame hu'] at huv
        exact absurd huv (hid u hu')
      · rw [hsame hu', hsame hv'] at huv
        exact hs.threads.managedThreadId u hu' v hv' huv
  · dsimp only
    rw [hsame (hs.threads.owner u hu)]
    exact hs.calls.compensating hcomp cache hcache u hu
  · have hlive := hold hu hr
    dsimp only
    rw [hsame hlive]
    exact hs.results.agree cache hcache u object hr hlive

theorem Invariant.exit [DecidableEq τ] (hs : Invariant s) (ht : s.owner ≠ some t) :
    Invariant { s with live := s.live.filter (· ≠ t) } := by
  have hmem {u : τ} (hu : u ∈ s.live.filter (· ≠ t)) : u ∈ s.live := List.mem_of_mem_filter hu
  refine ⟨⟨hs.placed.placed, hs.placed.fresh, hs.placed.keys⟩,
    ⟨fun u hu => hs.threads.started u (hmem hu), hs.threads.known,
      fun u hu v hv => hs.threads.managedThreadId u (hmem hu) v (hmem hv), fun u hu => ?_,
      hs.threads.free⟩, ⟨hs.calls.stacked, hs.calls.clearing, hs.calls.compensating⟩,
    ⟨fun cache hcache u object hr hu => hs.results.agree cache hcache u object hr (hmem hu),
      fun u hu v hv => hs.results.own u (hmem hu) v (hmem hv)⟩⟩
  refine List.mem_filter.mpr ⟨hs.threads.owner u hu, decide_eq_true ?_⟩
  rintro rfl
  exact ht hu

/-! ### All runs -/

variable [DecidableEq τ] [DecidableEq α] {s' : State τ α} {a : Action τ α}

/-- What a step does, branch by branch. -/
inductive Step (s : State τ α) : Action τ α → State τ α → Prop
  | start (t : τ) (id : Nat) (ht : t ∉ s.started) (hid : ∀ u ∈ s.live, s.managedThreadId u ≠ id) :
    Step s (.start t id) { s with
      live := t :: s.live, started := t :: s.started
      managedThreadId := Function.update s.managedThreadId t id }
  | exit (t : τ) (ht : s.owner ≠ some t) :
    Step s (.exit t) { s with live := s.live.filter (· ≠ t) }
  | get (t : τ) (ht : mayCall t s) : Step s (.get t) (get t s)
  | throws (t : τ) (frames : List (Frame α)) (ht : s.owner = some t)
    (hframes : s.frames = .creating :: frames) : Step s .factoryThrows (answer t none (pop s))
  | returnsNull (t : τ) (frames : List (Frame α)) (ht : s.owner = some t)
    (hframes : s.frames = .creating :: frames) :
    Step s (.factoryReturns none) (answer t none (pop s))
  | returns (object : α) (frames : List (Frame α)) (hframes : s.frames = .creating :: frames)
    (hobject : object ∉ s.returned) : Step s (.factoryReturns (some object)) { s with
      frames := .adding object :: frames, returned := object :: s.returned }
  | add (t : τ) (object : α) (frames : List (Frame α)) (ht : s.owner = some t)
    (hframes : s.frames = .adding object :: frames) : Step s .add (add t object s)
  | compensated (t : τ) (frames : List (Frame α)) (ht : s.owner = some t)
    (hframes : s.frames = .compensating :: frames) :
    Step s .compensated (answer t none (pop s))
  | dispose (t : τ) (ht : mayCall t s) : Step s (.dispose t) (dispose t s)
  | disposeNext (object : α) (rest : List α) (frames : List (Frame α))
    (hframes : s.frames = .clearing (object :: rest) :: frames) : Step s .disposeNext { s with
      frames := .clearing rest :: frames, disposed := object :: s.disposed }
  | disposed (frames : List (Frame α)) (hframes : s.frames = .clearing [] :: frames) :
    Step s .disposeNext (pop s)

theorem next_step (hn : machine.next s a = some s') : Step s a s' := by
  cases a with
  | start t id =>
    obtain ⟨⟨ht, hid⟩, hs'⟩ := Option.ite_none_right_eq_some.mp hn
    cases hs'
    exact .start t id ht hid
  | exit t =>
    obtain ⟨ht, hs'⟩ := Option.ite_none_left_eq_some.mp hn
    cases hs'
    exact .exit t ht
  | get t =>
    obtain ⟨ht, hs'⟩ := Option.ite_none_right_eq_some.mp hn
    cases hs'
    exact .get t ht
  | factoryThrows =>
    dsimp only [machine, ThreadLocalDisposableObjectsCache.next] at hn
    split at hn
    · next t frames ht hframes =>
      cases hn
      exact .throws t frames ht hframes
    · exact nomatch hn
  | factoryReturns object =>
    dsimp only [machine, ThreadLocalDisposableObjectsCache.next] at hn
    split at hn
    · next t frames ht hframes =>
      cases hn
      exact .returnsNull t frames ht hframes
    · next t frames object ht hframes =>
      obtain ⟨hobject, hs'⟩ := Option.ite_none_left_eq_some.mp hn
      cases hs'
      exact .returns object frames hframes hobject
    · exact nomatch hn
  | add =>
    dsimp only [machine, ThreadLocalDisposableObjectsCache.next] at hn
    split at hn
    · next t object frames ht hframes =>
      cases hn
      exact .add t object frames ht hframes
    · exact nomatch hn
  | compensated =>
    dsimp only [machine, ThreadLocalDisposableObjectsCache.next] at hn
    split at hn
    · next t frames ht hframes =>
      cases hn
      exact .compensated t frames ht hframes
    · exact nomatch hn
  | dispose t =>
    obtain ⟨ht, hs'⟩ := Option.ite_none_right_eq_some.mp hn
    cases hs'
    exact .dispose t ht
  | disposeNext =>
    dsimp only [machine, ThreadLocalDisposableObjectsCache.next] at hn
    split at hn
    · next object rest frames hframes =>
      cases hn
      exact .disposeNext object rest frames hframes
    · next frames hframes =>
      cases hn
      exact .disposed frames hframes
    · exact nomatch hn

omit [DecidableEq α] in
theorem Step.invariant (h : Step s a s') (hs : Invariant s) : Invariant s' := by
  have howner {t : τ} (ht : s.owner = some t) : t ∈ s.live := hs.threads.owner t ht
  cases h with
  | start t id ht hid => exact hs.start ht hid
  | exit t ht => exact hs.exit ht
  | get t ht => exact hs.get ht
  | throws t frames ht hframes | returnsNull t frames ht hframes
  | compensated t frames ht hframes => exact (hs.pop hframes rfl).answer (howner ht) nofun
  | returns object frames hframes hobject => exact hs.factoryReturns hframes hobject
  | add t object frames ht hframes => exact hs.add ht hframes
  | dispose t ht => exact hs.dispose ht
  | disposeNext object rest frames hframes => exact hs.disposeNext hframes
  | disposed frames hframes => exact hs.pop hframes rfl

theorem invariant_of_reachable (hs : machine.Reachable s) : Invariant s := by
  refine hs.invariant (fun s hs => ?_) fun s a s' hs _ hn => (next_step hn).invariant hs
  obtain rfl : s = start := hs
  exact ⟨⟨List.Perm.refl _, List.nodup_nil, fun cache h => Option.some.inj h ▸ List.nodup_nil⟩,
    ⟨nofun, nofun, nofun, nofun, iff_of_true rfl rfl⟩, ⟨trivial, nofun, nofun⟩,
    ⟨fun _ _ _ _ => nofun, nofun⟩⟩

omit [DecidableEq α] in
theorem Step.cache_eq_none (h : Step s a s') (hcache : s.cache = none) : s'.cache = none := by
  cases h with
  | get t ht =>
    rw [ThreadLocalDisposableObjectsCache.get, hcache]
    exact hcache
  | dispose t ht =>
    rw [ThreadLocalDisposableObjectsCache.dispose, hcache]
    exact hcache
  | add t object frames ht hframes => rw [ThreadLocalDisposableObjectsCache.add, hcache]
  | _ => exact hcache

omit [DecidableEq τ] [DecidableEq α] in
/-- While the lock is free or the factory runs no call has an object in its hands. -/
theorem Invariant.held_eq_nil (hs : Invariant s)
    (hquiet : s.owner = none ∨ s.frames.head? = some .creating) : s.held = [] := by
  have hcreating : ∀ f ∈ s.frames, f = .creating := by
    rcases hquiet with howner | hhead
    · rw [hs.threads.free.mp howner]
      exact nofun
    · obtain ⟨frames, hframes⟩ := List.head?_eq_some_iff.mp hhead
      have hstacked := hs.calls.stacked
      rw [hframes] at hstacked ⊢
      exact List.forall_mem_cons.mpr ⟨rfl, hstacked⟩
  exact List.flatMap_eq_nil_iff.mpr fun f hf => by rw [hcreating f hf]; rfl

omit [DecidableEq τ] in
theorem Invariant.count_eq_one (hs : Invariant s) (ho : object ∈ s.returned) :
    s.cached.count object + s.held.count object + s.disposed.count object = 1 := by
  rw [← List.count_append, ← List.count_append, ← hs.placed.placed.count_eq object]
  exact List.count_eq_one_of_mem hs.placed.fresh ho

omit [DecidableEq τ] in
theorem Invariant.cached_or_disposed (hs : Invariant s) (hheld : object ∉ s.held)
    (ho : object ∈ s.returned) : IsCached s object ∨ IsDisposed s object := by
  have hone := hs.count_eq_one ho
  rw [List.count_eq_zero.mpr hheld, Nat.add_zero] at hone
  by_cases hcached : object ∈ s.cached
  · have hpos := List.count_pos_iff.mpr hcached
    obtain ⟨⟨id, o⟩, hentry, rfl⟩ := List.mem_map.mp hcached
    refine .inl ⟨⟨id, hentry, fun id' hid' => ?_⟩, by omega⟩
    exact congrArg Prod.fst (List.inj_on_of_nodup_map hs.placed.cached_nodup hid' hentry rfl)
  · have hzero := List.count_eq_zero.mpr hcached
    exact .inr ⟨fun id hid => hcached (List.mem_map_of_mem hid), by omega⟩

/-! ### A call of `Dispose` -/

omit [DecidableEq τ] [DecidableEq α] in
theorem add_returned (t : τ) (object : α) (s : State τ α) :
    (add t object s).returned = s.returned := by
  unfold add
  dsimp only
  split
  · rfl
  · split <;> rfl

omit [DecidableEq α] in
theorem Step.returned_subset (h : Step s a s') : s.returned ⊆ s'.returned := by
  cases h with
  | get t ht =>
    unfold ThreadLocalDisposableObjectsCache.get
    split
    · exact List.Subset.refl _
    · split <;> exact List.Subset.refl _
  | add t object frames ht hframes =>
    rw [add_returned]
    exact List.Subset.refl _
  | dispose t ht =>
    unfold ThreadLocalDisposableObjectsCache.dispose
    split <;> exact List.Subset.refl _
  | returns object frames hframes hobject => exact List.subset_cons_self ..
  | _ => exact List.Subset.refl _

/-- What a disposed cache keeps along a run. -/
theorem run_of_cache_eq_none {as : List (Action τ α)} : ∀ {s s' : State τ α}, s.cache = none →
    machine.run s as = some s' → s'.cache = none ∧ s.returned ⊆ s'.returned := by
  induction as with
  | nil =>
    intro s s' hcache hrun
    obtain rfl := Option.some.inj hrun
    exact ⟨hcache, List.Subset.refl _⟩
  | cons a as ih =>
    intro s s' hcache hrun
    obtain ⟨m, hm, hrun⟩ := Option.bind_eq_some_iff.mp hrun
    have hstep := next_step hm
    obtain ⟨hcache', hsubset⟩ := ih (hstep.cache_eq_none hcache) hrun
    exact ⟨hcache', List.Subset.trans hstep.returned_subset hsubset⟩

/-- The loop of `Dispose` comes to its end. -/
theorem exists_run_clearing (rest : List α) (frames : List (Frame α)) : ∀ s : State τ α,
    s.frames = .clearing rest :: frames →
    ∃ n s', machine.run s (List.replicate n .disposeNext) = some s' ∧ s'.frames = frames := by
  induction rest with
  | nil =>
    intro s hframes
    refine ⟨1, pop s, ?_, by simp [ThreadLocalDisposableObjectsCache.pop, hframes]⟩
    simp [machine, ThreadLocalDisposableObjectsCache.next, hframes]
  | cons object rest ih =>
    intro s hframes
    obtain ⟨n, s', hrun, hframes'⟩ := ih { s with
      frames := .clearing rest :: frames, disposed := object :: s.disposed } rfl
    refine ⟨n + 1, s', ?_, hframes'⟩
    have hnext : machine.next s .disposeNext = some { s with
        frames := .clearing rest :: frames, disposed := object :: s.disposed } := by
      simp [machine, ThreadLocalDisposableObjectsCache.next, hframes]
    rw [List.replicate_succ, Machine.run_cons, hnext]
    exact hrun

/-- `Dispose` takes the dictionary away at once, and comes to its end where the objects do
not call the cache. -/
theorem dispose_ends (t : τ) (s : State τ α) : (dispose t s).cache = none ∧
    (dispose t s).returned = s.returned ∧
    ∃ n s', machine.run (dispose t s) (List.replicate n .disposeNext) = some s' ∧
      s'.frames = s.frames := by
  unfold dispose
  split
  · next hcache => exact ⟨hcache, rfl, 0, s, rfl, rfl⟩
  · next cache hcache => exact ⟨rfl, rfl, exists_run_clearing _ s.frames _ rfl⟩

omit [DecidableEq τ] in
/-- A `Dispose` that is over has disposed of every object of the cache. -/
theorem Invariant.isDisposed_of_cached {s₂ : State τ α} (hs : Invariant s) (hs₂ : Invariant s₂)
    (hcache : s₂.cache = none) (hsubset : s.returned ⊆ s₂.returned)
    (hframes : s₂.frames = s.frames) (ho : object ∈ s.cached) : IsDisposed s₂ object := by
  have hreturned : object ∈ s.returned :=
    hs.placed.placed.mem_iff.mpr (List.mem_append_left _ (List.mem_append_left _ ho))
  have hheld : object ∉ s₂.held := by
    have hone := hs.count_eq_one hreturned
    have hpos := List.count_pos_iff.mpr ho
    rw [State.held, hframes]
    exact List.count_eq_zero.mp (show s.held.count object = 0 by omega)
  refine (hs₂.cached_or_disposed hheld (hsubset hreturned)).resolve_left fun hcached => ?_
  obtain ⟨id, hid, -⟩ := hcached.1
  rw [hcache] at hid
  exact nomatch hid

/-- **No object is lost or shared.**  At every moment every object that the factory
returned is in one place: the cache, where it is under exactly one id, or disposed,
which it was once, or the hands of a call that runs.  While the lock is free or the
factory runs no call has an object in its hands.  The results of live threads are one
object for each thread, the same in every `Get`.  In a disposed cache, which stays
disposed, all objects are disposed and `Get` throws.  A `Dispose` disposes the cache at
once; when it is over, as it will be, each object of the cache was disposed once. -/
theorem objects_owned (hs : machine.Reachable s) :
    (∀ object ∈ s.returned,
      s.cached.count object + s.held.count object + s.disposed.count object = 1) ∧
    (∀ object ∈ s.returned, object ∉ s.held → IsCached s object ∨ IsDisposed s object) ∧
    (s.owner = none ∨ s.frames.head? = some .creating → s.held = []) ∧
    (∀ t ∈ s.live, ∀ u ∈ s.live, ∀ object object', (t, some object) ∈ s.results →
      (u, some object') ∈ s.results → (t = u ↔ object = object')) ∧
    (s.cache ≠ none → ∀ t ∈ s.live, ∀ object s', (t, some object) ∈ s.results →
      machine.next s (.get t) = some s' → s' = answer t (some object) s) ∧
    (s.cache = none → (s.owner = none → ∀ object ∈ s.returned, IsDisposed s object) ∧
      (∀ t s', machine.next s (.get t) = some s' → s' = answer t none s) ∧
      ∀ a s', machine.next s a = some s' → s'.cache = none) ∧
    ∀ t, mayCall t s = true → ∃ s₁, machine.next s (.dispose t) = some s₁ ∧
      (∃ n s₂, machine.run s₁ (List.replicate n .disposeNext) = some s₂ ∧
        s₂.frames = s.frames) ∧
      ∀ as s₂, machine.run s₁ as = some s₂ → s₂.cache = none ∧
        (s₂.frames = s.frames → ∀ object ∈ s.cached, IsDisposed s₂ object) := by
  have hinv := invariant_of_reachable hs
  refine ⟨fun object ho => hinv.count_eq_one ho, fun object ho hheld =>
    hinv.cached_or_disposed hheld ho, hinv.held_eq_nil, hinv.results.own, ?_, fun hcache =>
    ⟨fun howner object ho => ?_, fun t s' hn => ?_,
      fun a s' hn => (next_step hn).cache_eq_none hcache⟩, fun t ht => ?_⟩
  · intro hcache t ht object s' hresult hn
    obtain ⟨cache, hcache⟩ := Option.ne_none_iff_exists'.mp hcache
    have hentry := hinv.results.agree cache hcache t object hresult ht
    have hlookup := lookup_eq (hinv.placed.keys cache hcache) hentry
    obtain ⟨-, hs'⟩ := Option.ite_none_right_eq_some.mp hn
    rw [get, hcache] at hs'
    dsimp only at hs'
    rw [hlookup] at hs'
    exact (Option.some.inj hs').symm
  · have hheld : object ∉ s.held := by
      rw [hinv.held_eq_nil (.inl howner)]
      exact List.not_mem_nil
    have hplace := hinv.cached_or_disposed hheld ho
    refine hplace.resolve_left fun hcached => ?_
    obtain ⟨id, hid, -⟩ := hcached.1
    rw [hcache] at hid
    exact nomatch hid
  · obtain ⟨-, hs'⟩ := Option.ite_none_right_eq_some.mp hn
    rw [get, hcache] at hs'
    exact (Option.some.inj hs').symm
  · obtain ⟨hcache, hreturned, hends⟩ := dispose_ends t s
    have hn : machine.next s (.dispose t) = some (dispose t s) := if_pos ht
    refine ⟨dispose t s, hn, hends, fun as s₂ hrun => ?_⟩
    obtain ⟨hcache', hsubset⟩ := run_of_cache_eq_none hcache hrun
    have hinv' := invariant_of_reachable ((hs.next hn).run hrun)
    exact ⟨hcache', fun hframes object ho =>
      hinv.isDisposed_of_cached hinv' hcache' (hreturned ▸ hsubset) hframes ho⟩

/-- The factory calls `Get` again: the object of the inner call stays, that of the
outer call is disposed.  Then the cache is disposed, and `Get` throws. -/
theorem objects_owned_factory_gets :
    let actions : List (Action Nat Nat) := [.start 0 7, .get 0, .get 0, .factoryReturns (some 1),
      .add, .factoryReturns (some 2), .add, .compensated, .get 0]
    let disposal : List (Action Nat Nat) := [.disposeNext, .disposeNext, .get 0]
    ∃ s s₁ s₂, machine.run start actions = some s ∧ s.cache = some [(7, 1)] ∧ s.disposed = [2] ∧
      s.results = [(0, some 1), (0, none), (0, some 1)] ∧
      (∀ object ∈ s.returned, IsCached s object ∨ IsDisposed s object) ∧
      machine.next s (.dispose 0) = some s₁ ∧ machine.run s₁ disposal = some s₂ ∧
      s₂.disposed = [1, 2] ∧ s₂.results = (0, none) :: s.results ∧ s₂.cache = none ∧
      IsDisposed s₂ 1 := by
  intro actions disposal
  have hrun : machine.run start actions = some _ := rfl
  obtain ⟨-, hplaced, -, -, -, -, hdispose⟩ := objects_owned (Machine.Reachable.run (.init rfl) hrun)
  obtain ⟨s₁, hn, -, hafter⟩ := hdispose 0 rfl
  obtain rfl := Option.some.inj hn
  obtain ⟨hcache, hdisposed⟩ := hafter disposal _ rfl
  exact ⟨_, _, _, hrun, rfl, rfl, rfl, fun object ho => hplaced object ho List.not_mem_nil, rfl,
    rfl, rfl, rfl, hcache, hdisposed rfl 1 (List.mem_cons_self ..)⟩

end Garbage.ThreadLocalDisposableObjectsCache
