import Garbage.ScopeGuards.Cleanup

/-!
# Objects on a heap

`construct` allocates a block and calls a constructor in it, with a guard that gives
the block back if the constructor throws.  `destruct` calls the destructor, with a guard
that gives the block back in any case.  `construct_unique` leaves the call of `destruct`
to a `unique_ptr`.

A program opens such scopes in any nesting, and so do its constructors and destructors.
The heap may refuse any block.  The trace has what happens to the blocks, and where the
scope of each `unique_ptr` is entered and left.  It is `Nested` if each block that is
allocated is given back, with an object in between that is there in the whole of its scope
and is destroyed at the end of it, and whatever is allocated within is given back within.
Every program that does not terminate leaves such a trace and the blocks as they were
(`scopes_give_back`).
-/

namespace Garbage.WinHeap

open Foundation.Unwinding (Thread Exit Code)
open Foundation.Unwinding.Code (Ends Balanced Within)
open ScopeGuards (World Kind)

inductive Block
  | raw
  /-- an object lives in it -/
  | object
  deriving DecidableEq

inductive Event (π : Type)
  | allocated (p : π)
  | constructed (p : π)
  /-- the scope of its `unique_ptr` begins -/
  | entered (p : π)
  /-- the scope ends, normally or with an exception -/
  | left (p : π)
  /-- its destructor begins -/
  | destroyed (p : π)
  | deallocated (p : π)
  deriving DecidableEq

namespace Event

variable {π : Type}

def address : Event π → π
  | allocated p => p
  | constructed p => p
  | entered p => p
  | left p => p
  | destroyed p => p
  | deallocated p => p

/-- What becomes of the block, if this may happen to it. -/
def next : Event π → Option Block → Option (Option Block)
  | allocated _, none => some (some .raw)
  | constructed _, some .raw => some (some .object)
  | entered _, some .object => some (some .object)
  | left _, some .object => some (some .object)
  | destroyed _, some .object => some (some .raw)
  | deallocated _, some .raw => some none
  | _, _ => none

end Event

/-- The blocks of the heap and the rest of the memory, with the contents of the blocks. -/
structure Memory (π σ : Type) where
  blocks : π → Option Block
  rest : σ
  /-- the calls of `HeapAlloc` so far -/
  calls : ℕ
  trace : List (Event π)
  /-- what happened to a block to which it must not -/
  wrong : ℕ

variable {π σ : Type} [DecidableEq π]

def Memory.happens (ev : Event π) (m : Memory π σ) : Memory π σ :=
  match ev.next (m.blocks ev.address) with
  | some b => { m with
      blocks := Function.update m.blocks ev.address b
      trace := m.trace ++ [ev] }
  | none => { m with trace := m.trace ++ [ev], wrong := m.wrong + 1 }

/-- `HeapAlloc` gives out blocks that are free, or refuses. -/
structure Heap (π σ : Type) where
  heapHandle : Bool
  heapAlloc : Memory π σ → ℕ → Option π
  fresh : ∀ {m size p}, heapAlloc m size = some p → m.blocks p = none

namespace Heap

variable (heap : Heap π σ)

def allocate (size : ℕ) (m : Memory π σ) : Option π :=
  let size := if size ≤ 0 then size + 1 else size
  if !heap.heapHandle then none else heap.heapAlloc m size

def deallocate (pointer : π) (m : Memory π σ) : Memory π σ :=
  if !heap.heapHandle then m else m.happens (.deallocated pointer)

def allocated (p : π) (m : Memory π σ) : Memory π σ :=
  { m.happens (.allocated p) with calls := m.calls + 1 }

/-- `allocate` has returned the null pointer. -/
def refused (m : Memory π σ) : Memory π σ := { m with calls := m.calls + 1 }

/-- `construct`, after its `Allocate`.  The lifetime begins where the constructor ends. -/
def construct (constructor : π → ScopeGuards.Program (Memory π σ)) (buf : π) :
    ScopeGuards.Program (Memory π σ) :=
  .guard .failure (.effect (heap.deallocate buf))
    (.seq (constructor buf) (.effect (Memory.happens (.constructed buf))))

def destruct (destructor : π → ScopeGuards.Program (Memory π σ)) :
    Option π → ScopeGuards.Program (Memory π σ)
  | none => .effect id
  | some value => .guard .exit (.effect (heap.deallocate value))
      (.seq (.effect (Memory.happens (.destroyed value))) (destructor value))

/-- The rest of the scope of a `unique_ptr`.  The object is usable in all of it. -/
def inScope (buf : π) (rest : ScopeGuards.Program (Memory π σ)) :
    ScopeGuards.Program (Memory π σ) :=
  .seq (.effect (Memory.happens (.entered buf)))
    (.object (.effect (Memory.happens (.left buf))) rest)

/-- The declaration of a `unique_ptr` from `construct_unique`, and the rest of its scope. -/
def constructUnique (size : ℕ) (constructor destructor : π → ScopeGuards.Program (Memory π σ))
    (rest : Option π → ScopeGuards.Program (Memory π σ)) : ScopeGuards.Program (Memory π σ) :=
  .depends fun _ m =>
    match heap.allocate size m with
    | none => .seq (.effect refused)
        (.object (.nothrow (heap.destruct destructor none)) (rest none))
    | some buf => .seq (.effect (allocated buf)) (.seq (heap.construct constructor buf)
        (.object (.nothrow (heap.destruct destructor (some buf))) (inScope buf (rest (some buf)))))

end Heap

/-! ### Programs -/

inductive Program (π σ : Type)
  /-- anything but what happens to the blocks -/
  | effect (f : σ → σ)
  | throw_
  | seq (first second : Program π σ)
  | depends (choice : ℕ → Memory π σ → Program π σ)
  | tryCatch (catches : Memory π σ → Bool) (body handler : Program π σ)
  | nothrow (body : Program π σ)
  | object (destructor rest : Program π σ)
  | guard (kind : Kind) (body rest : Program π σ)
  /-- `construct_unique`, and the rest of the scope -/
  | unique (size : ℕ) (constructor destructor : π → Program π σ) (rest : Option π → Program π σ)

namespace Program

/-- The program with the code of the heap in it. -/
def expand (heap : Heap π σ) : Program π σ → ScopeGuards.Program (Memory π σ)
  | effect f => .effect fun m => { m with rest := f m.rest }
  | throw_ => .throw_
  | seq first second => .seq (first.expand heap) (second.expand heap)
  | depends choice => .depends fun n m => (choice n m).expand heap
  | tryCatch catches body handler => .tryCatch catches (body.expand heap) (handler.expand heap)
  | nothrow body => .nothrow (body.expand heap)
  | object destructor rest => .object (destructor.expand heap) (rest.expand heap)
  | guard kind body rest => .guard kind (body.expand heap) (rest.expand heap)
  | unique size constructor destructor rest => heap.constructUnique size
      (fun p => (constructor p).expand heap) (fun p => (destructor p).expand heap)
      (fun p => (rest p).expand heap)

def exec (heap : Heap π σ) (p : Program π σ) : Code (World (Memory π σ)) := (p.expand heap).exec

end Program

/-! ### What should hold -/

/-- A trace in which every block is given back, and those that are allocated within it before
that.  The constructor has thrown, or an object has lived in the block for just a scope. -/
inductive Nested : List (Event π) → Prop
  | nil : Nested []
  | append {a b : List (Event π)} : Nested a → Nested b → Nested (a ++ b)
  | failed (p : π) {a : List (Event π)} : Nested a →
      Nested ([.allocated p] ++ a ++ [.deallocated p])
  | lived (p : π) {a b c : List (Event π)} : Nested a → Nested b → Nested c →
      Nested ([.allocated p] ++ a ++ [.constructed p, .entered p] ++ b ++
        [.left p, .destroyed p] ++ c ++ [.deallocated p])

/-- All that was allocated in between has been given back, and nothing else. -/
structure Returned (m m' : Memory π σ) : Prop where
  blocks : m'.blocks = m.blocks
  wrong : m'.wrong = m.wrong
  trace : ∃ new, m'.trace = m.trace ++ new ∧ Nested new

instance : Std.Refl (Returned (π := π) (σ := σ)) := ⟨fun _ => ⟨rfl, rfl, [], by simp, .nil⟩⟩

instance : IsTrans (Memory π σ) Returned := by
  refine ⟨fun m₁ m₂ m₃ h h' => ⟨h'.blocks.trans h.blocks, h'.wrong.trans h.wrong, ?_⟩⟩
  obtain ⟨new, htrace, hnew⟩ := h.trace
  obtain ⟨new', htrace', hnew'⟩ := h'.trace
  exact ⟨new ++ new', by rw [htrace', htrace, List.append_assoc], hnew.append hnew'⟩

/-! ### The life of a block -/

/-- The block `p` is held since `m`, and the rest is as it was. -/
structure Holds (p : π) (b : Block) (new : List (Event π)) (m m' : Memory π σ) : Prop where
  blocks : m'.blocks = Function.update m.blocks p (some b)
  wrong : m'.wrong = m.wrong
  trace : m'.trace = m.trace ++ new

variable {p : π} {b : Block} {new : List (Event π)} {m m' m'' : Memory π σ} {heap : Heap π σ}

theorem Memory.happens_eq {ev : Event π} {b : Option Block}
    (h : ev.next (m.blocks ev.address) = some b) : m.happens ev = { m with
      blocks := Function.update m.blocks ev.address b
      trace := m.trace ++ [ev] } := by
  simp only [Memory.happens, h]

theorem holds_allocated (h : m.blocks p = none) :
    Holds p .raw [.allocated p] m (Heap.allocated p m) := by
  have hnext : (Event.allocated p).next (m.blocks p) = some (some .raw) := by rw [h]; rfl
  unfold Heap.allocated
  rw [Memory.happens_eq hnext]
  exact ⟨rfl, rfl, rfl⟩

namespace Holds

theorem returned (h : Holds p b new m m') (h' : Returned m' m'') :
    ∃ a, Nested a ∧ Holds p b (new ++ a) m m'' := by
  obtain ⟨a, htrace, ha⟩ := h'.trace
  exact ⟨a, ha, h'.blocks.trans h.blocks, h'.wrong.trans h.wrong, by
    rw [htrace, h.trace, List.append_assoc]⟩

theorem block_eq (h : Holds p b new m m') : m'.blocks p = some b := by
  rw [h.blocks, Function.update_self]

theorem happens (h : Holds p b new m m') {ev : Event π} {b' : Block} (hev : ev.address = p)
    (hnext : ev.next (some b) = some (some b')) :
    Holds p b' (new ++ [ev]) m (m'.happens ev) := by
  have hnext' : ev.next (m'.blocks ev.address) = some (some b') := by rw [hev, h.block_eq, hnext]
  rw [Memory.happens_eq hnext']
  refine ⟨?_, h.wrong, ?_⟩
  · rw [hev, h.blocks, Function.update_idem]
  · rw [h.trace, List.append_assoc]

theorem deallocate (h : Holds p .raw new m m') (hfree : m.blocks p = none)
    (hhandle : heap.heapHandle = true) (hnew : Nested (new ++ [.deallocated p])) :
    Returned m (heap.deallocate p m') := by
  have hnext : (Event.deallocated p).next (m'.blocks p) = some none := by rw [h.block_eq]; rfl
  simp only [Heap.deallocate, hhandle, Bool.not_true, Bool.false_eq_true, if_false]
  rw [Memory.happens_eq hnext]
  refine ⟨?_, h.wrong, new ++ [.deallocated p], ?_, hnew⟩
  · show Function.update m'.blocks p none = m.blocks
    rw [h.blocks, Function.update_idem, ← hfree, Function.update_eq_self]
  · rw [h.trace, List.append_assoc]

end Holds

omit [DecidableEq π] in
theorem Heap.allocate_eq_some {size : ℕ} (h : heap.allocate size m = some p) :
    heap.heapHandle = true ∧ m.blocks p = none := by
  unfold Heap.allocate at h
  cases hhandle : heap.heapHandle with
  | false => simp [hhandle] at h
  | true =>
    simp only [hhandle, Bool.not_true, Bool.false_eq_true, if_false] at h
    exact ⟨rfl, heap.fresh h⟩

/-! ### Scopes -/

open ScopeGuards (OnMemory opened)

section Scopes

variable {constructor destructor : π → ScopeGuards.Program (Memory π σ)}
  {rest : Option π → ScopeGuards.Program (Memory π σ)} {t : Thread (World (Memory π σ))}

/-- After `construct` there is an object, or nothing if the constructor has thrown. -/
theorem ends_construct (hc : Within (OnMemory Returned) (constructor p).exec)
    (hfree : m.blocks p = none) (hhandle : heap.heapHandle = true)
    (h : Holds p .raw [.allocated p] m t.data.memory) :
    Ends (heap.construct constructor p).exec t fun e t' => match e with
      | .normal => ∃ a, Nested a ∧
          Holds p .object ([.allocated p] ++ a ++ [.constructed p]) m t'.data.memory
      | .raised => Returned m t'.data.memory := by
  have hbal : Balanced ((constructor p).exec.andThen
      (ScopeGuards.onMemory (Memory.happens (.constructed p)))) :=
    (ScopeGuards.exec_balanced _).andThen Code.balanced_effect
  refine ScopeGuards.ends_guarded_failure hbal (Code.ends_andThen ?_)
  refine (hc (opened t)).mono fun e t₁ h₁ => ?_
  obtain ⟨a, ha, hheld⟩ := h.returned h₁
  cases e with
  | normal =>
    refine Code.ends_effect fun t₂ ht₂ => ⟨a, ha, ?_⟩
    rw [ht₂]
    exact hheld.happens rfl rfl
  | raised =>
    intro t₂ ht₂
    rw [ht₂]
    exact hheld.deallocate hfree hhandle (.failed p ha)

/-- At the end of the scope the object is still there. -/
theorem ends_inScope {rest : ScopeGuards.Program (Memory π σ)}
    (hr : Within (OnMemory Returned) rest.exec) (h : Holds p .object new m t.data.memory) :
    Ends (Heap.inScope p rest).exec t fun _ t' => ∃ b, Nested b ∧
      Holds p .object (new ++ [.entered p] ++ b ++ [.left p]) m t'.data.memory := by
  refine Code.ends_andThen (Code.ends_effect (Code.ends_scope ?_))
  have hentered : Holds p .object (new ++ [.entered p]) m (t.data.memory.happens (.entered p)) :=
    h.happens rfl rfl
  refine (hr _).mono fun e t₁ h₁ => ?_
  obtain ⟨b, hb, hheld⟩ := hentered.returned h₁
  have hleft : Holds p .object (new ++ [.entered p] ++ b ++ [.left p]) m
      (t₁.data.memory.happens (.left p)) := hheld.happens rfl rfl
  cases e with
  | normal => exact Code.ends_effect ⟨b, hb, hleft⟩
  | raised => exact Code.ends_effect ⟨b, hb, hleft⟩

/-- After `destruct` the block is given back, even if the destructor has thrown. -/
theorem ends_destruct (hd : Within (OnMemory Returned) (destructor p).exec)
    (hfree : m.blocks p = none) (hhandle : heap.heapHandle = true) {a b : List (Event π)}
    (ha : Nested a) (hb : Nested b)
    (h : Holds p .object ([.allocated p] ++ a ++ [.constructed p] ++ [.entered p] ++ b ++
      [.left p]) m t.data.memory) :
    Ends (heap.destruct destructor (some p)).exec t fun _ t' => Returned m t'.data.memory := by
  refine ScopeGuards.ends_guarded_exit (Code.ends_andThen (Code.ends_effect ?_))
  have hdestroyed : Holds p .raw (_ ++ [.destroyed p]) m _ := h.happens rfl rfl
  refine (hd _).mono fun e t₁ h₁ t₂ ht₂ => ?_
  obtain ⟨c, hc, hheld⟩ := hdestroyed.returned h₁
  rw [ht₂]
  refine hheld.deallocate hfree hhandle ?_
  simpa only [List.append_assoc, List.cons_append, List.nil_append] using Nested.lived p ha hb hc

omit [DecidableEq π] in
theorem within_refused : Within (OnMemory Returned)
    (ScopeGuards.Program.effect (Heap.refused (π := π) (σ := σ))).exec :=
  Code.within_effect fun _ => ⟨rfl, rfl, [], by simp [Heap.refused], .nil⟩

theorem exec_constructUnique_none {size : ℕ} (h : heap.allocate size t.data.memory = none) :
    (heap.constructUnique size constructor destructor rest).exec t =
      (ScopeGuards.Program.seq (.effect Heap.refused)
        (.object (.nothrow (heap.destruct destructor none)) (rest none))).exec t := by
  simp only [Heap.constructUnique, ScopeGuards.Program.exec, h]

theorem exec_constructUnique_some {size : ℕ} (h : heap.allocate size t.data.memory = some p) :
    (heap.constructUnique size constructor destructor rest).exec t =
      (ScopeGuards.Program.seq (.effect (Heap.allocated p))
        (.seq (heap.construct constructor p)
          (.object (.nothrow (heap.destruct destructor (some p)))
            (Heap.inScope p (rest (some p)))))).exec t := by
  simp only [Heap.constructUnique, ScopeGuards.Program.exec, h]

/-- What is constructed in a scope is gone after it. -/
theorem within_constructUnique (size : ℕ)
    (hc : ∀ p, Within (OnMemory Returned) (constructor p).exec)
    (hd : ∀ p, Within (OnMemory Returned) (destructor p).exec)
    (hr : ∀ p, Within (OnMemory Returned) (rest p).exec) :
    Within (OnMemory Returned) (heap.constructUnique size constructor destructor rest).exec := by
  intro t
  cases hp : heap.allocate size t.data.memory with
  | none =>
    refine Ends.congr (y := (ScopeGuards.Program.seq _ _).exec) ?_ (exec_constructUnique_none hp)
    exact (within_refused.andThen ((hr none).scope fun _ =>
      Within.nothrow (Code.within_effect fun w => Std.Refl.refl (r := Returned) w.memory))) t
  | some p =>
    obtain ⟨hhandle, hfree⟩ := Heap.allocate_eq_some hp
    refine Ends.congr (y := (ScopeGuards.Program.seq _ _).exec) ?_ (exec_constructUnique_some hp)
    refine Code.ends_andThen (Code.ends_effect (Code.ends_andThen ?_))
    refine (ends_construct (hc p) hfree hhandle (holds_allocated hfree)).mono fun e t₁ h₁ => ?_
    cases e with
    | raised => exact h₁
    | normal =>
      obtain ⟨a, ha, hobject⟩ := h₁
      refine Code.ends_scope ((ends_inScope (hr (some p)) hobject).mono fun e t₂ h₂ => ?_)
      obtain ⟨b, hb, hheld⟩ := h₂
      have hdestruct := ends_destruct (hd p) hfree hhandle ha hb hheld
      cases e with
      | normal =>
        refine Code.ends_nothrow (hdestruct.mono fun e t₃ h₃ => ?_)
        cases e with
        | normal => exact h₃
        | raised => trivial
      | raised =>
        refine Code.ends_nothrow (hdestruct.mono fun e t₃ h₃ => ?_)
        cases e with
        | normal => exact h₃
        | raised => trivial

end Scopes

theorem within_exec (program : Program π σ) :
    Within (OnMemory Returned) (program.exec heap) := by
  unfold Program.exec
  induction program with
  | effect f => exact Code.within_effect fun w => ⟨rfl, rfl, [], by simp, .nil⟩
  | throw_ => exact Code.within_throw
  | seq first second ih ih' => exact ih.andThen ih'
  | depends choice ih => exact fun t => ih _ _ t
  | tryCatch catches body handler ih ih' => exact ih.tryCatch ih'
  | nothrow body ih => exact ih.nothrow
  | object destructor rest ih ih' => exact ih'.scope fun _ => ih
  | guard kind body rest ih ih' => exact ScopeGuards.within_guarded_onMemory ih ih'
  | unique size constructor destructor rest ihc ihd ihr =>
    exact within_constructUnique size ihc ihd ihr

/-! ### Programs that are not terminated -/

open Foundation.Unwinding.Code (Survives Quiet)

/-- No exception leaves a destructor or a function declared `noexcept`. -/
def Program.Tame (heap : Heap π σ) : Program π σ → Prop
  | effect _ => True
  | throw_ => True
  | seq first second => first.Tame heap ∧ second.Tame heap
  | depends choice => ∀ n m, (choice n m).Tame heap
  | tryCatch _ body handler => body.Tame heap ∧ handler.Tame heap
  | nothrow body => body.Tame heap ∧ Quiet (body.exec heap)
  | object destructor rest =>
    destructor.Tame heap ∧ Quiet (destructor.exec heap) ∧ rest.Tame heap
  | guard _ body rest => body.Tame heap ∧ rest.Tame heap
  | unique _ constructor destructor rest => (∀ p, (constructor p).Tame heap) ∧
      (∀ p, (destructor p).Tame heap ∧ Quiet ((destructor p).exec heap)) ∧
      ∀ p, (rest p).Tame heap

section Survives

variable {constructor destructor : π → ScopeGuards.Program (Memory π σ)}
  {rest : Option π → ScopeGuards.Program (Memory π σ)}

theorem survives_construct (hc : Survives (constructor p).exec) :
    Survives (heap.construct constructor p).exec :=
  ScopeGuards.survives_guarded
    ((ScopeGuards.exec_balanced _).andThen Code.balanced_effect)
    (Code.within_effect fun _ => ScopeGuards.Grown.of_eq rfl rfl) Code.survives_effect
    (hc.andThen Code.survives_effect)

theorem quiet_destruct (hd : ∀ p, Quiet (destructor p).exec) (value : Option π) :
    Quiet (heap.destruct destructor value).exec := by
  cases value with
  | none => exact fun t => Code.ends_effect rfl
  | some p =>
    intro t
    refine ScopeGuards.ends_guarded_exit (Code.ends_andThen (Code.ends_effect ?_))
    exact (hd p _).mono fun e t₁ he t₂ _ => he

theorem survives_destruct (hd : ∀ p, Survives (destructor p).exec) (value : Option π) :
    Survives (heap.destruct destructor value).exec := by
  cases value with
  | none => exact Code.survives_effect
  | some p =>
    exact ScopeGuards.survives_guarded
      (Code.balanced_effect.andThen (ScopeGuards.exec_balanced _))
      (Code.within_effect fun _ => ScopeGuards.Grown.of_eq rfl rfl) Code.survives_effect
      (Code.survives_effect.andThen (hd p))

theorem survives_inScope {rest : ScopeGuards.Program (Memory π σ)} (hr : Survives rest.exec) :
    Survives (Heap.inScope p rest).exec :=
  Code.survives_effect.andThen fun t => Code.completes_scope (hr t)
    (fun _ => Code.survives_effect) fun _ _ => Code.ends_effect rfl

theorem survives_constructUnique (size : ℕ) (hc : ∀ p, Survives (constructor p).exec)
    (hd : ∀ p, Survives (destructor p).exec) (hquiet : ∀ p, Quiet (destructor p).exec)
    (hr : ∀ p, Survives (rest p).exec) :
    Survives (heap.constructUnique size constructor destructor rest).exec := by
  have hscope (value : Option π) {rest : ScopeGuards.Program (Memory π σ)}
      (hr : Survives rest.exec) : Survives (ScopeGuards.Program.object
      (.nothrow (heap.destruct destructor value)) rest).exec := by
    have hquiet' : Quiet (heap.destruct destructor value).exec := quiet_destruct hquiet value
    refine fun t => Code.completes_scope (hr t)
      (fun _ => (survives_destruct hd value).nothrow hquiet') fun t' _ => ?_
    refine Code.ends_nothrow ((hquiet' t').mono fun e _ he => ?_)
    cases he
    rfl
  intro t
  cases hp : heap.allocate size t.data.memory with
  | none =>
    unfold Code.Completes
    rw [exec_constructUnique_none hp]
    exact (Code.survives_effect.andThen (hscope none (hr none))) t
  | some p =>
    unfold Code.Completes
    rw [exec_constructUnique_some hp]
    exact (Code.survives_effect.andThen ((survives_construct (hc p)).andThen
      (hscope (some p) (survives_inScope (hr (some p)))))) t

end Survives

theorem survives_exec {program : Program π σ} (h : program.Tame heap) :
    Survives (program.exec heap) := by
  unfold Program.exec
  induction program with
  | effect f => exact Code.survives_effect
  | throw_ => exact Code.survives_throw
  | seq first second ih ih' => exact (ih h.1).andThen (ih' h.2)
  | depends choice ih => exact fun t => ih _ _ (h _ _) t
  | tryCatch catches body handler ih ih' => exact (ih h.1).tryCatch (ih' h.2)
  | nothrow body ih => exact (ih h.1).nothrow h.2
  | object destructor rest ih ih' =>
    exact fun t => Code.completes_scope (ih' h.2.2 t) (fun _ => ih h.1) fun t' _ => h.2.1 t'
  | guard kind body rest ih ih' =>
    exact ScopeGuards.survives_guarded (ScopeGuards.exec_balanced _) (ScopeGuards.exec_within _)
      (ih h.1) (ih' h.2)
  | unique size constructor destructor rest ihc ihd ihr =>
    exact survives_constructUnique size (fun p => ihc p (h.1 p)) (fun p => ihd p (h.2.1 p).1)
      (fun p => (h.2.1 p).2) (fun p => ihr p (h.2.2 p))

/-- **Scopes give back what they allocate.**  Where a program ends, normally or with an
exception, the blocks are as they were before, nothing has happened to a block to which it
must not, and the trace is nested.  A program ends if no exception leaves a destructor or a
function declared `noexcept`. -/
theorem scopes_give_back (heap : Heap π σ) (program : Program π σ)
    (t : Thread (World (Memory π σ))) :
    Ends (program.exec heap) t (fun e t' => t'.uncaught = t.uncaught + e.count ∧
      Returned t.data.memory t'.data.memory) ∧
    (program.Tame heap → ∃ e t', program.exec heap t = some (e, t')) := by
  constructor
  · intro e t' he
    exact ⟨ScopeGuards.exec_balanced _ t e t' he, within_exec program t e t' he⟩
  · intro htame
    obtain ⟨e, t', he, -⟩ := survives_exec htame t
    exact ⟨e, t', he⟩

/-- The heap refuses every third block. -/
def everyThirdRefused : Heap ℕ ℕ where
  heapHandle := true
  heapAlloc m _ := if m.calls % 3 = 2 ∨ m.blocks m.calls ≠ none then none else some m.calls
  fresh h := by
    split at h
    · cases h
    · next hfree =>
      cases h
      exact not_not.mp fun hblock => hfree (.inr hblock)

/-- An object whose constructor throws within the scope of another one. -/
def constructorThrows : Program ℕ ℕ :=
  .unique 16 (fun _ => .effect id) (fun _ => .effect fun n => n + 1) fun _ =>
    .unique 8 (fun _ => .unique 8 (fun _ => .effect id) (fun _ => .effect id) fun _ => .throw_)
      (fun _ => .effect id) fun _ => .effect id

theorem scopes_give_back_constructorThrows : ∃ e t',
    constructorThrows.exec everyThirdRefused
      (ScopeGuards.start 0 ⟨fun _ => none, 0, 0, [], 0⟩) = some (e, t') ∧
      Returned ⟨fun _ => none, 0, 0, [], 0⟩ t'.data.memory := by
  have hquiet (f : ℕ → ℕ) : Quiet ((Program.effect f).exec everyThirdRefused) := by
    intro t
    simp only [Program.exec, Program.expand, ScopeGuards.Program.exec]
    exact Code.ends_effect rfl
  have hrun := scopes_give_back everyThirdRefused constructorThrows
    (ScopeGuards.start 0 ⟨fun _ => none, 0, 0, [], 0⟩)
  obtain ⟨e, t', he⟩ := hrun.2 ⟨fun _ => trivial, fun _ => ⟨trivial, hquiet _⟩, fun _ =>
    ⟨fun _ => ⟨fun _ => trivial, fun _ => ⟨trivial, hquiet _⟩, fun _ => trivial⟩,
      fun _ => ⟨trivial, hquiet _⟩, fun _ => trivial⟩⟩
  exact ⟨e, t', he, (hrun.1 e t' he).2⟩

end Garbage.WinHeap
