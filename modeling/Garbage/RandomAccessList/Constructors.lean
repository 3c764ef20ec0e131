import Garbage.RandomAccessList.Assignment

/-!
# The constructors of the list

A constructor makes the implementation and, if it has elements to put in, calls
`assign`, which makes another one.  If `assign` throws, the member `_implementation`
is destroyed, and the object is there.  So a constructor that fails leaves nothing,
unless what fails is the allocation of a gap node (`construction_safe_iff`).
-/

namespace Garbage.RandomAccessList

open Foundation (Prog Machine Execution)
open Foundation.Prog
open Foundation.Execution

variable {α : Type}

/-- The constructors: the default one and the one of an allocator; those that call
`assign`, the copy constructors among them; and the move constructors. -/
inductive Constructor (α : Type) where
  | empty
  | filled (asg : Assignment α)
  | moved (other : Ptr)

namespace Constructor

/-- The program of a constructor: the pointer of the new list.  After a move it is the
one of the other list, which gets the new one. -/
def exec (this : Implementation α Thrown) (alloc blockAlloc : Allocator) (valueType : α) :
    Constructor α → Prog (Execution (Memory α)) Thrown Ptr
  | empty => Throwing.makeImplementation this alloc blockAlloc
  | filled asg => do
    let impl ← Throwing.makeImplementation this alloc blockAlloc
    onUnwind (Throwing.assign this alloc blockAlloc valueType impl asg)
      (Throwing.deleteImplementation this impl)
  | moved other => do
    let _ ← Throwing.makeImplementation this alloc blockAlloc
    pure other

def Valid (valueType : α) (h : Heap α) : Constructor α → Prop
  | filled asg => ∃ vs, asg.Gives valueType h vs
  | _ => True

/-- Which of the operations that may throw are the allocations of gap nodes.  The
first three of a constructor, and the next three if it calls `assign`, allocate a
block and two gap nodes. -/
def gapNodes : Constructor α → List Nat
  | filled _ => [1, 2, 4, 5]
  | _ => [1, 2]

end Constructor

/-- If operation `k` throws, with no other exception propagating, then so does the
constructor, and leaves everything as before.  It returns only without coming to that
operation. -/
def FailsSafely (x : Prog (Execution (Memory α)) Thrown Ptr) (k : Nat) (m : Memory α) : Prop :=
  wp x (fun _ t' => Continues (⟨0, some k, m⟩ : Execution (Memory α)) t')
    (fun _ t' => Raised (⟨0, some k, m⟩ : Execution (Memory α)) t' ∧ Restored m t'.data)
    ⟨0, some k, m⟩

/-! ### Failing with `assign` -/

variable {this : Implementation α Thrown} {alloc : Allocator} {valueType : α} {vs : List α}
  {asg : Assignment α} {m : Memory α} {k : Nat}

theorem Assignment.Gives.grown {h h' : Heap α} {S : List Ptr} (hg : asg.Gives valueType h vs)
    (hG : Grown S h h') : asg.Gives valueType h' vs := by
  cases asg with
  | count n => exact hg
  | countValue n value =>
    obtain ⟨v, rfl, hv⟩ := hg
    exact ⟨v, rfl, hv.grown hG⟩
  | range cursor => exact Cursor.Gives.grown hg hG

theorem WithList.of_restored {b : Ptr} {stump : AvlTreeStump} {cells : List (Cell α)}
    {m' m'' : Memory α} (hW : WithList b stump cells m m') (hM : Restored m' m'') :
    WithList b stump cells m m'' :=
  ⟨hW.fresh, (hM.blocks b).trans hW.object,
    fun b' hb' => (hM.blocks b').trans (hW.blocks b' hb'), hW.list.kept hM.heap⟩

namespace Constructor

variable {t : Execution (Memory α)} {ctor : Constructor α}

/-- A constructor that does not get a gap node. -/
theorem not_wp_exec (w : Nat) (alloc blockAlloc : Allocator)
    {Q : Ptr → Execution (Memory α) → Prop} {E : Thrown → Execution (Memory α) → Prop}
    (hu : t.uncaught = 0) (hk : k ∈ ctor.gapNodes) (hfail : t.failAt = some k) :
    ¬ wp (ctor.exec (released w) alloc blockAlloc valueType) Q E t := by
  have hfirst : k = 1 ∨ k = 2 → ∀ {Q : Ptr → Execution (Memory α) → Prop},
      ¬ wp (Throwing.makeImplementation (released w) alloc blockAlloc) Q E t :=
    fun h _ => Throwing.not_wp_makeImplementation blockAlloc hu (by
      rw [hfail, Option.some.injEq, Option.some.injEq]
      exact h)
  cases ctor with
  | empty => exact hfirst (by simpa [gapNodes] using hk)
  | moved other =>
    unfold exec
    rw [wp_bind]
    exact hfirst (by simpa [gapNodes] using hk)
  | filled asg =>
    have hks : (k = 1 ∨ k = 2) ∨ k = 1 + 3 ∨ k = 2 + 3 := by
      simp only [gapNodes, List.mem_cons, List.not_mem_nil, or_false] at hk
      omega
    unfold exec
    rcases hks with hk | hk
    · rw [wp_bind]
      exact hfirst hk
    · have hne : ∀ i < 3, t.failAt ≠ some i := fun i hi => by
        rw [hfail]
        exact fun h => by
          cases h
          omega
      refine not_wp_bind (Throwing.wp_makeImplementation blockAlloc hu (hne 1 (by decide))
        (hne 2 (by decide)) (fun b stump t' _ hpass _ => ?_)
        fun _ _ h0 _ _ => hne 0 (by decide) h0)
      rw [wp_onUnwind]
      refine Throwing.not_wp_assign alloc blockAlloc (hpass.uncaught.trans hu) ?_
      rw [hpass.failAt_iff hne, hpass.failAt_iff hne, hfail, Option.some.injEq, Option.some.injEq]
      exact hk

theorem alive_of_withList {b : Ptr} {stump : AvlTreeStump} {news : List (Cell α)}
    {m' : Memory α} (hW : WithList b stump news m m') (halive : m.world.Alive) :
    m'.world.Alive := by
  obtain ⟨e, hw⟩ := halive
  exact ⟨_, hW.world_holds hw⟩

/-- A constructor that calls `assign`. -/
theorem wp_exec_filled (w : Nat) (alloc blockAlloc : Allocator) (hu : t.uncaught = 0)
    (h : ∀ k ∈ (filled asg).gapNodes, t.failAt ≠ some k)
    (hg : asg.Gives valueType t.data.heap vs) :
    wp ((filled asg).exec (released w) alloc blockAlloc valueType)
      (fun _ t' => Continues t t' ∧ (t.data.world.Alive → t'.data.world.Alive))
      (fun _ t' => Raised t t' ∧ Restored t.data t'.data) t := by
  have h1 := h 1 (by simp [gapNodes])
  have h2 := h 2 (by simp [gapNodes])
  unfold exec
  rw [wp_bind]
  refine Throwing.wp_makeImplementation blockAlloc hu h1 h2
    (fun impl stump t₁ h0 hpass hW => ?_) fun _ _ _ hR hM => ⟨hR, hM⟩
  have hne : ∀ i < 3, t.failAt ≠ some i := fun
    | 0, _ => h0
    | 1, _ => h1
    | 2, _ => h2
  have hcont := hpass.continues
  rw [wp_onUnwind]
  refine wp_mono ?_ ?_ (Throwing.wp_assign w alloc blockAlloc (hcont.uncaught.trans hu)
    (fun h4 => h 4 (by simp [gapNodes]) ((hpass.failAt_iff hne 1).mp h4))
    (fun h5 => h 5 (by simp [gapNodes]) ((hpass.failAt_iff hne 2).mp h5))
    hW.object hW.list.holds (hg.grown hW.list.grown))
  · rintro b t₂ ⟨hcont₂, m, stump', news, -, hW', hD⟩
    refine ⟨hcont.trans hcont₂, fun ⟨e, hw⟩ => ?_⟩
    have hne' : impl ≠ b := fun he =>
      hW'.fresh (he ▸ AList.lookup_isSome.mp (by rw [hW.object]; rfl))
    exact ⟨_, hD.world_holds (hW'.world_holds (hW.world_holds hw))
      ((Function.update_of_ne hne' _ _).trans (Function.update_self ..))⟩
  · rintro e t₂ ⟨hR, hM⟩
    have hW₂ := hW.of_restored hM
    refine Throwing.wp_deleteImplementation w hW₂.object hW₂.list.holds fun t₃ hcont₃ hD => ?_
    exact ⟨hcont.raised (hR.continues hcont₃), hW₂.restored hD⟩

/-- **A constructor** goes through, or leaves everything as it was. -/
theorem wp_exec (w : Nat) (alloc blockAlloc : Allocator) (hu : t.uncaught = 0)
    (h : ∀ k ∈ ctor.gapNodes, t.failAt ≠ some k) (hv : ctor.Valid valueType t.data.heap) :
    wp (ctor.exec (released w) alloc blockAlloc valueType)
      (fun _ t' => Continues t t' ∧ (t.data.world.Alive → t'.data.world.Alive))
      (fun _ t' => Raised t t' ∧ Restored t.data t'.data) t := by
  cases ctor with
  | empty =>
    exact Throwing.wp_makeImplementation blockAlloc hu (h 1 (by simp [gapNodes]))
      (h 2 (by simp [gapNodes])) (fun _ _ _ _ hpass hW => ⟨hpass.continues, alive_of_withList hW⟩)
      fun _ _ _ hR hM => ⟨hR, hM⟩
  | filled asg =>
    obtain ⟨vs, hg⟩ := hv
    exact wp_exec_filled w alloc blockAlloc hu h hg
  | moved other =>
    unfold exec
    rw [wp_bind]
    exact Throwing.wp_makeImplementation blockAlloc hu (h 1 (by simp [gapNodes]))
      (h 2 (by simp [gapNodes])) (fun _ _ _ _ hpass hW => ⟨hpass.continues, alive_of_withList hW⟩)
      fun _ _ _ hR hM => ⟨hR, hM⟩

end Constructor

/-- **When a constructor fails safely.**  For every memory, every constructor with
valid arguments and every operation that throws, with no other exception propagating:
the exception of an operation that takes place leaves the constructor, everything that
was made was destroyed and given back once, and no destructor ran on an object that was
not constructed, if and only if the operation is not the allocation of a gap node. -/
theorem construction_safe_iff (w : Nat) (alloc blockAlloc : Allocator) (valueType : α)
    {m : Memory α} {ctor : Constructor α} (hv : ctor.Valid valueType m.heap) (k : Nat) :
    FailsSafely (ctor.exec (released w) alloc blockAlloc valueType) k m ↔ k ∉ ctor.gapNodes := by
  constructor
  · intro hsafe hk
    unfold FailsSafely at hsafe
    exact ctor.not_wp_exec w alloc blockAlloc rfl hk rfl hsafe
  · intro hk
    have hne : ∀ i ∈ ctor.gapNodes, (some k : Option Nat) ≠ some i :=
      fun i hi hki => hk (Option.some.inj hki ▸ hi)
    have hexec := Constructor.wp_exec (t := ⟨0, some k, m⟩) w alloc blockAlloc rfl hne hv
    exact wp_mono (fun _ _ h => h.1) (fun _ _ h => h) hexec

/-- The memory before the first list. -/
def emptyMemory : Memory Nat := ⟨emptyHeap Nat, ∅, 0⟩

/-- The block of the list that `assign` makes is not allocated: the exception leaves the
constructor, and what it made is given back. -/
theorem construction_safe_iff_block :
    3 ∉ (Constructor.filled (.countValue 1 (.value 5)) : Constructor Nat).gapNodes ∧
    FailsSafely ((Constructor.filled (.countValue 1 (.value 5))).exec (released 64) bumpAllocator
        bumpAllocator 0) 3 emptyMemory := by
  have hk : 3 ∉ (Constructor.filled (.countValue 1 (.value 5)) : Constructor Nat).gapNodes := by
    decide
  have hv : (Constructor.filled (.countValue 1 (.value 5))).Valid 0 emptyMemory.heap :=
    ⟨[5], 5, rfl, rfl⟩
  refine ⟨hk, ?_⟩
  rw [construction_safe_iff 64 bumpAllocator bumpAllocator 0 hv 3]
  exact hk

/-- The default constructor does not survive that `before_begin` is not allocated. -/
theorem default_construction_not_safe :
    ¬ FailsSafely (Constructor.empty.exec (released 64) bumpAllocator bumpAllocator 0) 1
      emptyMemory :=
  Throwing.not_wp_makeImplementation bumpAllocator rfl (.inl rfl)

end Garbage.RandomAccessList
