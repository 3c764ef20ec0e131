import Garbage.RandomAccessList.Constructors

/-!
# The strong guarantee

An insertion makes its nodes on the side and links them last.  `assign` makes another
list, and this one is given up last.  So up to that point nothing of the list is
touched, the values may come from the list itself, and an exception leaves everything
as it was.

The one thing that is wrong is in `makeImplementation`: where the allocation of a gap
node of the list that `assign` makes throws, an object that is not there is destroyed
(`strong_guarantee_iff`).  Insertions make no list, and have the guarantee without
exception.

`Arises` are the states of a program that may throw: by the calls of `calls`, which do
not throw here, by constructors and by operations with the guarantee, each of which
may throw at any point.
-/

namespace Garbage.RandomAccessList

open Foundation (Prog Machine Execution)
open Foundation.Prog
open Foundation.Execution

variable {α β : Type}

/-- The operations with the guarantee: insertions before a position, and assignments. -/
inductive Operation (α : Type) where
  | insert (pos : Nat) (ins : Insertion α)
  | assign (asg : Assignment α)

namespace Operation

/-- The program of an operation on the list in block `b`, whose tree is `s`. -/
def exec (this : Implementation α Thrown) (alloc blockAlloc : Allocator) (valueType : α) (b : Ptr)
    (s : Tree α) : Operation α → Prog (Execution (Memory α)) Thrown Ptr
  | insert pos ins => Throwing.onObject b (ins.exec this alloc (s.iteratorTo pos))
  | assign asg => Throwing.assign this alloc blockAlloc valueType b asg

/-- The arguments are valid, and denote the values `vs`. -/
def Valid (valueType : α) (b : Ptr) (m : Memory α) (vs : List α) : Operation α → Prop
  | insert pos ins => pos ≤ (m.world.elements b).length ∧ ins.Gives m.heap vs
  | assign asg => asg.Gives valueType m.heap vs

def Done (b : Ptr) (stump : AvlTreeStump) (vs : List α) (m : Memory α) :
    Operation α → Ptr → Memory α → Prop
  | insert pos _ => PutIn b pos stump vs m
  | assign _ => Assigned b vs m

/-- Which of the operations that may throw are the allocations of gap nodes. -/
def gapNodes : Operation α → List Nat
  | insert _ _ => []
  | assign _ => [1, 2]

end Operation

/-- The strong guarantee: the program returns with `Done`, or it throws and leaves
everything as it was. -/
def Strong (x : Prog (Execution (Memory α)) Thrown β) (Done : β → Memory α → Prop)
    (failAt : Option Nat) (m : Memory α) : Prop :=
  wp x (fun r t' => Continues (⟨0, failAt, m⟩ : Execution (Memory α)) t' ∧ Done r t'.data)
    (fun _ t' => Raised (⟨0, failAt, m⟩ : Execution (Memory α)) t' ∧ Restored m t'.data)
    ⟨0, failAt, m⟩

/-! ### What a program reaches -/

section Reached

variable (w : Nat) (alloc blockAlloc : Allocator) (valueType : α)

/-- One call, which returns or throws, at any point. -/
inductive Step : Memory α → Memory α → Prop
  | call {m m' : Memory α} (call : Call α) :
    (calls w alloc).next m.world call = some m'.world → Step m m'
  | construction {m : Memory α} {t' : Execution (Memory α)} {r : Except Thrown Ptr}
    (ctor : Constructor α) (failAt : Option Nat) : ctor.Valid valueType m.heap →
    ctor.exec (released w) alloc blockAlloc valueType ⟨0, failAt, m⟩ = some (r, t') →
    Step m t'.data
  | operation {m : Memory α} {t' : Execution (Memory α)} {r : Except Thrown Ptr} {b : Ptr}
    {stump : AvlTreeStump} {vs : List α} (op : Operation α) (failAt : Option Nat) :
    m.blocks.lookup b = some (some stump) → op.Valid valueType b m vs →
    op.exec (released w) alloc blockAlloc valueType b ⟨m.heap, stump⟩ ⟨0, failAt, m⟩ =
      some (r, t') →
    Step m t'.data

/-- The memories that a program with such lists reaches. -/
inductive Arises : Memory α → Prop
  | start {m : Memory α} : (∀ b, m.world.lists b = none) → Arises m
  | step {m m' : Memory α} : Arises m → Step w alloc blockAlloc valueType m m' → Arises m'

end Reached

variable {w : Nat} {alloc blockAlloc : Allocator} {valueType : α} {m m' : Memory α}
  {t : Execution (Memory α)} {b : Ptr} {stump : AvlTreeStump} {vs : List α} {op : Operation α}

theorem Restored.alive (hM : Restored m m') (halive : m.world.Alive) : m'.world.Alive := by
  obtain ⟨e, hw⟩ := halive
  exact ⟨e, hM.world_holds hw⟩

namespace Operation

/-- An operation that does not get a gap node. -/
theorem not_wp_exec (w : Nat) (alloc blockAlloc : Allocator) {s : Tree α} {k : Nat}
    {Q : Ptr → Execution (Memory α) → Prop} {E : Thrown → Execution (Memory α) → Prop}
    (hu : t.uncaught = 0) (hk : k ∈ op.gapNodes) (hfail : t.failAt = some k) :
    ¬ wp (op.exec (released w) alloc blockAlloc valueType b s) Q E t := by
  cases op with
  | insert pos ins => exact absurd hk List.not_mem_nil
  | assign asg =>
    refine Throwing.not_wp_assign alloc blockAlloc hu ?_
    rw [hfail, Option.some.injEq, Option.some.injEq]
    exact List.mem_pair.mp hk

/-- **An operation** does what it is for, or leaves everything as it was. -/
theorem wp_exec (w : Nat) (alloc blockAlloc : Allocator) (hu : t.uncaught = 0)
    (h : ∀ k ∈ op.gapNodes, t.failAt ≠ some k) (halive : t.data.world.Alive)
    (hb : t.data.blocks.lookup b = some (some stump)) (hv : op.Valid valueType b t.data vs) :
    wp (op.exec (released w) alloc blockAlloc valueType b ⟨t.data.heap, stump⟩)
      (fun r t' => Continues t t' ∧ op.Done b stump vs t.data r t'.data ∧ t'.data.world.Alive)
      (fun _ t' => Raised t t' ∧ Restored t.data t'.data) t := by
  obtain ⟨e, hw⟩ := halive
  cases op with
  | insert pos ins => exact ins.wp_onObject (released_sound w) hu hw hb hv.1 hv.2
  | assign asg =>
    exact wp_assign_elements w alloc blockAlloc hu (h 1 (by simp [gapNodes]))
      (h 2 (by simp [gapNodes])) hw hb hv

end Operation

theorem Step.alive (hs : Step w alloc blockAlloc valueType m m') (halive : m.world.Alive) :
    m'.world.Alive := by
  cases hs with
  | call call hn => exact Call.alive_of_next hn halive
  | @construction t' r ctor failAt hv hx =>
    have hgaps : ∀ k ∈ ctor.gapNodes, failAt ≠ some k := fun k hk hfail =>
      ctor.not_wp_exec w alloc blockAlloc rfl hk hfail (wp_of_outcome hx)
    refine wp.of_outcome (P := fun t' => t'.data.world.Alive) (wp_mono ?_ ?_
      (Constructor.wp_exec (t := ⟨0, failAt, m⟩) w alloc blockAlloc rfl hgaps hv)) hx
    · exact fun _ _ h => h.2 halive
    · exact fun _ _ h => h.2.alive halive
  | @operation t' r b stump vs op failAt hb hv hx =>
    have hgaps : ∀ k ∈ op.gapNodes, failAt ≠ some k := fun k hk hfail =>
      op.not_wp_exec w alloc blockAlloc rfl hk hfail (wp_of_outcome hx)
    refine wp.of_outcome (P := fun t' => t'.data.world.Alive) (wp_mono ?_ ?_
      (Operation.wp_exec (t := ⟨0, failAt, m⟩) w alloc blockAlloc rfl hgaps halive hb hv)) hx
    · exact fun _ _ h => h.2.2
    · exact fun _ _ h => h.2.alive halive

/-- In every memory that a program reaches, the lists hold elements. -/
theorem Arises.alive (h : Arises w alloc blockAlloc valueType m) : m.world.Alive := by
  induction h with
  | @start m hinit =>
    have hempty : (machine alloc).init m.world := hinit
    exact ⟨_, World.holds_of_init hempty⟩
  | step _ hs ih => exact hs.alive ih

/-- **When insertions and assignments have the strong guarantee.**  For every list
that a program reaches, every insertion and assignment with valid arguments, from the
list itself too, and every point at which an operation throws or none, with no other
exception propagating: the values are put in, or an exception leaves everything as it
was, if and only if the operation that throws is not the allocation of a gap node. -/
theorem strong_guarantee_iff (h : Arises w alloc blockAlloc valueType m)
    (hb : m.blocks.lookup b = some (some stump)) (hv : op.Valid valueType b m vs)
    (failAt : Option Nat) :
    Strong (op.exec (released w) alloc blockAlloc valueType b ⟨m.heap, stump⟩)
      (op.Done b stump vs m) failAt m ↔ ∀ k ∈ op.gapNodes, failAt ≠ some k := by
  constructor
  · exact fun hstrong k hk hfail => op.not_wp_exec w alloc blockAlloc rfl hk hfail hstrong
  · intro hgaps
    refine (Operation.wp_exec (t := ⟨0, failAt, m⟩) w alloc blockAlloc rfl hgaps h.alive hb
      hv).imp ?_
    exact fun r t' ⟨hcont, hdone, _⟩ => ⟨hcont, hdone⟩

theorem exists_constructed : ∃ (t : Execution (Memory Nat)) (b : Ptr) (stump : AvlTreeStump),
    (Constructor.filled (.countValue 1 (.value 5))).exec (released 64) bumpAllocator bumpAllocator
      0 ⟨0, none, emptyMemory⟩ = some (.ok b, t) ∧
    t.data.blocks.lookup b = some (some stump) ∧
    Arises 64 bumpAllocator bumpAllocator 0 t.data := by
  have hrun : ((Constructor.filled (.countValue 1 (.value 5))).exec (released 64) bumpAllocator
      bumpAllocator 0 ⟨0, none, emptyMemory⟩).any (fun r => r.1.toOption.any fun b =>
        (r.2.data.blocks.lookup b).join.isSome) = true := by decide +kernel
  obtain ⟨⟨r | b, t⟩, hx, hb⟩ := (Option.any_eq_true _ _).mp hrun
  · cases hb
  · obtain ⟨stump, hstump⟩ := Option.isSome_iff_exists.mp hb
    have hv : (Constructor.filled (.countValue 1 (.value 5))).Valid 0 emptyMemory.heap :=
      ⟨[5], 5, rfl, rfl⟩
    exact ⟨t, b, stump, hx, Option.join_eq_some_iff.mp hstump,
      .step (.start fun _ => rfl) (.construction _ none hv hx)⟩

/-- The rule for an assignment where the block of the other list is not allocated. -/
theorem strong_guarantee_iff_block : ∃ (t : Execution (Memory Nat)) (b : Ptr)
    (stump : AvlTreeStump),
    (Constructor.filled (.countValue 1 (.value 5))).exec (released 64) bumpAllocator bumpAllocator
      0 ⟨0, none, emptyMemory⟩ = some (.ok b, t) ∧
    t.data.blocks.lookup b = some (some stump) ∧
    (Strong ((Operation.assign (.countValue 2 (.value 7))).exec (released 64) bumpAllocator
        bumpAllocator 0 b ⟨t.data.heap, stump⟩)
      ((Operation.assign (.countValue 2 (.value 7))).Done b stump [7, 7] t.data) (some 0) t.data ↔
      ∀ k ∈ (Operation.assign (.countValue 2 (.value 7)) : Operation Nat).gapNodes,
        (some 0 : Option Nat) ≠ some k) := by
  obtain ⟨t, b, stump, hx, hb, h⟩ := exists_constructed
  have hv : (Operation.assign (.countValue 2 (.value 7))).Valid 0 b t.data [7, 7] :=
    ⟨7, rfl, rfl⟩
  exact ⟨t, b, stump, hx, hb, strong_guarantee_iff h hb hv (some 0)⟩

/-- An assignment to a list of one element does not survive that the first gap node of
the other list is not allocated. -/
theorem assign_not_strong : ∃ (t : Execution (Memory Nat)) (b : Ptr) (stump : AvlTreeStump),
    (Constructor.filled (.countValue 1 (.value 5))).exec (released 64) bumpAllocator bumpAllocator
      0 ⟨0, none, emptyMemory⟩ = some (.ok b, t) ∧
    t.data.blocks.lookup b = some (some stump) ∧
    ¬ Strong ((Operation.assign (.countValue 2 (.value 7))).exec (released 64) bumpAllocator
        bumpAllocator 0 b ⟨t.data.heap, stump⟩)
      ((Operation.assign (.countValue 2 (.value 7))).Done b stump [7, 7] t.data) (some 1)
      t.data := by
  obtain ⟨t, b, stump, hx, hb, -⟩ := exists_constructed
  exact ⟨t, b, stump, hx, hb, Operation.not_wp_exec 64 bumpAllocator bumpAllocator rfl
    List.mem_cons_self rfl⟩

end Garbage.RandomAccessList
