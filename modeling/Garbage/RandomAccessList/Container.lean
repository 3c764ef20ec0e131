import Garbage.RandomAccessList.AvlTreeStump
import Mathlib.Logic.Function.Basic

/-!
# The list

The members of `random_access_list`.  The first group needs the tree of its own
list only.  The second group, `assign`, `swap` and `splice`, needs two lists: it
works on a `World`, the memory and the trees of all list variables, which all
have equal allocators.

An iterator is the address of its node.  The items of a `boost::intrusive::list`
are given by their nodes, and its stable `sort` is the one of `List`.
`iteratorAt pos` is how a caller comes to an iterator: `begin()` and `pos`
increments.
-/

namespace Garbage.RandomAccessList

open Foundation (Prog Side)
open Foundation.Prog

namespace Container

open AvlTreeStump

variable {α ε β : Type}

/-! ### Iterators -/

def begin_ : Prog (Tree α) ε Ptr := read fun this => this.stump.begin_

def end_ : Prog (Tree α) ε Ptr := do
  let this ← Prog.get
  pure this.stump.end_

/-- `operator++`. -/
def increment (current : Ptr) : Prog (Tree α) ε Ptr := do
  match ← forward current with
  | none => end_
  | some next => pure next

def incrementBy : Nat → Ptr → Prog (Tree α) ε Ptr
  | 0, current => pure current
  | n + 1, current => do
    let next ← increment current
    incrementBy n next

def iteratorAt (pos : Nat) : Prog (Tree α) ε Ptr := do
  let first ← begin_
  incrementBy pos first

/-- `operator*`. -/
def dereference (current : Ptr) : Prog (Tree α) ε α :=
  read fun this => if current ∈ this.heap.live then (this.heap.node current).value else none

/-! ### One list -/

/-- `size()`, without the two gap nodes. -/
def size : Prog (Tree α) ε Nat := do
  let avlTreeSize ← AvlTreeStump.size
  pure (avlTreeSize - 2)

/-- `emplace` and `insert` of one element, and with them the `push` functions. -/
def emplace (alloc : Allocator) (it : Ptr) (value : α) : Prog (Tree α) ε Ptr := do
  let node ← makeNode alloc value
  insertBefore (some it) node

def pushBack (alloc : Allocator) (value : α) : Prog (Tree α) ε Ptr := do
  let it ← end_
  emplace alloc it value

/-- `insert(pos, first, last)`; the range is given by its values. -/
def insertRange (alloc : Allocator) (pos : Ptr) (values : List α) : Prog (Tree α) ε Ptr := do
  let constructedNodes ← makeNodes alloc values
  insertNodesFromListAndReturnFirstInserted constructedNodes pos

/-- `insert(pos, count, value)`. -/
def insertCount (alloc : Allocator) (pos : Ptr) (count : Nat) (value : α) :
    Prog (Tree α) ε Ptr := do
  let constructedNodes ← makeNodes alloc (List.replicate count value)
  insertNodesFromListAndReturnFirstInserted constructedNodes pos

def clear : Prog (Tree α) ε PUnit := destructValueAndDeleteNodeSinceBeginToBeforeEnd

def erase (pos : Ptr) : Prog (Tree α) ε (Option Ptr) := deleteAndGetNext (some pos) true true

/-- `erase(first, last)`. -/
def eraseRange (first last : Ptr) : Prog (Tree α) ε Ptr := do
  deleteUpTo (some first) last
  pure last

def reverse : Prog (Tree α) ε PUnit := do
  let nodes ← moveNodes
  let pos ← begin_
  let _ ← insertNodesFromListAndReturnFirstInserted nodes.reverse pos
  pure PUnit.unit

/-- The comparison of two nodes by their values. -/
def lessAt (comp : α → α → Bool) (heap : Heap α) (a b : Ptr) : Bool :=
  match (heap.node a).value, (heap.node b).value with
  | some x, some y => comp x y
  | _, _ => false

def sort (comp : α → α → Bool) : Prog (Tree α) ε PUnit := do
  let nodes ← moveNodes
  let this ← Prog.get
  let sorted := nodes.mergeSort fun a b => !lessAt comp this.heap b a
  let pos ← begin_
  let _ ← insertNodesFromListAndReturnFirstInserted sorted pos
  pure PUnit.unit

def unique (p : α → α → Bool) : Prog (Tree α) ε PUnit := do
  let current ← begin_
  let checked ← begin_
  let last ← end_
  if checked = last then pure PUnit.unit
  else do
    let checked ← increment checked
    rounds (fun s : Ptr × Ptr =>
      if s.2 = last then pure (.inr PUnit.unit)
      else do
        let checkedValue ← dereference s.2
        let currentValue ← dereference s.1
        if p checkedValue currentValue then do
          match ← erase s.2 with
          | none => stuck
          | some checked => pure (.inl (s.1, checked))
        else do
          let checked ← increment s.2
          let current ← increment s.1
          pure (.inl (current, checked))) (current, checked)

/-- The loop of `assign`. -/
def pushBackAll (alloc : Allocator) : List α → Prog (Tree α) ε PUnit
  | [] => pure PUnit.unit
  | value :: values => do
    let _ ← pushBack alloc value
    pushBackAll alloc values

end Container

/-! ### Several lists -/

/-- The memory and the trees of all list variables. -/
structure World (α : Type) where
  heap : Heap α
  lists : Nat → Option AvlTreeStump

namespace World

open AvlTreeStump

variable {α ε β : Type}

def onList (l : Nat) (x : Prog (Tree α) ε β) : Prog (World α) ε β := fun w =>
  match w.lists l with
  | none => none
  | some stump =>
    match x ⟨w.heap, stump⟩ with
    | none => none
    | some (r, t) => some (r, ⟨t.heap, Function.update w.lists l (some t.stump)⟩)

/-- A program on a tree that is no list variable; the tree is a part of the result. -/
def onTree (stump : AvlTreeStump) (x : Prog (Tree α) ε PUnit) : Prog (World α) ε AvlTreeStump :=
  fun w =>
    match x ⟨w.heap, stump⟩ with
    | none => none
    | some (.ok _, t) => some (.ok t.stump, ⟨t.heap, w.lists⟩)
    | some (.error e, t) => some (.error e, ⟨t.heap, w.lists⟩)

/-- The tree of a list variable. -/
def getList (l : Nat) : Prog (World α) ε AvlTreeStump := read fun w => w.lists l

/-- Give a list variable another tree, or none. -/
def setList (l : Nat) (o : Option AvlTreeStump) : Prog (World α) ε PUnit :=
  Prog.modify fun w => { w with lists := Function.update w.lists l o }

/-- What the members of a tree are before its constructor runs. -/
def unconstructed : AvlTreeStump := { beforeBegin := 0, begin_ := none, end_ := 0, root := none }

/-- The constructor of an empty list. -/
def create (alloc : Allocator) (l : Nat) : Prog (World α) ε PUnit := do
  let stump ← onTree unconstructed (construct alloc)
  setList l (some stump)

def destroy (l : Nat) : Prog (World α) ε PUnit := do
  let stump ← getList l
  let _ ← onTree stump destruct
  setList l none

/-- `assign`: fill a temporary list, swap it with this one, and destroy it. -/
def assign (alloc : Allocator) (l : Nat) (values : List α) : Prog (World α) ε PUnit := do
  let tmp ← onTree unconstructed do
    construct alloc
    Container.pushBackAll alloc values
  let this ← getList l
  setList l (some tmp)
  let _ ← onTree this destruct
  pure PUnit.unit

/-- `assign(count, value)`. -/
def assignCount (alloc : Allocator) (l count : Nat) (value : α) : Prog (World α) ε PUnit :=
  assign alloc l (List.replicate count value)

def swap (l other : Nat) : Prog (World α) ε PUnit := do
  let this ← getList l
  let that ← getList other
  setList l (some that)
  setList other (some this)

def splice (l : Nat) (pos : Ptr) (other : Nat) : Prog (World α) ε PUnit := do
  let nodes ← onList other moveNodes
  let _ ← onList l (insertNodesFromListAndReturnFirstInserted nodes pos)
  pure PUnit.unit

/-- `splice(pos, other, first, last)`. -/
def spliceRange (l : Nat) (pos : Ptr) (other : Nat) (first last : Ptr) :
    Prog (World α) ε PUnit := do
  let nodes ← onList other (moveNodesRange first last)
  let _ ← onList l (insertNodesFromListAndReturnFirstInserted nodes pos)
  pure PUnit.unit

end World

end Garbage.RandomAccessList
