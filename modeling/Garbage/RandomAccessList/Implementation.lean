import Garbage.RandomAccessList.Asserted
import Garbage.RandomAccessList.Operations

/-!
# The list over its implementation

`random_access_list` calls its tree through the public members of
`avl_tree_stump`.  An `Implementation` is these members, and there are two:
`released`, where an `ASSERT` does nothing, and `asserted`, where it counts.
Here the members of the list are programs over an implementation.  Over
`released` those that are in `Container` and `World` already are the same
programs again.

A reference to a value is the address of its node, so `front`, `back` and the
access by index return an address.  `removeIf` is what a call does in its first
rounds, as it need not end.
-/

namespace Garbage.RandomAccessList

open Foundation (Prog Side)
open Foundation.Prog
open AvlTreeStump (makeNode makeNodes)

/-- The public members of `avl_tree_stump`, those that neither assert nor call
a member that does left out. -/
structure Implementation (α ε : Type) where
  getBegin : Prog (Tree α) ε Ptr
  forward : Ptr → Prog (Tree α) ε (Option Ptr)
  backward : Ptr → Prog (Tree α) ε (Option Ptr)
  goTo : Ptr → Int → Prog (Tree α) ε (Option Ptr)
  distance : Ptr → Ptr → Prog (Tree α) ε Int
  getByIndex : Nat → Prog (Tree α) ε (Option Ptr)
  insertBefore : Ptr → Ptr → Prog (Tree α) ε Ptr
  deleteAndGetNext : Option Ptr → Prog (Tree α) ε (Option Ptr)
  destructValueAndDeleteNodeSinceBeginToBeforeEnd : Prog (Tree α) ε PUnit
  moveNodes : Prog (Tree α) ε (List Ptr)
  moveNodesRange : Ptr → Ptr → Prog (Tree α) ε (List Ptr)
  selfCheckIfConstructed : Prog (Tree α) ε PUnit
  construct : Allocator → Prog (Tree α) ε PUnit
  destruct : Prog (Tree α) ε PUnit

variable {α ε : Type}

open AvlTreeStump in
/-- The members without their assertions, with a `size_type` of `w` bits. -/
def released (w : Nat) : Implementation α ε where
  getBegin := Container.begin_
  forward := forward
  backward := backward
  goTo := goTo w
  distance := distance w
  getByIndex := getByIndex
  insertBefore it := insertBefore (some it)
  deleteAndGetNext node := deleteAndGetNext node true true
  destructValueAndDeleteNodeSinceBeginToBeforeEnd := destructValueAndDeleteNodeSinceBeginToBeforeEnd
  moveNodes := moveNodes
  moveNodesRange := moveNodesRange
  selfCheckIfConstructed := selfCheckIfConstructed
  construct := construct
  destruct := destruct

open AvlTreeStump.Asserted in
def asserted (w : Nat) : Implementation α Assertion where
  getBegin := getBegin
  forward node := forward (some node)
  backward node := backward (some node)
  goTo := goTo w
  distance := distance w
  getByIndex := getByIndex
  insertBefore it := insertBefore (some it)
  deleteAndGetNext node := deleteAndGetNext node true true
  destructValueAndDeleteNodeSinceBeginToBeforeEnd := destructValueAndDeleteNodeSinceBeginToBeforeEnd
  moveNodes := moveNodes
  moveNodesRange := moveNodesRange
  selfCheckIfConstructed := selfCheckIfConstructed
  construct := construct
  destruct := destruct

namespace Implementation

variable (this : Implementation α ε) (alloc : Allocator)

/-! ### Iterators -/

/-- `operator++`. -/
def increment (current : Ptr) : Prog (Tree α) ε Ptr := do
  match ← this.forward current with
  | none => Container.end_
  | some next => pure next

/-- `operator--`. -/
def decrement (current : Ptr) : Prog (Tree α) ε Ptr := do
  match ← this.backward current with
  | none => Container.end_
  | some previous => pure previous

/-- `operator+=` and `operator-=`. -/
def advance (current : Ptr) (iteratorIncrement : Int) : Prog (Tree α) ε Ptr := do
  match ← this.goTo current iteratorIncrement with
  | none => Container.end_
  | some node => pure node

def incrementBy : Nat → Ptr → Prog (Tree α) ε Ptr
  | 0, current => pure current
  | n + 1, current => do
    let next ← this.increment current
    incrementBy n next

def iteratorAt (pos : Nat) : Prog (Tree α) ε Ptr := do
  let first ← this.getBegin
  this.incrementBy pos first

/-! ### Access -/

def front : Prog (Tree α) ε Ptr := this.getBegin

def back : Prog (Tree α) ε Ptr := do
  let last ← Container.end_
  this.decrement last

/-- `operator[]`. -/
def index (pos : Nat) : Prog (Tree α) ε (Option Ptr) := this.getByIndex (pos + 1)

/-- `at`; `none` is the exception `out_of_range`. -/
def at_ (pos : Nat) : Prog (Tree α) ε (Option (Option Ptr)) := do
  let size ← Container.size
  if pos < size then pure none
  else do
    let result ← this.index pos
    pure (some result)

/-- A walk over all elements, the one of `hash_value`. -/
def traverse : Prog (Tree α) ε (List α) := do
  let first ← this.getBegin
  let last ← Container.end_
  rounds (fun s : Ptr × List α =>
    if s.1 = last then pure (.inr s.2)
    else do
      let value ← Container.dereference s.1
      let next ← this.increment s.1
      pure (.inl (next, s.2 ++ [value]))) (first, [])

/-! ### Insertion -/

def insertNodes (pos : Ptr) : List Ptr → Ptr → Bool → Prog (Tree α) ε Ptr
  | [], firstInserted, _ => pure firstInserted
  | node :: nodes, firstInserted, firstInsertedAlready => do
    let lastInserted ← this.insertBefore pos node
    if firstInsertedAlready then insertNodes pos nodes firstInserted firstInsertedAlready
    else insertNodes pos nodes lastInserted true

def insertNodesFromListAndReturnFirstInserted (nodes : List Ptr) (pos : Ptr) :
    Prog (Tree α) ε Ptr := this.insertNodes pos nodes pos false

def emplace (it : Ptr) (value : α) : Prog (Tree α) ε Ptr := do
  let node ← makeNode alloc value
  this.insertBefore it node

/-- `emplace_back` and `push_back`. -/
def emplaceBack (value : α) : Prog (Tree α) ε Ptr := do
  let it ← Container.end_
  this.emplace alloc it value

/-- `emplace_front` and `push_front`. -/
def emplaceFront (value : α) : Prog (Tree α) ε Ptr := do
  let it ← this.getBegin
  this.emplace alloc it value

def insertRange (pos : Ptr) (values : List α) : Prog (Tree α) ε Ptr := do
  let constructedNodes ← makeNodes alloc values
  this.insertNodesFromListAndReturnFirstInserted constructedNodes pos

def insertCount (pos : Ptr) (count : Nat) (value : α) : Prog (Tree α) ε Ptr := do
  let constructedNodes ← makeNodes alloc (List.replicate count value)
  this.insertNodesFromListAndReturnFirstInserted constructedNodes pos

/-! ### Erasure -/

def clear : Prog (Tree α) ε PUnit := this.destructValueAndDeleteNodeSinceBeginToBeforeEnd

def erase (pos : Ptr) : Prog (Tree α) ε (Option Ptr) := this.deleteAndGetNext (some pos)

def eraseRange (first last : Ptr) : Prog (Tree α) ε Ptr := do
  rounds (fun it =>
    if it = some last then pure (.inr PUnit.unit)
    else do
      let next ← this.deleteAndGetNext it
      pure (.inl next)) (some first)
  pure last

def popBack : Prog (Tree α) ε PUnit := do
  let last ← Container.end_
  let pos ← this.decrement last
  let _ ← this.erase pos
  pure PUnit.unit

def popFront : Prog (Tree α) ε PUnit := do
  let pos ← this.getBegin
  let _ ← this.erase pos
  pure PUnit.unit

/-- The loop of `resize`. -/
def popBackTimes : Nat → Prog (Tree α) ε PUnit
  | 0 => pure PUnit.unit
  | goingToDelete + 1 => do
    this.popBack
    popBackTimes goingToDelete

def resize (count : Nat) (value : α) : Prog (Tree α) ε PUnit := do
  let containerSize ← Container.size
  if count ≥ containerSize then do
    let pos ← this.getBegin
    let _ ← this.insertCount alloc pos (count - containerSize) value
    pure PUnit.unit
  else this.popBackTimes (containerSize - count)

/-- The first rounds of the loop of `remove_if`.  Only an erasure moves on. -/
def removeIfRounds (p : α → Bool) (end_ : Ptr) : Nat → Ptr → Prog (Tree α) ε PUnit
  | 0, _ => pure PUnit.unit
  | n + 1, current =>
    if current = end_ then pure PUnit.unit
    else do
      let value ← Container.dereference current
      if p value then do
        match ← this.erase current with
        | none => stuck
        | some current => removeIfRounds p end_ n current
      else removeIfRounds p end_ n current

/-- The first `n` rounds of `remove_if(p)`. -/
def removeIf (p : α → Bool) (n : Nat) : Prog (Tree α) ε PUnit := do
  let current ← this.getBegin
  let end_ ← Container.end_
  this.removeIfRounds p end_ n current

def unique (p : α → α → Bool) : Prog (Tree α) ε PUnit := do
  let current ← this.getBegin
  let checked ← this.getBegin
  let last ← Container.end_
  if checked = last then pure PUnit.unit
  else do
    let checked ← this.increment checked
    rounds (fun s : Ptr × Ptr =>
      if s.2 = last then pure (.inr PUnit.unit)
      else do
        let checkedValue ← Container.dereference s.2
        let currentValue ← Container.dereference s.1
        if p checkedValue currentValue then do
          match ← this.erase s.2 with
          | none => stuck
          | some checked => pure (.inl (s.1, checked))
        else do
          let checked ← this.increment s.2
          let current ← this.increment s.1
          pure (.inl (current, checked))) (current, checked)

/-! ### All elements -/

def reverse : Prog (Tree α) ε PUnit := do
  let nodes ← this.moveNodes
  let pos ← this.getBegin
  let _ ← this.insertNodesFromListAndReturnFirstInserted nodes.reverse pos
  pure PUnit.unit

def sort (comp : α → α → Bool) : Prog (Tree α) ε PUnit := do
  let nodes ← this.moveNodes
  let tree ← Prog.get
  let sorted := nodes.mergeSort fun a b => !Container.lessAt comp tree.heap b a
  let pos ← this.getBegin
  let _ ← this.insertNodesFromListAndReturnFirstInserted sorted pos
  pure PUnit.unit

/-- The loop of `assign(count, value)`. -/
def pushBackAll : List α → Prog (Tree α) ε PUnit
  | [] => pure PUnit.unit
  | value :: values => do
    let _ ← this.emplaceBack alloc value
    pushBackAll values

/-! ### Several lists -/

section World

open World (onList onTree getList setList unconstructed)

/-- The constructor of an empty list. -/
def create (l : Nat) : Prog (World α) ε PUnit := do
  let stump ← onTree unconstructed (this.construct alloc)
  setList l (some stump)

def destroy (l : Nat) : Prog (World α) ε PUnit := do
  let stump ← getList l
  let _ ← onTree stump this.destruct
  setList l none

/-- `assign`: `fill` a temporary list, swap it with this one, and destroy it. -/
def assignBy (l : Nat) (fill : Prog (Tree α) ε PUnit) : Prog (World α) ε PUnit := do
  let tmp ← onTree unconstructed do
    this.construct alloc
    fill
  let old ← getList l
  setList l (some tmp)
  let _ ← onTree old this.destruct
  pure PUnit.unit

/-- `assign(count, value)`, with the values given one by one. -/
def assign (l : Nat) (values : List α) : Prog (World α) ε PUnit :=
  this.assignBy alloc l (this.pushBackAll alloc values)

/-- `assign(first, last)`. -/
def assignRange (l : Nat) (values : List α) : Prog (World α) ε PUnit :=
  this.assignBy alloc l do
    let pos ← Container.end_
    let _ ← this.insertRange alloc pos values
    pure PUnit.unit

/-- The copy assignment: `assign(other.cbegin(), other.cend())`. -/
def copyAssign (l other : Nat) : Prog (World α) ε PUnit := do
  let values ← onList other this.traverse
  this.assignRange alloc l values

def splice (l : Nat) (pos : Ptr) (other : Nat) : Prog (World α) ε PUnit := do
  let nodes ← onList other this.moveNodes
  let _ ← onList l (this.insertNodesFromListAndReturnFirstInserted nodes pos)
  pure PUnit.unit

def spliceRange (l : Nat) (pos : Ptr) (other : Nat) (first last : Ptr) :
    Prog (World α) ε PUnit := do
  let nodes ← onList other (this.moveNodesRange first last)
  let _ ← onList l (this.insertNodesFromListAndReturnFirstInserted nodes pos)
  pure PUnit.unit

/-- `splice(pos, other, it)` goes up to the end of `other`. -/
def spliceFrom (l : Nat) (pos : Ptr) (other : Nat) (it : Ptr) : Prog (World α) ε PUnit := do
  let last ← onList other Container.end_
  this.spliceRange l pos other it last

def merge (l other : Nat) (comp : α → α → Bool) : Prog (World α) ε PUnit := do
  if l = other then pure PUnit.unit
  else do
    let nodes0 ← onList l this.moveNodes
    let nodes1 ← onList other this.moveNodes
    let world ← Prog.get
    let nodesMerged := nodes0.merge nodes1 fun a b => !Container.lessAt comp world.heap b a
    let pos ← onList l this.getBegin
    let _ ← onList l (this.insertNodesFromListAndReturnFirstInserted nodesMerged pos)
    pure PUnit.unit

/-- Walk over two lists side by side while `go` holds of the elements. -/
def walkBoth (l other : Nat) (go : α → α → Bool) : Prog (World α) ε PUnit := do
  let first1 ← onList l this.getBegin
  let last1 ← onList l Container.end_
  let first2 ← onList other this.getBegin
  let last2 ← onList other Container.end_
  let world ← Prog.get
  loop (fun s : Ptr × Ptr =>
    if s.1 = last1 ∨ s.2 = last2 then pure (.inr PUnit.unit)
    else do
      let value1 ← onList l (Container.dereference s.1)
      let value2 ← onList other (Container.dereference s.2)
      if go value1 value2 then do
        let next1 ← onList l (this.increment s.1)
        let next2 ← onList other (this.increment s.2)
        pure (.inl (next1, next2))
      else pure (.inr PUnit.unit)) (world.heap.live.length + 1) (first1, first2)

/-- `size` by iterators, `end() - begin()`. -/
def length (l : Nat) : Prog (World α) ε Int := onList l do
  let first ← this.getBegin
  let last ← Container.end_
  this.distance first last

/-- `operator==`: `boost::equal` compares the lengths first. -/
def equal (l other : Nat) (eq : α → α → Bool) : Prog (World α) ε PUnit := do
  let length1 ← this.length l
  let length2 ← this.length other
  if length1 = length2 then this.walkBoth l other eq else pure PUnit.unit

/-- `operator<`: `lexicographical_compare` goes on while neither element is less. -/
def less (l other : Nat) (comp : α → α → Bool) : Prog (World α) ε PUnit :=
  this.walkBoth l other fun a b => !comp a b && !comp b a

end World

end Implementation

end Garbage.RandomAccessList
