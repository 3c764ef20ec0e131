import Garbage.InplaceFixedDeque.UninitializedCopy
import Mathlib.Data.List.ReduceOption

/-!
# The deque with a fixed number of slots in place

`InplaceFixedDeque T n` is `inplace_fixed_deque<T, n>`: raw storage and two
indices.  While `mBegin ≤ mEnd` the items lie straight, from `mBegin` up to but
not including `mEnd`; when `mEnd < mBegin` they wrap around, and `mEnd` is the
slot of the last item.

Every member below is the code of its namesake.  A constructor call is given by
its outcome, an object or an exception, so that the same definitions serve the
runs in which constructors throw.
-/

namespace Garbage.InplaceFixedDeque

open Foundation (Prog)
open Foundation.Prog

structure Deque (T : Type) (itemAmount : Nat) where
  rawByteArray : Storage T
  mBegin : Nat
  mEnd : Nat

namespace Deque

variable {T ε : Type} {itemAmount : Nat}

/-- A program on the raw storage of a deque. -/
def onStorage {β : Type} (x : Prog (Storage T) ε β) : Prog (Deque T itemAmount) ε β :=
  zoom Deque.rawByteArray (fun d raw => { d with rawByteArray := raw }) x

def make (T : Type) (itemAmount : Nat) : Deque T itemAmount :=
  { rawByteArray := fun _ => none, mBegin := 0, mEnd := 0 }

/-! ### Observers -/

def capacity (_ : Deque T itemAmount) : Nat := itemAmount

def sizeInternal (this : Deque T itemAmount) : Nat :=
  if this.mBegin ≤ this.mEnd then this.mEnd - this.mBegin
  else this.capacity - this.mBegin + this.mEnd + 1

def size (this : Deque T itemAmount) : Nat := this.sizeInternal

def empty (this : Deque T itemAmount) : Bool := this.mBegin == this.mEnd

def full (this : Deque T itemAmount) : Bool :=
  if this.mBegin > this.mEnd then this.mEnd + 1 == this.mBegin
  else this.mBegin == 0 && this.mEnd == this.capacity

/-- `operator[]`: the object at the slot of `index`, `none` where none lives. -/
def at_ (this : Deque T itemAmount) (index : Nat) : Option T :=
  if this.mBegin ≤ this.mEnd then this.rawByteArray (index + this.mBegin)
  else this.rawByteArray ((index + this.mBegin) % this.capacity)

def front (this : Deque T itemAmount) : Option T := this.at_ 0

def back (this : Deque T itemAmount) : Option T := this.at_ (this.size - 1)

/-- The items an iterator meets from `begin()` to `end()`. -/
def iterate (this : Deque T itemAmount) : List (Option T) :=
  (List.range this.size).map this.at_

/-! ### Construction and destruction of single slots -/

def constructAtPosition (position : Nat) (value : Except ε T) :
    Prog (Deque T itemAmount) ε PUnit := do
  assert fun _ => position < itemAmount
  onStorage (construct position value)

def destroyByPosition (position : Nat) : Prog (Deque T itemAmount) ε PUnit := do
  assert fun _ => position < itemAmount
  onStorage (destroyValue position)

/-- `for_each` of `m_destroy_value` over `amount` slots from `begin_` on. -/
def destroyEach (begin_ : Nat) : Nat → Prog (Deque T itemAmount) ε PUnit
  | 0 => pure PUnit.unit
  | amount + 1 => do
    destroyByPosition begin_
    destroyEach (begin_ + 1) amount

/-! ### Pushing and popping -/

/-- `emplace_back`, and `push_back_internal` with the copy constructor. -/
def emplaceBack (value : Except ε T) : Prog (Deque T itemAmount) ε PUnit := do
  let this ← Prog.get
  if this.full then pure PUnit.unit
  else do
    let newEnd := if this.mEnd ≥ this.capacity then 0 else this.mEnd + 1
    let creationPosition := if newEnd < this.mBegin then newEnd else this.mEnd
    constructAtPosition creationPosition value
    Prog.modify fun d => { d with mEnd := newEnd }

def pushBack (value : Except ε T) : Prog (Deque T itemAmount) ε PUnit := emplaceBack value

/-- `emplace_front`, and `push_front_internal` with the copy constructor. -/
def emplaceFront (value : Except ε T) : Prog (Deque T itemAmount) ε PUnit := do
  let this ← Prog.get
  if this.full then pure PUnit.unit
  else do
    let newBegin := if this.mBegin ≤ 0 then this.capacity - 1 else this.mBegin - 1
    let newEnd :=
      if this.mBegin ≤ 0 then
        if this.mEnd ≤ 0 then this.capacity else this.mEnd - 1
      else this.mEnd
    constructAtPosition newBegin value
    Prog.modify fun d => { d with mEnd := newEnd, mBegin := newBegin }

def pushFront (value : Except ε T) : Prog (Deque T itemAmount) ε PUnit := emplaceFront value

def popBack : Prog (Deque T itemAmount) ε PUnit := do
  let this ← Prog.get
  if this.empty then pure PUnit.unit
  else do
    let newEnd := if this.mEnd ≤ 0 then this.capacity else this.mEnd - 1
    let destructionPosition := if this.mEnd < this.mBegin then this.mEnd else newEnd
    Prog.modify fun d => { d with mEnd := newEnd }
    destroyByPosition destructionPosition

def popFront : Prog (Deque T itemAmount) ε PUnit := do
  let this ← Prog.get
  if this.empty then pure PUnit.unit
  else do
    let newBegin := if this.mBegin ≥ this.capacity - 1 then 0 else this.mBegin + 1
    let newEnd :=
      if this.mBegin ≥ this.capacity - 1 then
        if this.mEnd ≥ this.capacity then 0 else this.mEnd + 1
      else this.mEnd
    Prog.modify fun d => { d with mBegin := newBegin, mEnd := newEnd }
    destroyByPosition this.mBegin

/-! ### The whole contents -/

def clear : Prog (Deque T itemAmount) ε PUnit := do
  let this ← Prog.get
  Prog.modify fun d => { d with mBegin := 0, mEnd := 0 }
  if this.mBegin ≤ this.mEnd then
    destroyEach this.mBegin (this.mEnd - this.mBegin)
  else do
    destroyEach this.mBegin (this.capacity - this.mBegin)
    destroyEach 0 (this.mEnd + 1)

def assignInternal (source : List (Round T ε)) : Prog (Deque T itemAmount) ε PUnit := do
  clear
  let result ← onStorage (uninitializedCopyAndRollbackIfException source 0 itemAmount)
  Prog.modify fun d => { d with mBegin := 0, mEnd := result.sucessfullInsertedItemsAmount }

/-- `operator=` from a range and `assign` from a range. -/
def assign (source : List (Round T ε)) : Prog (Deque T itemAmount) ε PUnit :=
  assignInternal source

/-- `operator=` from another deque: its items are copied, `copy` is the round of each. -/
def assignDeque (copy : T → Round T ε) (rhs : Deque T itemAmount) :
    Prog (Deque T itemAmount) ε PUnit :=
  assignInternal (rhs.iterate.reduceOption.map copy)

end Deque

end Garbage.InplaceFixedDeque
