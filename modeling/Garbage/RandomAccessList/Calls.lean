import Garbage.RandomAccessList.Implementation

/-!
# The public calls

A `Call` is one call of a public member of a list or of its iterators, with its
iterators given by their positions: an operation on plain lists, `Op`, or one of
the other members.  The constructors with arguments and the move operations are
not listed, they are `create`, an assignment and `swap` one after the other.
The allocators of all lists are equal.

A call is run over an implementation.  `calls` is the machine of all calls
where an `ASSERT` does nothing.  `Call.AssertionsHold` is about the same call
with its assertions.
-/

namespace Garbage.RandomAccessList

open Foundation (Prog Machine)
open Foundation.Prog
open World (onList)

variable {α ε : Type}

/-- The calls on one list that `ListOp` does not have. -/
inductive ListCall (α : Type) where
  | begin_
  | increment (pos : Nat)
  | decrement (pos : Nat)
  | advance (pos : Nat) (iteratorIncrement : Int)
  | distance (left right : Nat)
  | size
  | algorithmicComplexity
  | front
  | back
  | index (pos : Nat)
  | at_ (pos : Nat)
  | traverse
  | selfCheck
  | emplaceBack (value : α)
  | emplaceFront (value : α)
  | popBack
  | popFront
  | resize (count : Nat) (value : α)
  | removeIf (p : α → Bool) (rounds : Nat)

inductive Call (α : Type) where
  | op (op : Op α)
  | on (l : Nat) (call : ListCall α)
  | assignRange (l : Nat) (values : List α)
  | copyAssign (l other : Nat)
  | spliceFrom (l pos other it : Nat)
  | merge (l other : Nat) (comp : α → α → Bool)
  | equal (l other : Nat) (eq : α → α → Bool)
  | less (l other : Nat) (comp : α → α → Bool)

/-! ### What is called -/

namespace Implementation

variable (this : Implementation α ε) (alloc : Allocator)

/-- The program of an operation on one list. -/
def execListOp : ListOp α → Prog (Tree α) ε PUnit
  | .emplace pos value => do
    let it ← this.iteratorAt pos
    let _ ← this.emplace alloc it value
    pure PUnit.unit
  | .insertCount pos count value => do
    let it ← this.iteratorAt pos
    let _ ← this.insertCount alloc it count value
    pure PUnit.unit
  | .insertRange pos values => do
    let it ← this.iteratorAt pos
    let _ ← this.insertRange alloc it values
    pure PUnit.unit
  | .erase pos => do
    let it ← this.iteratorAt pos
    let _ ← this.erase it
    pure PUnit.unit
  | .eraseRange first last => do
    let first ← this.iteratorAt first
    let last ← this.iteratorAt last
    let _ ← this.eraseRange first last
    pure PUnit.unit
  | .clear => this.clear
  | .reverse => this.reverse
  | .sort comp => this.sort comp
  | .unique p => this.unique p

/-- The program of an operation on list variables. -/
def execOp : Op α → Prog (World α) ε PUnit
  | .create l => this.create alloc l
  | .destroy l => this.destroy l
  | .on l op => onList l (this.execListOp alloc op)
  | .assign l values => this.assign alloc l values
  | .assignCount l count value => this.assign alloc l (List.replicate count value)
  | .splice l pos other => do
    let it ← onList l (this.iteratorAt pos)
    this.splice l it other
  | .spliceRange l pos other first last => do
    let it ← onList l (this.iteratorAt pos)
    let first ← onList other (this.iteratorAt first)
    let last ← onList other (this.iteratorAt last)
    this.spliceRange l it other first last
  | .swap l other => World.swap l other

/-! ### Without assertions

The operations over `released` are the programs of `ListOp.exec` and `Op.exec`. -/

section Released

variable (w : Nat)

theorem released_incrementBy (n : Nat) : ∀ p : Ptr,
    (released w : Implementation α ε).incrementBy n p = Container.incrementBy n p := by
  induction n with
  | zero => intro p; rfl
  | succ n ih =>
    intro p
    exact congrArg (Container.increment p >>= ·) (funext ih)

theorem released_iteratorAt (pos : Nat) :
    (released w : Implementation α ε).iteratorAt pos = Container.iteratorAt pos :=
  congrArg (Container.begin_ >>= ·) (funext (released_incrementBy w pos))

theorem released_insertNodes (pos : Ptr) (nodes : List Ptr) : ∀ (first : Ptr) (already : Bool),
    (released w : Implementation α ε).insertNodes pos nodes first already =
      AvlTreeStump.insertNodes pos nodes first already := by
  induction nodes with
  | nil => intro first already; rfl
  | cons node nodes ih =>
    intro first already
    unfold insertNodes AvlTreeStump.insertNodes
    simp only [ih]
    rfl

theorem released_insertNodesFromList (nodes : List Ptr) (pos : Ptr) :
    (released w : Implementation α ε).insertNodesFromListAndReturnFirstInserted nodes pos =
      AvlTreeStump.insertNodesFromListAndReturnFirstInserted nodes pos :=
  released_insertNodes w pos nodes pos false

theorem released_pushBackAll (values : List α) :
    (released w : Implementation α ε).pushBackAll alloc values =
      Container.pushBackAll alloc values := by
  induction values with
  | nil => rfl
  | cons value values ih =>
    exact congrArg (Container.pushBack alloc value >>= ·) (funext fun _ => ih)

theorem released_execListOp (op : ListOp α) :
    (released w : Implementation α ε).execListOp alloc op = op.exec alloc := by
  cases op with
  | clear => rfl
  | unique p => rfl
  | reverse =>
    show (released w : Implementation α ε).reverse = Container.reverse
    unfold reverse Container.reverse
    simp only [released_insertNodesFromList]
    rfl
  | sort comp =>
    show (released w : Implementation α ε).sort comp = Container.sort comp
    unfold sort Container.sort
    simp only [released_insertNodesFromList]
    rfl
  | insertCount pos count value =>
    simp only [execListOp, ListOp.exec, released_iteratorAt, insertCount, Container.insertCount,
      released_insertNodesFromList]
  | insertRange pos values =>
    simp only [execListOp, ListOp.exec, released_iteratorAt, insertRange, Container.insertRange,
      released_insertNodesFromList]
  | _ =>
    simp only [execListOp, ListOp.exec, released_iteratorAt]
    rfl

theorem released_execOp (op : Op α) :
    (released w : Implementation α ε).execOp alloc op = op.exec alloc := by
  cases op with
  | on l op => exact congrArg (onList l) (released_execListOp alloc w op)
  | create l => rfl
  | destroy l => rfl
  | swap l other => rfl
  | assign l values =>
    simp only [execOp, Op.exec, assign, assignBy, World.assign, released_pushBackAll]
    rfl
  | assignCount l count value =>
    simp only [execOp, Op.exec, assign, assignBy, World.assignCount, World.assign,
      released_pushBackAll]
    rfl
  | splice l pos other =>
    simp only [execOp, Op.exec, released_iteratorAt, splice, World.splice,
      released_insertNodesFromList]
    rfl
  | spliceRange l pos other first last =>
    simp only [execOp, Op.exec, released_iteratorAt, spliceRange, World.spliceRange,
      released_insertNodesFromList]
    rfl

end Released

/-- Call and forget the result. -/
def run {β : Type} (x : Prog (Tree α) ε β) : Prog (Tree α) ε PUnit := do
  let _ ← x
  pure PUnit.unit

/-- Call at an iterator and forget the result. -/
def runAt {β : Type} (pos : Nat) (x : Ptr → Prog (Tree α) ε β) : Prog (Tree α) ε PUnit := do
  let it ← this.iteratorAt pos
  run (x it)

/-- The program of a call on one list. -/
def execListCall : ListCall α → Prog (Tree α) ε PUnit
  | .begin_ => run this.getBegin
  | .increment pos => this.runAt pos this.increment
  | .decrement pos => this.runAt pos this.decrement
  | .advance pos iteratorIncrement =>
    this.runAt pos fun it => this.advance it iteratorIncrement
  | .distance left right =>
    this.runAt left fun first => do
      let last ← this.iteratorAt right
      this.distance first last
  | .size => run Container.size
  | .algorithmicComplexity => run AvlTreeStump.algorithmicComplexity
  | .front => run this.front
  | .back => run this.back
  | .index pos => run (this.index pos)
  | .at_ pos => run (this.at_ pos)
  | .traverse => run this.traverse
  | .selfCheck => this.selfCheckIfConstructed
  | .emplaceBack value => run (this.emplaceBack alloc value)
  | .emplaceFront value => run (this.emplaceFront alloc value)
  | .popBack => this.popBack
  | .popFront => this.popFront
  | .resize count value => this.resize alloc count value
  | .removeIf p rounds => this.removeIf p rounds

def exec : Call α → Prog (World α) ε PUnit
  | .op op => this.execOp alloc op
  | .on l call => onList l (this.execListCall alloc call)
  | .assignRange l values => this.assignRange alloc l values
  | .copyAssign l other => this.copyAssign alloc l other
  | .spliceFrom l pos other it => do
    let to_ ← onList l (this.iteratorAt pos)
    let first ← onList other (this.iteratorAt it)
    this.spliceFrom l to_ other first
  | .merge l other comp => this.merge l other comp
  | .equal l other eq => this.equal l other eq
  | .less l other comp => this.less l other comp

end Implementation

/-! ### What may be called -/

/-- The arguments of a call are valid for a list of `n` elements. -/
def ListCall.Valid (n : Nat) : ListCall α → Prop
  | increment pos => pos < n
  | decrement pos => 0 < pos ∧ pos ≤ n
  | advance pos iteratorIncrement =>
    pos ≤ n ∧ 0 ≤ pos + iteratorIncrement ∧ pos + iteratorIncrement ≤ n
  | distance left right => left ≤ n ∧ right ≤ n
  | front => 0 < n
  | back => 0 < n
  | index pos => pos < n
  | popBack => 0 < n
  | popFront => 0 < n
  | _ => True

instance (n : Nat) : DecidablePred (ListCall.Valid (α := α) n)
  | .increment pos => inferInstanceAs (Decidable (pos < n))
  | .decrement pos => inferInstanceAs (Decidable (0 < pos ∧ pos ≤ n))
  | .advance pos iteratorIncrement => inferInstanceAs (Decidable
    (pos ≤ n ∧ 0 ≤ pos + iteratorIncrement ∧ pos + iteratorIncrement ≤ n))
  | .distance left right => inferInstanceAs (Decidable (left ≤ n ∧ right ≤ n))
  | .front => inferInstanceAs (Decidable (0 < n))
  | .back => inferInstanceAs (Decidable (0 < n))
  | .index pos => inferInstanceAs (Decidable (pos < n))
  | .popBack => inferInstanceAs (Decidable (0 < n))
  | .popFront => inferInstanceAs (Decidable (0 < n))
  | .begin_ => isTrue trivial
  | .size => isTrue trivial
  | .algorithmicComplexity => isTrue trivial
  | .at_ _ => isTrue trivial
  | .traverse => isTrue trivial
  | .selfCheck => isTrue trivial
  | .emplaceBack _ => isTrue trivial
  | .emplaceFront _ => isTrue trivial
  | .resize _ _ => isTrue trivial
  | .removeIf _ _ => isTrue trivial

/-- The lists named exist, their iterators are valid, and nothing is spliced
from a list into itself. -/
def Call.Valid (sizes : Nat → Option Nat) : Call α → Prop
  | op o => o.Valid sizes
  | on l call => ∃ n ∈ sizes l, call.Valid n
  | assignRange l _ => (sizes l).isSome
  | copyAssign l other => (sizes l).isSome ∧ (sizes other).isSome
  | spliceFrom l pos other it =>
    l ≠ other ∧ (∃ n ∈ sizes other, it ≤ n) ∧ ∃ n ∈ sizes l, pos ≤ n
  | merge l other _ => (sizes l).isSome ∧ (sizes other).isSome
  | equal l other _ => (sizes l).isSome ∧ (sizes other).isSome
  | less l other _ => (sizes l).isSome ∧ (sizes other).isSome

instance (sizes : Nat → Option Nat) : DecidablePred (Call.Valid (α := α) sizes)
  | .op o => inferInstanceAs (Decidable (o.Valid sizes))
  | .on l call => inferInstanceAs (Decidable (∃ n ∈ sizes l, call.Valid n))
  | .assignRange l _ => inferInstanceAs (Decidable ((sizes l).isSome = true))
  | .copyAssign l other =>
    inferInstanceAs (Decidable ((sizes l).isSome = true ∧ (sizes other).isSome = true))
  | .spliceFrom l pos other it =>
    inferInstanceAs (Decidable (l ≠ other ∧ (∃ n ∈ sizes other, it ≤ n) ∧ ∃ n ∈ sizes l, pos ≤ n))
  | .merge l other _ =>
    inferInstanceAs (Decidable ((sizes l).isSome = true ∧ (sizes other).isSome = true))
  | .equal l other _ =>
    inferInstanceAs (Decidable ((sizes l).isSome = true ∧ (sizes other).isSome = true))
  | .less l other _ =>
    inferInstanceAs (Decidable ((sizes l).isSome = true ∧ (sizes other).isSome = true))

/-- The machine of the calls, with assertions that do nothing: it starts without
lists, and the calls are valid. -/
def calls (w : Nat) (alloc : Allocator) : Machine (World α) (Call α) where
  init world := ∀ l, world.lists l = none
  next world call :=
    if call.Valid world.sizes then
      match ((released w : Implementation α Empty).exec alloc call) world with
      | some (.ok _, world') => some world'
      | _ => none
    else none

namespace Call

/-- With assertions, the call comes to its end: none of them fails. -/
def AssertionsHold (w : Nat) (alloc : Allocator) (world : World α) (call : Call α) : Prop :=
  ∃ world', (asserted w).exec alloc call world = some (.ok PUnit.unit, world')

/-- With assertions, the call ends where the assertion `a` fails. -/
def Fails (w : Nat) (alloc : Allocator) (world : World α) (call : Call α) (a : Assertion) : Prop :=
  ∃ world', (asserted w).exec alloc call world = some (.error a, world')

/-- The call splices a range with an element in it. -/
def MovesRange (sizes : Nat → Option Nat) : Call α → Prop
  | op (.spliceRange _ _ _ first last) => first < last
  | spliceFrom _ _ other it => ∃ n ∈ sizes other, it < n
  | _ => False

end Call

end Garbage.RandomAccessList
