import Garbage.Foundation.Assertion
import Garbage.RandomAccessList.Indexing
import Garbage.RandomAccessList.SelfCheck

/-!
# The tree with its assertions

The members of `avl_tree_stump` once more, with every `ASSERT` as a `require`
and every `SHOULD_NEVER_REACH_HERE` as a `raise`.  Each of them is otherwise the
member of the same name in `AvlTreeStump`.  An assertion is named by the member
it stands in.  A member without assertions of its own is here where it calls one
that has some.

A pointer that is an argument of type `Ptr` is not `NULL`, and needs no
assertion.  It may be `NULL` where the code tests it before it asserts.
-/

namespace Garbage.RandomAccessList

open Foundation (Prog Side)
open Foundation.Prog

/-- The members of `avl_tree_stump` with assertions. -/
inductive Assertion where
  | getBegin
  | replaceSubnodeIfEqualToSuchAndNodeNotNull
  | rotate
  | restoreHeightSizeAndBalanceOfTree
  | childType
  | neighbor
  | replaceNode
  | delete_
  | getIndex
  | getByIndex
  | insertBefore
  | deleteAndGetNext
  | treeToVine
  | moveNodes
  deriving DecidableEq

namespace AvlTreeStump.Asserted

variable {α : Type} (w : Nat)

def getBegin : Prog (Tree α) Assertion Ptr := do
  match (← Prog.get).stump.begin_ with
  | none => raise .getBegin
  | some begin_ => pure begin_

/-! ### Rotations -/

def replaceSubnodeIfEqualToSuchAndNodeNotNull (node : Option Ptr) (such replacer : Ptr) :
    Prog (Tree α) Assertion PUnit :=
  match node with
  | none => pure PUnit.unit
  | some node => do
    let left ← load node TAvlTreeNode.left
    if left = some such then store node (TAvlTreeNode.setChild .left (some replacer))
    else do
      let right ← load node TAvlTreeNode.right
      if right = some such then store node (TAvlTreeNode.setChild .right (some replacer))
      else raise .replaceSubnodeIfEqualToSuchAndNodeNotNull

def rotate (side : Side) (root : Ptr) (needHeightAndSizeRestore : Bool) :
    Prog (Tree α) Assertion Ptr := do
  match ← load root (TAvlTreeNode.child side) with
  | none => raise .rotate
  | some pivot => do
    let pivotInnerChild ← load pivot (TAvlTreeNode.child side.flip)
    store pivot (TAvlTreeNode.setChild side.flip (some root))
    let parent ← load root TAvlTreeNode.parent
    store pivot (TAvlTreeNode.setParent parent)
    store root (TAvlTreeNode.setParent (some pivot))
    store root (TAvlTreeNode.setChild side pivotInnerChild)
    storeIfNotNull pivotInnerChild (TAvlTreeNode.setParent (some root))
    replaceSubnodeIfEqualToSuchAndNodeNotNull parent root pivot
    if needHeightAndSizeRestore then do
      recalculateHeightAndSizeWithDataFromTwoChilds root
      recalculateHeightAndSizeWithDataFromTwoChilds pivot
    else pure PUnit.unit
    pure pivot

def rightRotate (root : Ptr) (needHeightAndSizeRestore : Bool) : Prog (Tree α) Assertion Ptr :=
  rotate .left root needHeightAndSizeRestore

def leftRotate (root : Ptr) (needHeightAndSizeRestore : Bool) : Prog (Tree α) Assertion Ptr :=
  rotate .right root needHeightAndSizeRestore

def checkAndRestoreBalanceOfLevel (root : Ptr) : Prog (Tree α) Assertion Ptr := do
  let balanceBorder := 1
  let left ← load root TAvlTreeNode.left
  let leftHeight ← nodeHeight left
  let right ← load root TAvlTreeNode.right
  let rightHeight ← nodeHeight right
  if leftHeight > rightHeight + balanceBorder then rightRotate root true
  else if rightHeight > leftHeight + balanceBorder then leftRotate root true
  else pure root

def restoreHeightSizeAndBalanceOfTree (lowestIncorrect : Ptr) :
    Prog (Tree α) Assertion PUnit := do
  let last ← rounds (fun lowestIncorrect => do
    match ← load lowestIncorrect TAvlTreeNode.parent with
    | none => pure (.inr lowestIncorrect)
    | some _ => do
      recalculateHeightAndSizeWithDataFromTwoChilds lowestIncorrect
      let root ← checkAndRestoreBalanceOfLevel lowestIncorrect
      match ← load root TAvlTreeNode.parent with
      | none => stuck
      | some parent => pure (.inl parent)) lowestIncorrect
  recalculateHeightAndSizeWithDataFromTwoChilds last
  let root ← checkAndRestoreBalanceOfLevel last
  setStump (AvlTreeStump.setRoot (some root))

/-! ### Steps through the tree -/

def childType (node : Ptr) : Prog (Tree α) Assertion Side := do
  require .childType fun this => this.stump.root ≠ some node
  match ← load node TAvlTreeNode.parent with
  | none => raise .childType
  | some parent => do
    let left ← load parent TAvlTreeNode.left
    if left = some node then pure .left
    else do
      let right ← load parent TAvlTreeNode.right
      require .childType fun _ => right = some node
      pure .right

/-- `forward` or `backward`; the node may be `NULL`. -/
def neighbor (side : Side) (node : Option Ptr) : Prog (Tree α) Assertion (Option Ptr) := do
  match node with
  | none => raise .neighbor
  | some node => do
    require .neighbor fun this => this.stump.root ≠ none
    require .neighbor fun this =>
      (this.heap.node node).parent ≠ none ∨ some node = this.stump.root
    match ← load node (TAvlTreeNode.child side) with
    | some child => do
      let extreme ← findExtreme side.flip child
      pure (some extreme)
    | none => do
      match ← load node TAvlTreeNode.parent with
      | none => pure none
      | some parent => do
        let type ← childType node
        if type = side.flip then pure (some parent)
        else do
          let type ← childType node
          require .neighbor fun _ => type = side
          rounds (fun node => do
            match ← load node TAvlTreeNode.parent with
            | none => pure (.inr none)
            | some parent => do
              let type ← childType node
              if type = side then pure (.inl parent) else pure (.inr (some parent))) node

def forward (node : Option Ptr) : Prog (Tree α) Assertion (Option Ptr) := neighbor .right node

def backward (node : Option Ptr) : Prog (Tree α) Assertion (Option Ptr) := neighbor .left node

/-! ### Insertion and deletion -/

def replaceNode (replaceable : Ptr) (replacer : Option Ptr) : Prog (Tree α) Assertion PUnit := do
  match ← load replaceable TAvlTreeNode.parent with
  | none => do
    require .replaceNode fun this => some replaceable = this.stump.root
    storeIfNotNull replacer (TAvlTreeNode.setParent none)
    setStump (AvlTreeStump.setRoot replacer)
  | some parent => do
    let type ← childType replaceable
    store parent (TAvlTreeNode.setChild type replacer)
    storeIfNotNull replacer (TAvlTreeNode.setParent (some parent))

/-- The second half of `insert_before`. -/
def link (it : Option Ptr) (newNode : Ptr) : Prog (Tree α) Assertion Ptr := do
  let this ← Prog.get
  match it with
  | none =>
    match this.stump.root with
    | some _ => raise .insertBefore
    | none => do
      setStump (AvlTreeStump.setRoot (some newNode))
      store newNode (TAvlTreeNode.setParent none)
      require .insertBefore fun this => this.stump.root ≠ none
      pure newNode
  | some it => do
    require .insertBefore fun this => this.stump.root ≠ none
    match ← load it TAvlTreeNode.left with
    | none => do
      store it (TAvlTreeNode.setChild .left (some newNode))
      store newNode (TAvlTreeNode.setParent (some it))
      restoreHeightSizeAndBalanceOfTree it
      require .insertBefore fun this => this.stump.root ≠ none
      pure newNode
    | some left => do
      let it ← findRightmost left
      store it (TAvlTreeNode.setChild .right (some newNode))
      store newNode (TAvlTreeNode.setParent (some it))
      restoreHeightSizeAndBalanceOfTree it
      require .insertBefore fun this => this.stump.root ≠ none
      pure newNode

def insertBefore (it : Option Ptr) (newNode : Ptr) : Prog (Tree α) Assertion Ptr := do
  require .insertBefore fun this => (this.heap.node newNode).size = 1
  require .insertBefore fun this => (this.heap.node newNode).height = 1
  store newNode (TAvlTreeNode.setSize 1)
  store newNode (TAvlTreeNode.setHeight 1)
  store newNode (TAvlTreeNode.setChild .left none)
  store newNode (TAvlTreeNode.setChild .right none)
  let this ← Prog.get
  if it = this.stump.begin_ then setStump (AvlTreeStump.setBegin (some newNode))
  else pure PUnit.unit
  link it newNode

def takePlace (node rightmost : Ptr) : Prog (Tree α) Assertion PUnit := do
  replaceNode node (some rightmost)
  let newLeft ← load node TAvlTreeNode.left
  store rightmost (TAvlTreeNode.setChild .left newLeft)
  let newRight ← load node TAvlTreeNode.right
  store rightmost (TAvlTreeNode.setChild .right newRight)
  storeIfNotNull newLeft (TAvlTreeNode.setParent (some rightmost))
  storeIfNotNull newRight (TAvlTreeNode.setParent (some rightmost))

def takeOver (node rightmost : Ptr) : Prog (Tree α) Assertion PUnit := do
  let oldParentOfRightmost ← load rightmost TAvlTreeNode.parent
  let leftOfRightmost ← load rightmost TAvlTreeNode.left
  replaceNode rightmost leftOfRightmost
  takePlace node rightmost
  if oldParentOfRightmost = some node then restoreHeightSizeAndBalanceOfTree rightmost
  else
    match oldParentOfRightmost with
    | none => raise .restoreHeightSizeAndBalanceOfTree
    | some lowestIncorrect => restoreHeightSizeAndBalanceOfTree lowestIncorrect

def unlink (node : Ptr) : Prog (Tree α) Assertion PUnit := do
  match ← load node TAvlTreeNode.left with
  | none => do
    let parent ← load node TAvlTreeNode.parent
    let right ← load node TAvlTreeNode.right
    replaceNode node right
    match parent with
    | none => pure PUnit.unit
    | some parent => restoreHeightSizeAndBalanceOfTree parent
  | some left => do
    let rightmost ← findRightmost left
    takeOver node rightmost

def delete_ (node : Ptr) (needDestroyNode needDestroyValue : Bool) :
    Prog (Tree α) Assertion PUnit := do
  require .delete_ fun this => this.stump.root ≠ none
  let _ ← getBegin
  require .delete_ fun this => node ≠ this.stump.beforeBegin ∧ node ≠ this.stump.end_
  let this ← Prog.get
  if node = this.stump.beforeBegin ∨ node = this.stump.end_ then pure PUnit.unit
  else do
    unlink node
    destroyNode node needDestroyNode needDestroyValue

def deleteAndGetNext (node : Option Ptr) (needDestroyNode needDestroyValue : Bool) :
    Prog (Tree α) Assertion (Option Ptr) := do
  require .deleteAndGetNext fun this => this.stump.root ≠ none
  require .deleteAndGetNext fun _ => node ≠ none
  require .deleteAndGetNext fun _ => needDestroyNode = true ∨ needDestroyValue = false
  match node with
  | none => pure none
  | some node => do
    require .deleteAndGetNext fun this => node ≠ this.stump.beforeBegin
    require .deleteAndGetNext fun this => node ≠ this.stump.end_
    let next ← forward (some node)
    let begin_ ← getBegin
    require .deleteAndGetNext fun _ => next ≠ some node
    require .deleteAndGetNext fun _ => next ≠ none
    delete_ node needDestroyNode needDestroyValue
    if begin_ = node then setStump (AvlTreeStump.setBegin next)
    else pure PUnit.unit
    pure next

def getNextAndRemoveNode (goingToRemove : Option Ptr) : Prog (Tree α) Assertion (Option Ptr) :=
  deleteAndGetNext goingToRemove false true

/-! ### The whole tree -/

def resetInvariant : Prog (Tree α) Assertion PUnit := do
  let this ← Prog.get
  store this.stump.beforeBegin TAvlTreeNode.resetInvariant
  store this.stump.end_ TAvlTreeNode.resetInvariant
  setStump (AvlTreeStump.setRoot none)
  let end_ ← insertBefore none this.stump.end_
  let _ ← insertBefore (some end_) this.stump.beforeBegin
  setStump (AvlTreeStump.setBegin (some end_))

def deleteUpTo (it : Option Ptr) (last : Ptr) : Prog (Tree α) Assertion PUnit :=
  rounds (fun it =>
    if it = some last then pure (.inr PUnit.unit)
    else do
      let next ← deleteAndGetNext it true true
      pure (.inl next)) it

def destructValueAndDeleteNodeSinceBeginToBeforeEnd : Prog (Tree α) Assertion PUnit := do
  let this ← Prog.get
  deleteUpTo this.stump.begin_ this.stump.end_

def treeToVineWithPreserveInvariantsOnlyForMemberRight : Prog (Tree α) Assertion Ptr := do
  let this ← Prog.get
  match this.stump.root with
  | none => raise .treeToVine
  | some root => do
    let rightmost ← findRightmost root
    rounds (fun current => do
      let current ← rounds (fun current => do
        match ← load current TAvlTreeNode.left with
        | none => pure (.inr current)
        | some _ => do
          let pivot ← rightRotate current false
          match ← load pivot TAvlTreeNode.right with
          | none => stuck
          | some right => pure (.inl right)) current
      match ← load current TAvlTreeNode.parent with
      | none => pure (.inr current)
      | some parent => pure (.inl parent)) rightmost

def moveNodes : Prog (Tree α) Assertion (List Ptr) := do
  let vine ← treeToVineWithPreserveInvariantsOnlyForMemberRight
  let this ← Prog.get
  require .moveNodes fun this => vine = this.stump.beforeBegin
  require .moveNodes fun this => (this.heap.node this.stump.end_).right = none
  let first ← load vine TAvlTreeNode.right
  require .moveNodes fun _ => first ≠ none
  let result ← rounds (fun s : Option Ptr × List Ptr =>
    if s.1 = some this.stump.end_ then pure (.inr s.2)
    else
      match s.1 with
      | none => stuck
      | some nodeGoingToList => do
        let current ← load nodeGoingToList TAvlTreeNode.right
        require .moveNodes fun _ => current ≠ none
        store nodeGoingToList TAvlTreeNode.resetInvariant
        pure (.inl (current, s.2 ++ [nodeGoingToList]))) (first, [])
  resetInvariant
  pure result

def moveNodesRange (from_ to_ : Ptr) : Prog (Tree α) Assertion (List Ptr) :=
  rounds (fun s : Option Ptr × List Ptr =>
    if s.1 = some to_ then pure (.inr s.2)
    else
      match s.1 with
      | none => stuck
      | some nodeGoingToList => do
        let current ← getNextAndRemoveNode (some nodeGoingToList)
        store nodeGoingToList TAvlTreeNode.resetInvariant
        pure (.inl (current, s.2 ++ [nodeGoingToList]))) (some from_, [])

def construct (alloc : Allocator) : Prog (Tree α) Assertion PUnit := do
  let beforeBegin ← allocate alloc (TAvlTreeNode.make none)
  let end_ ← allocate alloc (TAvlTreeNode.make none)
  setStump fun _ => { beforeBegin, begin_ := none, end_, root := none }
  resetInvariant

def destruct : Prog (Tree α) Assertion PUnit := do
  destructValueAndDeleteNodeSinceBeginToBeforeEnd
  let this ← Prog.get
  deallocate this.stump.beforeBegin
  deallocate this.stump.end_

/-! ### Positions -/

def getIndex (node : Ptr) : Prog (Tree α) Assertion (BitVec w) := do
  require .getIndex fun this => this.stump.root ≠ none
  let last ← rounds (fun s : Ptr × BitVec w => do
    match ← load s.1 TAvlTreeNode.parent with
    | none => pure (.inr s)
    | some parent => do
      let type ← childType s.1
      let size ← pathSize w type parent
      pure (.inl (parent, s.2 + size))) (node, 0)
  require .getIndex fun this => some last.1 = this.stump.root
  let leftSize ← leftSubtreeSize last.1
  pure (BitVec.ofNat w leftSize - last.2)

def getByIndex (searchedIndex : Nat) : Prog (Tree α) Assertion (Option Ptr) := do
  let this ← Prog.get
  match this.stump.root with
  | none => raise .getByIndex
  | some root => do
    let size ← nodeSize this.stump.root
    if searchedIndex ≥ size then pure none
    else do
      let currentIndex ← leftSubtreeSize root
      rounds (fun s => do
        let r ← Search.body searchedIndex (raise .getByIndex) s
        match r with
        | .inl s' => do
          require .getByIndex fun _ => s'.currentIndex ≥ s'.leftIndexBorder
          pure (.inl s')
        | .inr found => pure (.inr found))
        { currentNode := root, leftIndexBorder := 0, currentIndex }

def goTo (node : Ptr) (stepAmount : Int) : Prog (Tree α) Assertion (Option Ptr) := do
  let maxLinearStepAmount := 2
  if stepAmount.natAbs ≤ maxLinearStepAmount then
    applyNTimes (neighbor (if 0 ≤ stepAmount then .right else .left)) stepAmount.natAbs (some node)
  else do
    let sourceNodeIndex ← getIndex w node
    let destinationNodeIndex := sourceNodeIndex + BitVec.ofInt w stepAmount
    getByIndex destinationNodeIndex.toNat

def distance (left right : Ptr) : Prog (Tree α) Assertion Int := do
  let rightIndex ← getIndex w right
  let leftIndex ← getIndex w left
  pure (rightIndex - leftIndex).toInt

/-! ### The check of the list itself

A failed check is stuck, as in `AvlTreeStump`. -/

def checkBegin : Prog (Tree α) Assertion PUnit := do
  let this ← Prog.get
  match this.stump.begin_ with
  | none => stuck
  | some begin_ => do
    checkCouple begin_
    let next ← forward (some this.stump.beforeBegin)
    assert fun _ => next = some begin_

def getAmount : Prog (Tree α) Assertion Nat := do
  let this ← Prog.get
  let amount ← rounds (fun s : Option Ptr × Nat =>
    match s.1 with
    | none => pure (.inr s.2)
    | some node =>
      if node = this.stump.end_ then pure (.inr s.2)
      else do
        let next ← forward (some node)
        pure (.inl (next, s.2 + 1))) (this.stump.begin_, 0)
  pure (amount + 2)

def checkSizes : Prog (Tree α) Assertion PUnit := do
  let this ← Prog.get
  let real ← getAndCheckSize (this.heap.live.length + 1) this.stump.root
  let size ← nodeSize this.stump.root
  assert fun _ => real = size
  let amount ← getAmount
  assert fun _ => amount = size

def selfCheckWithoutHeightAndSizeIfConstructed : Prog (Tree α) Assertion PUnit := do
  checkAllParents
  checkBeforeBegin
  checkEnd
  checkBegin

def selfCheckIfConstructed : Prog (Tree α) Assertion PUnit := do
  selfCheckWithoutHeightAndSizeIfConstructed
  checkHeights
  checkSizes

end AvlTreeStump.Asserted

end Garbage.RandomAccessList
