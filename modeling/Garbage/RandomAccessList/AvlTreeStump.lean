import Garbage.RandomAccessList.Node

/-!
# The tree under the list

The members of `avl_tree_stump`.  The code has many of them twice, with left and
right exchanged; here such a pair is one definition with a `Side`, and the two
names of the code are that definition at its two sides.

A reference parameter that the code assigns (`root_` of the rotations) is a
result.  A dereferenced `NULL` is `stuck`.  `ASSERT` does nothing.

The tree of a list begins and ends with a gap node, `beforeBegin` and `end_`.
`insertBefore` and `delete_` repair sizes, heights and balance from the lowest
node they changed up to the root, `restoreHeightSizeAndBalanceOfTree`.
`moveNodes` takes all nodes out at once: it first turns the tree into a vine,
with only the right pointers kept right.
-/

namespace Garbage.RandomAccessList

open Foundation (Prog Side)
open Foundation.Prog

namespace AvlTreeStump

variable {α ε : Type}

/-- `size(node)`: the cached size, 0 for `NULL`. -/
def nodeSize : Option Ptr → Prog (Tree α) ε Nat
  | none => pure 0
  | some node => load node TAvlTreeNode.size

/-- `height(node)`: the cached height, 0 for `NULL`. -/
def nodeHeight : Option Ptr → Prog (Tree α) ε Nat
  | none => pure 0
  | some node => load node TAvlTreeNode.height

/-- `size()`: the size of the tree, with its gap nodes. -/
def size : Prog (Tree α) ε Nat := do
  let this ← Prog.get
  nodeSize this.stump.root

def algorithmicComplexity : Prog (Tree α) ε Nat := do
  let this ← Prog.get
  let height ← nodeHeight this.stump.root
  pure (height + 1)

/-- Write to a node unless it is `NULL`. -/
def storeIfNotNull (node : Option Ptr) (f : TAvlTreeNode α → TAvlTreeNode α) :
    Prog (Tree α) ε PUnit :=
  match node with
  | none => pure PUnit.unit
  | some p => store p f

/-! ### Rotations -/

def recalculateHeightAndSizeWithDataFromTwoChilds (lowestIncorrect : Ptr) :
    Prog (Tree α) ε PUnit := do
  let left ← load lowestIncorrect TAvlTreeNode.left
  let right ← load lowestIncorrect TAvlTreeNode.right
  let leftSize ← nodeSize left
  let rightSize ← nodeSize right
  store lowestIncorrect (TAvlTreeNode.setSize (leftSize + rightSize + 1))
  let leftHeight ← nodeHeight left
  let rightHeight ← nodeHeight right
  store lowestIncorrect (TAvlTreeNode.setHeight (max leftHeight rightHeight + 1))

def replaceSubnodeIfEqualToSuchAndNodeNotNull (node : Option Ptr) (such replacer : Ptr) :
    Prog (Tree α) ε PUnit :=
  match node with
  | none => pure PUnit.unit
  | some node => do
    let left ← load node TAvlTreeNode.left
    if left = some such then store node (TAvlTreeNode.setChild .left (some replacer))
    else do
      let right ← load node TAvlTreeNode.right
      if right = some such then store node (TAvlTreeNode.setChild .right (some replacer))
      else pure PUnit.unit

/-- Lift the child of `root` on `side`, the pivot, and return it. -/
def rotate (side : Side) (root : Ptr) (needHeightAndSizeRestore : Bool) :
    Prog (Tree α) ε Ptr := do
  match ← load root (TAvlTreeNode.child side) with
  | none => pure root
  | some pivot => do
    let pivotInnerChild ← load pivot (TAvlTreeNode.child side.flip)
    store pivot (TAvlTreeNode.setChild side.flip (some root))
    let parent ← load root TAvlTreeNode.parent
    store pivot (TAvlTreeNode.setParent parent)
    store root (TAvlTreeNode.setParent (some pivot))
    store root (TAvlTreeNode.setChild side pivotInnerChild)
    storeIfNotNull pivotInnerChild (TAvlTreeNode.setParent (some root))
    replaceSubnodeIfEqualToSuchAndNodeNotNull parent root pivot
    if needHeightAndSizeRestore then do
      recalculateHeightAndSizeWithDataFromTwoChilds root
      recalculateHeightAndSizeWithDataFromTwoChilds pivot
    else pure PUnit.unit
    pure pivot

def rightRotate (root : Ptr) (needHeightAndSizeRestore : Bool) : Prog (Tree α) ε Ptr :=
  rotate .left root needHeightAndSizeRestore

def leftRotate (root : Ptr) (needHeightAndSizeRestore : Bool) : Prog (Tree α) ε Ptr :=
  rotate .right root needHeightAndSizeRestore

def checkAndRestoreBalanceOfLevel (root : Ptr) : Prog (Tree α) ε Ptr := do
  let balanceBorder := 1
  let left ← load root TAvlTreeNode.left
  let leftHeight ← nodeHeight left
  let right ← load root TAvlTreeNode.right
  let rightHeight ← nodeHeight right
  if leftHeight > rightHeight + balanceBorder then rightRotate root true
  else if rightHeight > leftHeight + balanceBorder then leftRotate root true
  else pure root

def restoreHeightSizeAndBalanceOfTree (lowestIncorrect : Ptr) : Prog (Tree α) ε PUnit := do
  let last ← rounds (fun lowestIncorrect => do
    match ← load lowestIncorrect TAvlTreeNode.parent with
    | none => pure (.inr lowestIncorrect)
    | some _ => do
      recalculateHeightAndSizeWithDataFromTwoChilds lowestIncorrect
      let root ← checkAndRestoreBalanceOfLevel lowestIncorrect
      match ← load root TAvlTreeNode.parent with
      | none => stuck
      | some parent => pure (.inl parent)) lowestIncorrect
  recalculateHeightAndSizeWithDataFromTwoChilds last
  let root ← checkAndRestoreBalanceOfLevel last
  setStump (AvlTreeStump.setRoot (some root))

/-! ### Steps through the tree -/

def childType (node : Ptr) : Prog (Tree α) ε Side := do
  match ← load node TAvlTreeNode.parent with
  | none => stuck
  | some parent => do
    let left ← load parent TAvlTreeNode.left
    pure (if left = some node then .left else .right)

/-- `find_leftmost` or `find_rightmost`. -/
def findExtreme (side : Side) (node : Ptr) : Prog (Tree α) ε Ptr :=
  rounds (fun node => do
    match ← load node (TAvlTreeNode.child side) with
    | none => pure (.inr node)
    | some child => pure (.inl child)) node

def findRightmost (node : Ptr) : Prog (Tree α) ε Ptr := findExtreme .right node

def findLeftmost (node : Ptr) : Prog (Tree α) ε Ptr := findExtreme .left node

/-- The next node on `side` in the order of the tree: `forward` or `backward`. -/
def neighbor (side : Side) (node : Ptr) : Prog (Tree α) ε (Option Ptr) := do
  match ← load node (TAvlTreeNode.child side) with
  | some child => do
    let extreme ← findExtreme side.flip child
    pure (some extreme)
  | none => do
    match ← load node TAvlTreeNode.parent with
    | none => pure none
    | some parent => do
      let type ← childType node
      if type = side.flip then pure (some parent)
      else
        rounds (fun node => do
          match ← load node TAvlTreeNode.parent with
          | none => pure (.inr none)
          | some parent => do
            let type ← childType node
            if type = side then pure (.inl parent) else pure (.inr (some parent))) node

def forward (node : Ptr) : Prog (Tree α) ε (Option Ptr) := neighbor .right node

def backward (node : Ptr) : Prog (Tree α) ε (Option Ptr) := neighbor .left node

/-! ### Insertion and deletion -/

def replaceNode (replaceable : Ptr) (replacer : Option Ptr) : Prog (Tree α) ε PUnit := do
  match ← load replaceable TAvlTreeNode.parent with
  | none => do
    storeIfNotNull replacer (TAvlTreeNode.setParent none)
    setStump (AvlTreeStump.setRoot replacer)
  | some parent => do
    let type ← childType replaceable
    store parent (TAvlTreeNode.setChild type replacer)
    storeIfNotNull replacer (TAvlTreeNode.setParent (some parent))

/-- The second half of `insert_before`: hang the reset `newNode` into the tree. -/
def link (it : Option Ptr) (newNode : Ptr) : Prog (Tree α) ε Ptr := do
  let this ← Prog.get
  match it with
  | none =>
    match this.stump.root with
    | some _ => stuck
    | none => do
      setStump (AvlTreeStump.setRoot (some newNode))
      store newNode (TAvlTreeNode.setParent none)
      pure newNode
  | some it => do
    match ← load it TAvlTreeNode.left with
    | none => do
      store it (TAvlTreeNode.setChild .left (some newNode))
      store newNode (TAvlTreeNode.setParent (some it))
      restoreHeightSizeAndBalanceOfTree it
      pure newNode
    | some left => do
      let it ← findRightmost left
      store it (TAvlTreeNode.setChild .right (some newNode))
      store newNode (TAvlTreeNode.setParent (some it))
      restoreHeightSizeAndBalanceOfTree it
      pure newNode

/-- `insert_before`; `it` is `NULL` for the first node of a tree. -/
def insertBefore (it : Option Ptr) (newNode : Ptr) : Prog (Tree α) ε Ptr := do
  store newNode (TAvlTreeNode.setSize 1)
  store newNode (TAvlTreeNode.setHeight 1)
  store newNode (TAvlTreeNode.setChild .left none)
  store newNode (TAvlTreeNode.setChild .right none)
  let this ← Prog.get
  if it = this.stump.begin_ then setStump (AvlTreeStump.setBegin (some newNode))
  else pure PUnit.unit
  link it newNode

/-- `rightmost` gets the links of `node`. -/
def takePlace (node rightmost : Ptr) : Prog (Tree α) ε PUnit := do
  replaceNode node (some rightmost)
  let newLeft ← load node TAvlTreeNode.left
  store rightmost (TAvlTreeNode.setChild .left newLeft)
  let newRight ← load node TAvlTreeNode.right
  store rightmost (TAvlTreeNode.setChild .right newRight)
  storeIfNotNull newLeft (TAvlTreeNode.setParent (some rightmost))
  storeIfNotNull newRight (TAvlTreeNode.setParent (some rightmost))

/-- The branch of `delete_` for a node with a left child: `rightmost`, the last
node before `node`, leaves its place and takes that of `node`. -/
def takeOver (node rightmost : Ptr) : Prog (Tree α) ε PUnit := do
  let oldParentOfRightmost ← load rightmost TAvlTreeNode.parent
  let leftOfRightmost ← load rightmost TAvlTreeNode.left
  replaceNode rightmost leftOfRightmost
  takePlace node rightmost
  if oldParentOfRightmost = some node then restoreHeightSizeAndBalanceOfTree rightmost
  else
    match oldParentOfRightmost with
    | none => stuck
    | some lowestIncorrect => restoreHeightSizeAndBalanceOfTree lowestIncorrect

/-- `delete_` without the destruction of the node: take `node` out of the tree. -/
def unlink (node : Ptr) : Prog (Tree α) ε PUnit := do
  match ← load node TAvlTreeNode.left with
  | none => do
    let parent ← load node TAvlTreeNode.parent
    let right ← load node TAvlTreeNode.right
    replaceNode node right
    match parent with
    | none => pure PUnit.unit
    | some parent => restoreHeightSizeAndBalanceOfTree parent
  | some left => do
    let rightmost ← findRightmost left
    takeOver node rightmost

/-- The end of `delete_`. -/
def destroyNode (node : Ptr) (needDestroyNode needDestroyValue : Bool) : Prog (Tree α) ε PUnit :=
  if needDestroyNode then do
    if needDestroyValue then destructValue node else pure PUnit.unit
    deallocate node
  else pure PUnit.unit

def delete_ (node : Ptr) (needDestroyNode needDestroyValue : Bool) : Prog (Tree α) ε PUnit := do
  let this ← Prog.get
  if node = this.stump.beforeBegin ∨ node = this.stump.end_ then pure PUnit.unit
  else do
    unlink node
    destroyNode node needDestroyNode needDestroyValue

def deleteAndGetNext (node : Option Ptr) (needDestroyNode needDestroyValue : Bool) :
    Prog (Tree α) ε (Option Ptr) :=
  match node with
  | none => pure none
  | some node => do
    let next ← forward node
    let this ← Prog.get
    delete_ node needDestroyNode needDestroyValue
    if this.stump.begin_ = some node then setStump (AvlTreeStump.setBegin next)
    else pure PUnit.unit
    pure next

def getNextAndRemoveNode (goingToRemove : Option Ptr) : Prog (Tree α) ε (Option Ptr) :=
  deleteAndGetNext goingToRemove false true

/-! ### The whole tree -/

def resetInvariant : Prog (Tree α) ε PUnit := do
  let this ← Prog.get
  store this.stump.beforeBegin TAvlTreeNode.resetInvariant
  store this.stump.end_ TAvlTreeNode.resetInvariant
  setStump (AvlTreeStump.setRoot none)
  let end_ ← insertBefore none this.stump.end_
  let _ ← insertBefore (some end_) this.stump.beforeBegin
  setStump (AvlTreeStump.setBegin (some end_))

/-- Delete the elements from `it` up to but not including `last`. -/
def deleteUpTo (it : Option Ptr) (last : Ptr) : Prog (Tree α) ε PUnit :=
  rounds (fun it =>
    if it = some last then pure (.inr PUnit.unit)
    else do
      let next ← deleteAndGetNext it true true
      pure (.inl next)) it

def destructValueAndDeleteNodeSinceBeginToBeforeEnd : Prog (Tree α) ε PUnit := do
  let this ← Prog.get
  deleteUpTo this.stump.begin_ this.stump.end_

def treeToVineWithPreserveInvariantsOnlyForMemberRight : Prog (Tree α) ε Ptr := do
  let this ← Prog.get
  match this.stump.root with
  | none => stuck
  | some root => do
    let rightmost ← findRightmost root
    rounds (fun current => do
      let current ← rounds (fun current => do
        match ← load current TAvlTreeNode.left with
        | none => pure (.inr current)
        | some _ => do
          let pivot ← rightRotate current false
          match ← load pivot TAvlTreeNode.right with
          | none => stuck
          | some right => pure (.inl right)) current
      match ← load current TAvlTreeNode.parent with
      | none => pure (.inr current)
      | some parent => pure (.inl parent)) rightmost

/-- `moveNodes()`: the intrusive list is given by its nodes. -/
def moveNodes : Prog (Tree α) ε (List Ptr) := do
  let vine ← treeToVineWithPreserveInvariantsOnlyForMemberRight
  let this ← Prog.get
  let first ← load vine TAvlTreeNode.right
  let result ← rounds (fun s : Option Ptr × List Ptr =>
    if s.1 = some this.stump.end_ then pure (.inr s.2)
    else
      match s.1 with
      | none => stuck
      | some nodeGoingToList => do
        let current ← load nodeGoingToList TAvlTreeNode.right
        store nodeGoingToList TAvlTreeNode.resetInvariant
        pure (.inl (current, s.2 ++ [nodeGoingToList]))) (first, [])
  resetInvariant
  pure result

/-- `moveNodes(from, to)`. -/
def moveNodesRange (from_ to_ : Ptr) : Prog (Tree α) ε (List Ptr) :=
  rounds (fun s : Option Ptr × List Ptr =>
    if s.1 = some to_ then pure (.inr s.2)
    else
      match s.1 with
      | none => stuck
      | some nodeGoingToList => do
        let current ← getNextAndRemoveNode (some nodeGoingToList)
        store nodeGoingToList TAvlTreeNode.resetInvariant
        pure (.inl (current, s.2 ++ [nodeGoingToList]))) (some from_, [])

/-- The loop of `insertNodesFromListAndReturnFirstInserted`: put the nodes before
`pos`, and return the first one. -/
def insertNodes (pos : Ptr) : List Ptr → Ptr → Bool → Prog (Tree α) ε Ptr
  | [], firstInserted, _ => pure firstInserted
  | node :: nodes, firstInserted, firstInsertedAlready => do
    let lastInserted ← insertBefore (some pos) node
    if firstInsertedAlready then insertNodes pos nodes firstInserted firstInsertedAlready
    else insertNodes pos nodes lastInserted true

def insertNodesFromListAndReturnFirstInserted (nodes : List Ptr) (pos : Ptr) :
    Prog (Tree α) ε Ptr := insertNodes pos nodes pos false

def makeNode (alloc : Allocator) (value : α) : Prog (Tree α) ε Ptr :=
  allocate alloc (TAvlTreeNode.make (some value))

/-- The loops that make the nodes of a bulk insertion, one for each value. -/
def makeNodes (alloc : Allocator) : List α → Prog (Tree α) ε (List Ptr)
  | [] => pure []
  | value :: values => do
    let node ← makeNode alloc value
    let nodes ← makeNodes alloc values
    pure (node :: nodes)

def construct (alloc : Allocator) : Prog (Tree α) ε PUnit := do
  let beforeBegin ← allocate alloc (TAvlTreeNode.make none)
  let end_ ← allocate alloc (TAvlTreeNode.make none)
  setStump fun _ => { beforeBegin, begin_ := none, end_, root := none }
  resetInvariant

def destruct : Prog (Tree α) ε PUnit := do
  destructValueAndDeleteNodeSinceBeginToBeforeEnd
  let this ← Prog.get
  deallocate this.stump.beforeBegin
  deallocate this.stump.end_

end AvlTreeStump

end Garbage.RandomAccessList
