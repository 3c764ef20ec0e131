import Garbage.RandomAccessList.AvlTreeStump

/-!
# Positions in the tree

The members of `avl_tree_stump` that go by position.  A node does not know its
position: `getIndex` adds it up on the way from the node to the root, and
`getByIndex` looks for it on the way from the root, both by the cached sizes.
The sum of `getIndex` may run below 0, so it is a `BitVec w`, the unsigned
`size_type` of `w` bits.  `goTo` takes one or two steps one by one, and more
steps by position.
-/

namespace Garbage.RandomAccessList

open Foundation (Prog Side)
open Foundation.Prog

namespace AvlTreeStump

variable {α ε : Type} (w : Nat)

def leftSubtreeSize (node : Ptr) : Prog (Tree α) ε Nat := do
  let left ← load node TAvlTreeNode.left
  nodeSize left

def rightSubtreeSize (node : Ptr) : Prog (Tree α) ε (BitVec w) := do
  let size ← load node TAvlTreeNode.size
  let leftSize ← leftSubtreeSize node
  pure (BitVec.ofNat w size - BitVec.ofNat w leftSize - 1)

def rightPathSize (node : Ptr) : Prog (Tree α) ε (BitVec w) := do
  let size ← rightSubtreeSize w node
  match ← load node TAvlTreeNode.right with
  | none => stuck
  | some right => do
    let rightSize ← rightSubtreeSize w right
    pure (size - rightSize)

def leftPathSize (node : Ptr) : Prog (Tree α) ε (BitVec w) := do
  match ← load node TAvlTreeNode.left with
  | none => pure 0
  | some left => do
    let size ← leftSubtreeSize node
    let leftSize ← leftSubtreeSize left
    pure (BitVec.ofNat w size - BitVec.ofNat w leftSize)

/-- What `getIndex` adds to its accumulator at a child of `parent`. -/
def pathSize (type : Side) (parent : Ptr) : Prog (Tree α) ε (BitVec w) :=
  match type with
  | .left => leftPathSize w parent
  | .right => do
    let size ← rightPathSize w parent
    pure (-size)

def getIndex (node : Ptr) : Prog (Tree α) ε (BitVec w) := do
  let last ← rounds (fun s : Ptr × BitVec w => do
    match ← load s.1 TAvlTreeNode.parent with
    | none => pure (.inr s)
    | some parent => do
      let type ← childType s.1
      let size ← pathSize w type parent
      pure (.inl (parent, s.2 + size))) (node, 0)
  let leftSize ← leftSubtreeSize last.1
  pure (BitVec.ofNat w leftSize - last.2)

structure Search where
  currentNode : Ptr
  leftIndexBorder : Nat
  currentIndex : Nat

/-- Go on at a child, with the positions left of it counted. -/
def Search.descend (child : Option Ptr) (leftIndexBorder : Nat)
    (shouldNeverReachHere : Prog (Tree α) ε (Search ⊕ Option Ptr)) :
    Prog (Tree α) ε (Search ⊕ Option Ptr) :=
  match child with
  | none => shouldNeverReachHere
  | some currentNode => do
    let leftSize ← leftSubtreeSize currentNode
    pure (.inl { currentNode, leftIndexBorder, currentIndex := leftIndexBorder + leftSize })

/-- The body of the loop of `getByIndex`. -/
def Search.body (searchedIndex : Nat)
    (shouldNeverReachHere : Prog (Tree α) ε (Search ⊕ Option Ptr)) (s : Search) :
    Prog (Tree α) ε (Search ⊕ Option Ptr) := do
  if s.currentIndex > searchedIndex then do
    let left ← load s.currentNode TAvlTreeNode.left
    descend left s.leftIndexBorder shouldNeverReachHere
  else if s.currentIndex < searchedIndex then do
    let leftSize ← leftSubtreeSize s.currentNode
    let right ← load s.currentNode TAvlTreeNode.right
    descend right (s.leftIndexBorder + leftSize + 1) shouldNeverReachHere
  else pure (.inr (some s.currentNode))

/-- `getByIndex`: position 0 is `beforeBegin`. -/
def getByIndex (searchedIndex : Nat) : Prog (Tree α) ε (Option Ptr) := do
  let this ← Prog.get
  match this.stump.root with
  | none => pure none
  | some root => do
    let size ← nodeSize this.stump.root
    if searchedIndex ≥ size then pure none
    else do
      let currentIndex ← leftSubtreeSize root
      rounds (Search.body searchedIndex (pure (.inr none)))
        { currentNode := root, leftIndexBorder := 0, currentIndex }

/-- `forward` or `backward` of a pointer that may be `NULL`. -/
def neighborOrNull (side : Side) (node : Option Ptr) : Prog (Tree α) ε (Option Ptr) :=
  match node with
  | none => pure none
  | some node => neighbor side node

def applyNTimes (functor : Option Ptr → Prog (Tree α) ε (Option Ptr)) :
    Nat → Option Ptr → Prog (Tree α) ε (Option Ptr)
  | 0, value => pure value
  | n + 1, value => do
    let value ← functor value
    applyNTimes functor n value

def goTo (node : Ptr) (stepAmount : Int) : Prog (Tree α) ε (Option Ptr) := do
  let maxLinearStepAmount := 2
  if stepAmount.natAbs ≤ maxLinearStepAmount then
    applyNTimes (neighborOrNull (if 0 ≤ stepAmount then .right else .left)) stepAmount.natAbs
      (some node)
  else do
    let sourceNodeIndex ← getIndex w node
    let destinationNodeIndex := sourceNodeIndex + BitVec.ofInt w stepAmount
    getByIndex destinationNodeIndex.toNat

/-- `distance`, as a `difference_type`. -/
def distance (left right : Ptr) : Prog (Tree α) ε Int := do
  let rightIndex ← getIndex w right
  let leftIndex ← getIndex w left
  pure (rightIndex - leftIndex).toInt

end AvlTreeStump

end Garbage.RandomAccessList
