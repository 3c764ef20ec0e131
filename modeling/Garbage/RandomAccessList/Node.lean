import Garbage.Foundation.Prog
import Garbage.Foundation.Zipper

/-!
# Nodes and the memory they live in

`TAvlTreeNode` is a node of `random_access_list`: storage for a value, three
pointers and two cached numbers.  A pointer is a `Ptr`, `NULL` is `none`.  The
value is `none` while no object is constructed in the storage, as in the two
gap nodes of a list.

A `Heap` has a node at every address and says which addresses are allocated.
`load` and `store` are stuck on an address that is not, so a program that is
not stuck touches no freed node.  An `Allocator` may hand out a freed address
again, but never one in use.
-/

namespace Garbage.RandomAccessList

open Foundation (Prog Side)
open Foundation.Prog

/-- The address of a node. -/
abbrev Ptr := Nat

structure TAvlTreeNode (α : Type) where
  value : Option α
  parent : Option Ptr
  height : Nat
  size : Nat
  left : Option Ptr
  right : Option Ptr

namespace TAvlTreeNode

variable {α : Type}

/-- The constructors: with a value, or of a gap node. -/
def make (value : Option α) : TAvlTreeNode α :=
  { value, parent := none, height := 1, size := 1, left := none, right := none }

def resetInvariant (node : TAvlTreeNode α) : TAvlTreeNode α :=
  { node with right := none, left := none, parent := none, size := 1, height := 1 }

/-- `_left` or `_right`. -/
def child (side : Side) (node : TAvlTreeNode α) : Option Ptr :=
  match side with
  | .left => node.left
  | .right => node.right

def setChild (side : Side) (p : Option Ptr) (node : TAvlTreeNode α) : TAvlTreeNode α :=
  match side with
  | .left => { node with left := p }
  | .right => { node with right := p }

def setParent (p : Option Ptr) (node : TAvlTreeNode α) : TAvlTreeNode α := { node with parent := p }

def setSize (n : Nat) (node : TAvlTreeNode α) : TAvlTreeNode α := { node with size := n }

def setHeight (n : Nat) (node : TAvlTreeNode α) : TAvlTreeNode α := { node with height := n }

section Fields

variable (side : Side) (p : Option Ptr) (n : Nat) (node : TAvlTreeNode α)

@[simp] theorem child_setChild_self : (node.setChild side p).child side = p := by
  cases side <;> rfl

@[simp] theorem child_setChild_flip :
    (node.setChild side p).child side.flip = node.child side.flip := by cases side <;> rfl

@[simp] theorem child_flip_setChild :
    (node.setChild side.flip p).child side = node.child side := by cases side <;> rfl

@[simp] theorem value_setChild : (node.setChild side p).value = node.value := by
  cases side <;> rfl

@[simp] theorem parent_setChild : (node.setChild side p).parent = node.parent := by
  cases side <;> rfl

@[simp] theorem height_setChild : (node.setChild side p).height = node.height := by
  cases side <;> rfl

@[simp] theorem size_setChild : (node.setChild side p).size = node.size := by
  cases side <;> rfl

@[simp] theorem child_setParent : (node.setParent p).child side = node.child side := by
  cases side <;> rfl

@[simp] theorem value_setParent : (node.setParent p).value = node.value := rfl

@[simp] theorem parent_setParent : (node.setParent p).parent = p := rfl

@[simp] theorem height_setParent : (node.setParent p).height = node.height := rfl

@[simp] theorem size_setParent : (node.setParent p).size = node.size := rfl

@[simp] theorem child_setSize : (node.setSize n).child side = node.child side := by
  cases side <;> rfl

@[simp] theorem value_setSize : (node.setSize n).value = node.value := rfl

@[simp] theorem parent_setSize : (node.setSize n).parent = node.parent := rfl

@[simp] theorem height_setSize : (node.setSize n).height = node.height := rfl

@[simp] theorem size_setSize : (node.setSize n).size = n := rfl

@[simp] theorem child_setHeight : (node.setHeight n).child side = node.child side := by
  cases side <;> rfl

@[simp] theorem value_setHeight : (node.setHeight n).value = node.value := rfl

@[simp] theorem parent_setHeight : (node.setHeight n).parent = node.parent := rfl

@[simp] theorem height_setHeight : (node.setHeight n).height = n := rfl

@[simp] theorem size_setHeight : (node.setHeight n).size = node.size := rfl

@[simp] theorem child_resetInvariant : node.resetInvariant.child side = none := by
  cases side <;> rfl

@[simp] theorem value_resetInvariant : node.resetInvariant.value = node.value := rfl

end Fields

end TAvlTreeNode

/-- The memory: the nodes, the allocated addresses, and how many allocations
there were. -/
structure Heap (α : Type) where
  node : Ptr → TAvlTreeNode α
  live : List Ptr
  allocations : Nat

/-- An allocator: the address of the next allocation, none that is in use. -/
structure Allocator where
  pick : Nat → List Ptr → Ptr
  fresh : ∀ n live, pick n live ∉ live

namespace Heap

variable {α : Type}

def set (h : Heap α) (p : Ptr) (f : TAvlTreeNode α → TAvlTreeNode α) : Heap α :=
  { h with node := fun q => if q = p then f (h.node p) else h.node q }

/-- Allocate a node at `p` and construct it. -/
def add (h : Heap α) (p : Ptr) (node : TAvlTreeNode α) : Heap α :=
  { node := fun q => if q = p then node else h.node q
    live := p :: h.live
    allocations := h.allocations + 1 }

def free (h : Heap α) (p : Ptr) : Heap α := { h with live := h.live.erase p }

@[simp] theorem live_set (h : Heap α) (p : Ptr) (f : TAvlTreeNode α → TAvlTreeNode α) :
    (h.set p f).live = h.live := rfl

@[simp] theorem allocations_set (h : Heap α) (p : Ptr) (f : TAvlTreeNode α → TAvlTreeNode α) :
    (h.set p f).allocations = h.allocations := rfl

@[simp] theorem node_set_self (h : Heap α) (p : Ptr) (f : TAvlTreeNode α → TAvlTreeNode α) :
    (h.set p f).node p = f (h.node p) := if_pos rfl

theorem node_set_of_ne {q p : Ptr} (hq : q ≠ p) (h : Heap α)
    (f : TAvlTreeNode α → TAvlTreeNode α) : (h.set p f).node q = h.node q := if_neg hq

end Heap

/-! ### Programs on the memory

The programs of one list work on its `Tree`: the memory and the members of its
`avl_tree_stump`. -/

structure AvlTreeStump where
  beforeBegin : Ptr
  begin_ : Option Ptr
  end_ : Ptr
  root : Option Ptr

def AvlTreeStump.setRoot (p : Option Ptr) (stump : AvlTreeStump) : AvlTreeStump :=
  { stump with root := p }

def AvlTreeStump.setBegin (p : Option Ptr) (stump : AvlTreeStump) : AvlTreeStump :=
  { stump with begin_ := p }

/-- The cached `begin` after the insertion of a node before `it`. -/
def AvlTreeStump.inserted (it : Option Ptr) (newNode : Ptr) (stump : AvlTreeStump) : AvlTreeStump :=
  if it = stump.begin_ then stump.setBegin (some newNode) else stump

/-- What a program on one list sees. -/
structure Tree (α : Type) where
  heap : Heap α
  stump : AvlTreeStump

variable {α ε β : Type}

def load (p : Ptr) (field : TAvlTreeNode α → β) : Prog (Tree α) ε β :=
  read fun t => if p ∈ t.heap.live then some (field (t.heap.node p)) else none

def store (p : Ptr) (f : TAvlTreeNode α → TAvlTreeNode α) : Prog (Tree α) ε PUnit :=
  update fun t => if p ∈ t.heap.live then some { t with heap := t.heap.set p f } else none

/-- Write to the members of the tree. -/
def setStump (f : AvlTreeStump → AvlTreeStump) : Prog (Tree α) ε PUnit :=
  Prog.modify fun t => { t with stump := f t.stump }

/-- Allocate a node and construct it. -/
def allocate (alloc : Allocator) (node : TAvlTreeNode α) : Prog (Tree α) ε Ptr := fun t =>
  let p := alloc.pick t.heap.allocations t.heap.live
  some (.ok p, { t with heap := t.heap.add p node })

def deallocate (p : Ptr) : Prog (Tree α) ε PUnit :=
  update fun t => if p ∈ t.heap.live then some { t with heap := t.heap.free p } else none

/-- Destroy the value of a node, stuck where there is none. -/
def destructValue (p : Ptr) : Prog (Tree α) ε PUnit := do
  assert fun t => (t.heap.node p).value.isSome
  store p fun node => { node with value := none }

/-- A loop over nodes, for at most as many rounds as there are nodes and one more. -/
def rounds {γ : Type} (body : β → Prog (Tree α) ε (β ⊕ γ)) (start : β) : Prog (Tree α) ε γ := do
  let t ← Prog.get
  loop body (t.heap.live.length + 1) start

section Wp

variable {γ : Type} {E : ε → Tree α → Prop} {t : Tree α}

@[simp] theorem wp_load {p : Ptr} {field : TAvlTreeNode α → β} {Q : β → Tree α → Prop} :
    wp (load p field) Q E t ↔ p ∈ t.heap.live ∧ Q (field (t.heap.node p)) t := by
  unfold load
  rw [wp_read]
  by_cases hp : p ∈ t.heap.live <;> simp [hp]

@[simp] theorem wp_store {p : Ptr} {f : TAvlTreeNode α → TAvlTreeNode α}
    {Q : PUnit → Tree α → Prop} :
    wp (store p f) Q E t ↔
      p ∈ t.heap.live ∧ Q PUnit.unit { t with heap := t.heap.set p f } := by
  unfold store
  rw [wp_update]
  by_cases hp : p ∈ t.heap.live <;> simp [hp]

@[simp] theorem wp_setStump {f : AvlTreeStump → AvlTreeStump} {Q : PUnit → Tree α → Prop} :
    wp (setStump f) Q E t ↔ Q PUnit.unit { t with stump := f t.stump } := Iff.rfl

@[simp] theorem wp_allocate {alloc : Allocator} {node : TAvlTreeNode α} {Q : Ptr → Tree α → Prop} :
    wp (allocate alloc node) Q E t ↔
      Q (alloc.pick t.heap.allocations t.heap.live)
        { t with heap := t.heap.add (alloc.pick t.heap.allocations t.heap.live) node } := Iff.rfl

@[simp] theorem wp_deallocate {p : Ptr} {Q : PUnit → Tree α → Prop} :
    wp (deallocate p) Q E t ↔
      p ∈ t.heap.live ∧ Q PUnit.unit { t with heap := t.heap.free p } := by
  unfold deallocate
  rw [wp_update]
  by_cases hp : p ∈ t.heap.live <;> simp [hp]

@[simp] theorem wp_destructValue {p : Ptr} {Q : PUnit → Tree α → Prop} :
    wp (destructValue p) Q E t ↔
      (t.heap.node p).value.isSome ∧ p ∈ t.heap.live ∧
        Q PUnit.unit { t with heap := t.heap.set p fun node => { node with value := none } } := by
  unfold destructValue
  rw [wp_bind, wp_assert, wp_store]

theorem wp_rounds {body : β → Prog (Tree α) ε (β ⊕ γ)} {Q : γ → Tree α → Prop}
    {I : Nat → β → Tree α → Prop}
    (hbody : ∀ n b t, I n b t → wp (body b) (fun r t' =>
      match r with
      | .inl b' => ∃ m, m < n ∧ I m b' t'
      | .inr c => Q c t') E t)
    {start : β} (n : Nat) (hI : I n start t) (hn : n ≤ t.heap.live.length) :
    wp (rounds body start) Q E t := by
  unfold rounds
  rw [wp_bind, wp_get]
  exact wp_loop hbody _ n start t hI (Nat.lt_succ_of_le hn)

end Wp

end Garbage.RandomAccessList
