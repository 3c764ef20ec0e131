import Garbage.RandomAccessList.Insertions
import Mathlib.Data.List.AList

/-!
# The object behind a list

A list variable is a pointer `_implementation` to a block of its own, in which the
tree object is constructed.  `Memory` has these blocks beside the nodes: a block is
allocated where `blocks` has its address, and then holds an object or not yet.  So
an object cannot be in a block that was given back.

`makeImplementation` gives the block to a smart pointer first and constructs the
object then.  If the constructor throws, the pointer's deleter runs the destructor
of the object that is not there (`not_wp_makeImplementation`).  It throws where the
allocation of one of the gap nodes does.
-/

namespace Garbage.RandomAccessList

open Foundation (Prog Machine Execution)
open Foundation.Prog
open Foundation.Execution

variable {α β ε : Type}

/-- The memory: the nodes, and the blocks of the implementations, each with the
members of its object once that is constructed. -/
structure Memory (α : Type) where
  heap : Heap α
  blocks : AList fun _ : Ptr => Option AvlTreeStump
  blockAllocations : Nat

namespace Memory

/-- The lists, one for each constructed object. -/
def world (m : Memory α) : World α where
  heap := m.heap
  lists b := (m.blocks.lookup b).join

def add (m : Memory α) (b : Ptr) : Memory α :=
  { m with blocks := m.blocks.insert b none, blockAllocations := m.blockAllocations + 1 }

/-- What a program on the tree in block `b` leaves. -/
def put (m : Memory α) (b : Ptr) (tree : Tree α) : Memory α :=
  { m with heap := tree.heap, blocks := m.blocks.insert b (some tree.stump) }

end Memory

namespace Throwing

/-! ### Blocks and objects -/

/-- A block that is not in use. -/
def takeBlock (blockAlloc : Allocator) : Prog (Memory α) Thrown Ptr := fun m =>
  let b := blockAlloc.pick m.blockAllocations m.blocks.keys
  some (.ok b, m.add b)

/-- `TImplementationAllocatorTraits::allocate(implAllocator, 1)`. -/
def allocateBlock (blockAlloc : Allocator) : Prog (Execution (Memory α)) Thrown Ptr := do
  mayThrow .allocation
  within (takeBlock blockAlloc)

def deallocateBlock (b : Ptr) : Prog (Execution (Memory α)) Thrown PUnit :=
  within (update fun m =>
    if b ∈ m.blocks then some { m with blocks := m.blocks.erase b } else none)

/-- From now on there is an object in the block, or none. -/
def setObject (b : Ptr) (object : Option AvlTreeStump) : Prog (Execution (Memory α)) Thrown PUnit :=
  within (Prog.modify fun m => { m with blocks := m.blocks.insert b object })

/-- A program on members that are in no block; they are a part of the result. -/
def onMembers (members : AvlTreeStump) (x : Prog (Execution (Tree α)) Thrown PUnit) :
    Prog (Execution (Memory α)) Thrown AvlTreeStump := fun t =>
  match x (t.withData ⟨t.data.heap, members⟩) with
  | none => none
  | some (.ok _, t') =>
    some (.ok t'.data.stump, t'.withData { t.data with heap := t'.data.heap })
  | some (.error e, t') => some (.error e, t'.withData { t.data with heap := t'.data.heap })

/-- A program on the object in a block, stuck where there is none. -/
def onObject (b : Ptr) (x : Prog (Execution (Tree α)) Thrown β) :
    Prog (Execution (Memory α)) Thrown β := fun t =>
  match (t.data.blocks.lookup b).join with
  | none => none
  | some members =>
    match x (t.withData ⟨t.data.heap, members⟩) with
    | none => none
    | some (r, t') => some (r, t'.withData (t.data.put b t'.data))

/-! ### The constructor of the tree -/

/-- `makeEmptyNode(node)`; `assign` assigns the member that `node` is. -/
def makeEmptyNode (alloc : Allocator) (assign : Ptr → AvlTreeStump → AvlTreeStump) :
    Prog (Execution (Tree α)) Thrown PUnit := do
  let node ← allocateNodeInternal alloc
  within (setStump (assign node))
  scopeExit (within (store node fun _ => TAvlTreeNode.make none))
    (whenUnwinding (within (deallocate node)))

/-- `deleteEmptyNode(before_begin())`. -/
def deleteBeforeBegin : Prog (Execution (Tree α)) Thrown PUnit := within do
  let this ← Prog.get
  deallocate this.stump.beforeBegin

def constructCacheAndAllocator (alloc : Allocator) : Prog (Execution (Tree α)) Thrown PUnit := do
  makeEmptyNode alloc fun node stump => { stump with beforeBegin := node }
  scopeExit (makeEmptyNode alloc fun node stump => { stump with end_ := node })
    (whenUnwinding deleteBeforeBegin)

/-- The constructor of `avl_tree_stump`, in a block. -/
def constructObject (alloc : Allocator) (b : Ptr) : Prog (Execution (Memory α)) Thrown PUnit := do
  let members ← onMembers World.unconstructed do
    constructCacheAndAllocator alloc
    within AvlTreeStump.resetInvariant
  setObject b (some members)

/-! ### The pointer to it -/

variable (this : Implementation α Thrown)

def destroyObject (b : Ptr) : Prog (Execution (Memory α)) Thrown PUnit := do
  onObject b (within this.destruct)
  setObject b none

/-- `TImplementatationDeleter`. -/
def deleteImplementation (b : Ptr) : Prog (Execution (Memory α)) Thrown PUnit :=
  scopeExit (destroyObject this b) (deallocateBlock b)

def makeImplementation (alloc blockAlloc : Allocator) : Prog (Execution (Memory α)) Thrown Ptr := do
  let result ← allocateBlock blockAlloc
  onUnwind (constructObject alloc result) (deleteImplementation this result)
  pure result

end Throwing

/-! ### What is left -/

/-- Everything is as before: the same blocks with the same objects, and in the
memory of the nodes nothing is left of what was made. -/
structure Restored (m m' : Memory α) : Prop where
  blocks : ∀ b, m'.blocks.lookup b = m.blocks.lookup b
  heap : Grown [] m.heap m'.heap

/-- A list whose nodes were all made since `h`; its gap nodes have no value. -/
structure Temporary (h : Heap α) (cells : List (Cell α)) (s : Tree α) : Prop where
  holds : Holds s cells
  grown : Grown (own s.stump cells) h s.heap
  gaps : ∀ x ∈ own s.stump ([] : List (Cell α)), (s.heap.node x).value = none

/-- One list more: a new block with an object, which holds `cells` in new nodes. -/
structure WithList (b : Ptr) (stump : AvlTreeStump) (cells : List (Cell α)) (m m' : Memory α) :
    Prop where
  fresh : b ∉ m.blocks
  object : m'.blocks.lookup b = some (some stump)
  blocks : ∀ b', b' ≠ b → m'.blocks.lookup b' = m.blocks.lookup b'
  list : Temporary m.heap cells ⟨m'.heap, stump⟩

/-- What the deleter leaves of a list: its block and its nodes are given back, and its
elements were destroyed. -/
structure Deleted (b : Ptr) (stump : AvlTreeStump) (cells : List (Cell α)) (m m' : Memory α) :
    Prop where
  object : m'.blocks.lookup b = none
  blocks : ∀ b', b' ≠ b → m'.blocks.lookup b' = m.blocks.lookup b'
  outside : Outside (own stump cells) m.heap m'.heap
  live : m.heap.live.Perm (own stump cells ++ m'.heap.live)
  value : ∀ x, (m'.heap.node x).value =
    if x ∈ nodes cells then none else (m.heap.node x).value

theorem WithList.restored {b : Ptr} {stump : AvlTreeStump} {cells : List (Cell α)}
    {m m' m'' : Memory α} (hW : WithList b stump cells m m')
    (hD : Deleted b stump cells m' m'') : Restored m m'' := by
  refine ⟨fun b' => ?_, hW.list.grown.destroyed hD.outside hD.live (fun x => ?_) fun x hx => ?_⟩
  · by_cases hb : b' = b
    · rw [hb, hD.object, AList.lookup_eq_none.mpr hW.fresh]
    · rw [hD.blocks b' hb, hW.blocks b' hb]
  · rw [hD.value]
    split
    · exact .inr rfl
    · exact .inl rfl
  · rw [hD.value]
    split
    · rfl
    · next hn =>
      refine hW.list.gaps x ?_
      simp only [own, List.mem_cons, List.mem_append] at hx ⊢
      tauto

/-! ### The constructor throws or does not -/

namespace Throwing

variable {this : Implementation α Thrown} {alloc : Allocator}

section Members

variable {t : Execution (Tree α)} {Q : PUnit → Execution (Tree α) → Prop}
  {E : Thrown → Execution (Tree α) → Prop}

theorem wp_makeEmptyNode {assign : Ptr → AvlTreeStump → AvlTreeStump} (hu : t.uncaught = 0)
    (hQ : t.failAt ≠ some 0 → ∀ p t', Passes 1 t t' → t'.data.stump = assign p t.data.stump →
      Grown [p] t.data.heap t'.data.heap → (t'.data.heap.node p).value = none → Q PUnit.unit t')
    (hE : t.failAt = some 0 → E .allocation t.thrown) :
    wp (makeEmptyNode alloc assign) Q E t := by
  have hfresh := alloc.fresh t.data.heap.allocations t.data.heap.live
  unfold makeEmptyNode allocateNodeInternal
  rw [wp_bind, wp_bind, wp_mayThrow_iff]
  refine ⟨hE, fun hf => ?_⟩
  rw [wp_within, wp_allocate, passed_data]
  generalize alloc.pick t.data.heap.allocations t.data.heap.live = p at hfresh
  rw [wp_bind, wp_within, wp_setStump, wp_scopeExit, wp_within, wp_store]
  refine ⟨List.mem_cons_self, ?_⟩
  rw [wp_whenUnwinding]
  refine ⟨fun hpos => absurd hpos (by simp [hu]), fun _ => ?_⟩
  refine hQ hf p _ ⟨rfl, rfl⟩ rfl ?_ ?_
  · exact (Grown.add t.data.heap hfresh (TAvlTreeNode.make none)).set List.mem_cons_self
      fun _ => TAvlTreeNode.make none
  · exact congrArg TAvlTreeNode.value (if_pos rfl)

/-- The constructor of `TCacheAndAllocator` makes both gap nodes, or leaves none. -/
theorem wp_constructCacheAndAllocator (hu : t.uncaught = 0)
    (hQ : t.failAt ≠ some 0 → t.failAt ≠ some 1 → ∀ p q t', Passes 2 t t' → p ≠ q →
      t'.data.stump = { t.data.stump with beforeBegin := p, end_ := q } →
      Grown [q, p] t.data.heap t'.data.heap →
      (∀ x ∈ [p, q], (t'.data.heap.node x).value = none) → Q PUnit.unit t')
    (hE : t.failAt = some 0 ∨ t.failAt = some 1 → ∀ e t', Raised t t' →
      Grown [] t.data.heap t'.data.heap → E e t') :
    wp (constructCacheAndAllocator alloc) Q E t := by
  unfold constructCacheAndAllocator
  rw [wp_bind]
  refine wp_makeEmptyNode hu (fun h0 p t₁ hpass hst hG hnone => ?_) fun h0 =>
    hE (.inl h0) _ _ (thrown_raised (by rw [h0]; exact nofun)) (.refl _)
  have h1 : t₁.failAt = some 0 ↔ t.failAt = some 1 := hpass.failAt_iff_one h0 0
  have hu₁ : t₁.uncaught = 0 := hpass.uncaught.trans hu
  rw [wp_scopeExit]
  refine wp_makeEmptyNode hu₁ (fun h2 q t₂ hpass' hst' hG' hnone' => ?_) fun h2 => ?_
  · rw [wp_whenUnwinding]
    refine ⟨fun hpos => absurd hpos (by rw [hpass'.uncaught, hu₁]; decide), fun _ => ?_⟩
    have hp : p ∈ t₁.data.heap.live := hG.mem_live.mpr (.inl List.mem_cons_self)
    refine hQ h0 (fun h => h2 (h1.mpr h)) p q t₂ (hpass.trans hpass') ?_ ?_ (hG.trans hG')
      fun x hx => ?_
    · rintro rfl
      exact hG'.fresh p List.mem_cons_self hp
    · rw [hst', hst]
    · rcases List.mem_pair.mp hx with rfl | rfl
      · rw [hG'.node x hp]
        exact hnone
      · exact hnone'
  · rw [wp_whenUnwinding]
    refine ⟨fun _ => ?_, fun hzero => by cases hzero⟩
    unfold deleteBeforeBegin
    rw [wp_within, wp_bind, wp_get, wp_deallocate, thrown_data, hst]
    have hfail := h1.mp h2
    refine ⟨hG.mem_live.mpr (.inl List.mem_cons_self), hE (.inr hfail) _ _ ?_ (hG.free hnone)⟩
    exact (raised_withData_right _).mpr ⟨by rw [thrown_uncaught, hpass.uncaught], by
      rw [hfail]
      exact nofun⟩

end Members

section Objects

variable {t : Execution (Memory α)} {b : Ptr} {members stump : AvlTreeStump}
  {cells : List (Cell α)} {m : Memory α}

theorem wp_onMembers {x : Prog (Execution (Tree α)) Thrown PUnit}
    {Q : AvlTreeStump → Execution (Memory α) → Prop} {E : Thrown → Execution (Memory α) → Prop} :
    wp (onMembers members x) Q E t ↔
      wp x (fun _ t' => Q t'.data.stump (t'.withData { t.data with heap := t'.data.heap }))
        (fun e t' => E e (t'.withData { t.data with heap := t'.data.heap }))
        (t.withData ⟨t.data.heap, members⟩) := by
  unfold wp onMembers
  cases x (t.withData ⟨t.data.heap, members⟩) with
  | none => exact Iff.rfl
  | some r => obtain ⟨r | b, t'⟩ := r <;> exact Iff.rfl

theorem wp_onObject {x : Prog (Execution (Tree α)) Thrown β} {Q : β → Execution (Memory α) → Prop}
    {E : Thrown → Execution (Memory α) → Prop} (hb : t.data.blocks.lookup b = some (some members)) :
    wp (onObject b x) Q E t ↔
      wp x (fun r t' => Q r (t'.withData (t.data.put b t'.data)))
        (fun e t' => E e (t'.withData (t.data.put b t'.data)))
        (t.withData ⟨t.data.heap, members⟩) := by
  have hmembers : (t.data.blocks.lookup b).join = some members := by rw [hb]; rfl
  unfold wp onObject
  rw [hmembers]
  dsimp only
  cases x (t.withData ⟨t.data.heap, members⟩) with
  | none => exact Iff.rfl
  | some r => obtain ⟨r | b, t'⟩ := r <;> exact Iff.rfl

theorem not_wp_onObject {x : Prog (Execution (Tree α)) Thrown β}
    {Q : β → Execution (Memory α) → Prop} {E : Thrown → Execution (Memory α) → Prop}
    (hb : t.data.blocks.lookup b = some none) : ¬ wp (onObject b x) Q E t := by
  unfold wp onObject
  rw [hb]
  exact id

variable {Q : PUnit → Execution (Memory α) → Prop} {E : Thrown → Execution (Memory α) → Prop}

theorem wp_deallocateBlock (hb : b ∈ t.data.blocks)
    (hQ : Q PUnit.unit (t.withData { t.data with blocks := t.data.blocks.erase b })) :
    wp (deallocateBlock b) Q E t := by
  unfold deallocateBlock
  rw [wp_within, wp_update]
  exact ⟨_, if_pos hb, hQ⟩

theorem wp_allocateBlock {blockAlloc : Allocator} {Q : Ptr → Execution (Memory α) → Prop}
    (hQ : t.failAt ≠ some 0 → ∀ b, b ∉ t.data.blocks →
      Q b ((t.passed 1).withData (t.data.add b)))
    (hE : t.failAt = some 0 → E .allocation t.thrown) : wp (allocateBlock blockAlloc) Q E t := by
  unfold allocateBlock
  rw [wp_bind, wp_mayThrow_iff]
  refine ⟨hE, fun h0 => ?_⟩
  rw [wp_within]
  exact hQ h0 _ (blockAlloc.fresh t.data.blockAllocations t.data.blocks.keys)

/-- The constructor of `avl_tree_stump` constructs an empty list, or throws and leaves
no node. -/
theorem wp_constructObject (hu : t.uncaught = 0)
    (hQ : t.failAt ≠ some 0 → t.failAt ≠ some 1 → ∀ stump t', Passes 2 t t' →
      t'.data.blocks = t.data.blocks.insert b (some stump) →
      Temporary t.data.heap [] ⟨t'.data.heap, stump⟩ → Q PUnit.unit t')
    (hE : t.failAt = some 0 ∨ t.failAt = some 1 → ∀ e t', Raised t t' →
      t'.data.blocks = t.data.blocks → Grown [] t.data.heap t'.data.heap → E e t') :
    wp (constructObject alloc b) Q E t := by
  unfold constructObject
  rw [wp_bind, wp_onMembers, wp_bind]
  refine wp_constructCacheAndAllocator hu (fun h0 h1 p q t' hpass hne hst hG hnone => ?_)
    fun hfail e t' hR hG => ?_
  · have hp : p ∈ t'.data.heap.live := hG.mem_live.mpr (.inl (by simp))
    have hq : q ∈ t'.data.heap.live := hG.mem_live.mpr (.inl (by simp))
    rw [wp_within]
    refine (AvlTreeStump.wp_resetInvariant (by rw [hst]; exact hne) (by rw [hst]; exact hp)
      (by rw [hst]; exact hq)).imp ?_
    rintro _ s' ⟨hH, hends, he⟩
    have hown : own t'.data.stump ([] : List (Cell α)) = [p, q] := by
      rw [hst]
      rfl
    unfold setObject
    rw [wp_within, wp_modify]
    have hown' : own s'.stump ([] : List (Cell α)) = [p, q] := (hends.own_eq []).trans hown
    refine hQ h0 h1 s'.stump _ ⟨hpass.uncaught, hpass.failAt⟩ rfl ⟨hH, ?_, fun x hx => ?_⟩
    · rw [hown']
      exact (hG.edits (hown ▸ he) (by simp)).perm (List.Perm.swap p q [])
    · exact (he.value x).trans (hnone x (hown' ▸ hx))
  · exact hE hfail e _ (by simpa using hR) rfl hG

/-! ### The pointer deletes its object -/

theorem wp_deleteImplementation (w : Nat) (hb : t.data.blocks.lookup b = some (some stump))
    (hH : Holds ⟨t.data.heap, stump⟩ cells)
    (hQ : ∀ t', Continues t t' → Deleted b stump cells t.data t'.data → Q PUnit.unit t') :
    wp (deleteImplementation (released w) b) Q E t := by
  unfold deleteImplementation destroyObject
  rw [wp_scopeExit, wp_bind, wp_onObject hb, wp_within]
  refine (AvlTreeStump.wp_destruct_exact hH).imp ?_
  rintro _ s' ⟨hout, hlive, hvalue⟩
  unfold setObject
  rw [wp_within, wp_modify]
  refine wp_deallocateBlock ((AList.mem_insert _).mpr (.inl rfl)) (hQ _ ⟨rfl, Iff.rfl⟩
    ⟨AList.lookup_erase _ _, fun b' hb' => ?_, hout, hlive, hvalue⟩)
  rw [withData_data, AList.lookup_erase_ne hb']
  exact (AList.lookup_insert_ne hb').trans (AList.lookup_insert_ne hb')

/-- **`makeImplementation`** makes an empty list, or its block is not allocated. -/
theorem wp_makeImplementation (blockAlloc : Allocator) {Q : Ptr → Execution (Memory α) → Prop}
    (hu : t.uncaught = 0) (h1 : t.failAt ≠ some 1) (h2 : t.failAt ≠ some 2)
    (hQ : ∀ b stump t', t.failAt ≠ some 0 → Passes 3 t t' → WithList b stump [] t.data t'.data →
      Q b t')
    (hE : ∀ e t', t.failAt = some 0 → Raised t t' → Restored t.data t'.data → E e t') :
    wp (makeImplementation this alloc blockAlloc) Q E t := by
  unfold makeImplementation
  rw [wp_bind]
  refine wp_allocateBlock (fun h0 b hfresh => ?_) fun h0 => ?_
  · have hfail := (passes_passed t 1).failAt_iff_one h0
    rw [wp_bind, wp_onUnwind]
    refine wp_constructObject hu (fun _ _ stump t' hpass' hblocks hT => ?_) fun h => ?_
    · rw [wp_pure]
      refine hQ b stump t' h0 ((passes_passed t 1).trans ((passes_withData_left _).mp hpass'))
        ⟨hfresh, ?_, fun b' hb' => ?_, hT⟩
      · rw [hblocks]
        exact AList.lookup_insert _
      · rw [hblocks, AList.lookup_insert_ne hb']
        exact AList.lookup_insert_ne hb'
    · exact (h.elim (fun h => h1 ((hfail 0).mp h)) fun h => h2 ((hfail 1).mp h)).elim
  · exact hE _ _ h0 (thrown_raised (by rw [h0]; exact nofun)) ⟨fun _ => rfl, .refl _⟩

/-- **A gap node that cannot be allocated**: the deleter destroys what was never
constructed. -/
theorem not_wp_makeImplementation (blockAlloc : Allocator) {Q : Ptr → Execution (Memory α) → Prop}
    (hu : t.uncaught = 0) (h : t.failAt = some 1 ∨ t.failAt = some 2) :
    ¬ wp (makeImplementation this alloc blockAlloc) Q E t := by
  unfold makeImplementation
  refine not_wp_bind (wp_allocateBlock (fun h0 b hfresh hwp => ?_) fun h0 => ?_)
  · have hfail := (passes_passed t 1).failAt_iff_one h0
    rw [wp_bind, wp_onUnwind] at hwp
    have hthrows : wp (constructObject alloc b) (fun _ _ => False) (fun _ t' =>
        t'.data.blocks.lookup b = some none) ((t.passed 1).withData (t.data.add b)) := by
      refine wp_constructObject hu (fun h1 h2 _ _ _ _ _ => ?_) fun _ _ t' _ hblocks _ => ?_
      · exact h.elim (fun h => h1 ((hfail 0).mpr h)) fun h => h2 ((hfail 1).mpr h)
      · rw [hblocks]
        exact AList.lookup_insert _
    obtain ⟨r, t', hx, hok, herror⟩ := hthrows.outcome
    cases r with
    | ok _ => exact hok _ rfl
    | error e =>
      unfold wp at hwp
      rw [hx] at hwp
      unfold deleteImplementation destroyObject at hwp
      change wp _ _ _ t' at hwp
      rw [wp_scopeExit, wp_bind] at hwp
      exact not_wp_onObject (herror e rfl) hwp
  · rcases h with h | h <;> rw [h0] at h <;> cases h

end Objects

end Throwing

end Garbage.RandomAccessList
