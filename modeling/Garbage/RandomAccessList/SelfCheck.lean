import Garbage.RandomAccessList.Bulk

/-!
# The check of the list itself

`selfCheckIfConstructed` walks over the whole tree and asserts what has to hold
of it.  Here its assertions count: the program is stuck where one of them fails.
A list that `Holds` anything passes the check (`wp_selfCheckIfConstructed`).

`inorderOf` are the nodes of a list from left to right, read off the memory.
-/

namespace Garbage.RandomAccessList

open Foundation (Prog Side)
open Foundation.Prog
open Foundation.Zipper

variable {α ε : Type} {h : Heap α} {p : Ptr} {cells ca cb : List (Cell α)}

namespace AvlTreeStump

/-! ### Links -/

/-- A child of `node` points back to it, and so on below the child. -/
def checkChild (node : Ptr) (child : Option Ptr) (checkBelow : Ptr → Prog (Tree α) ε PUnit) :
    Prog (Tree α) ε PUnit :=
  match child with
  | none => pure PUnit.unit
  | some child => do
    let parent ← load child TAvlTreeNode.parent
    assert fun _ => parent = some node
    checkBelow child

def checkChildParent : Nat → Ptr → Prog (Tree α) ε PUnit
  | 0, _ => stuck
  | fuel + 1, node => do
    let left ← load node TAvlTreeNode.left
    checkChild node left (checkChildParent fuel)
    let right ← load node TAvlTreeNode.right
    checkChild node right (checkChildParent fuel)

def checkAllParents : Prog (Tree α) ε PUnit := do
  let this ← Prog.get
  match this.stump.root with
  | none => stuck
  | some root => do
    let parent ← load root TAvlTreeNode.parent
    assert fun _ => parent = none
    checkChildParent (this.heap.live.length + 1) root

def checkCouple (node : Ptr) : Prog (Tree α) ε PUnit := do
  let this ← Prog.get
  match ← load node TAvlTreeNode.parent with
  | none => assert fun _ => some node = this.stump.root
  | some parent => do
    let left ← load parent TAvlTreeNode.left
    let right ← load parent TAvlTreeNode.right
    assert fun _ => left = some node ∨ right = some node
    let top ← rounds (fun node => do
      match ← load node TAvlTreeNode.parent with
      | none => pure (.inr node)
      | some parent => pure (.inl parent)) node
    assert fun _ => some top = this.stump.root

/-- `checkBeforeBegin` or `checkEnd`: a gap node is the last node on its side. -/
def checkGap (side : Side) (gap : Ptr) : Prog (Tree α) ε PUnit := do
  checkCouple gap
  let this ← Prog.get
  match this.stump.root with
  | none => stuck
  | some root => do
    let extreme ← findExtreme side root
    assert fun _ => gap = extreme
    let child ← load gap (TAvlTreeNode.child side)
    assert fun _ => child = none

def checkBeforeBegin : Prog (Tree α) ε PUnit := do
  let this ← Prog.get
  checkGap .left this.stump.beforeBegin

def checkEnd : Prog (Tree α) ε PUnit := do
  let this ← Prog.get
  checkGap .right this.stump.end_

def checkBegin : Prog (Tree α) ε PUnit := do
  let this ← Prog.get
  match this.stump.begin_ with
  | none => stuck
  | some begin_ => do
    checkCouple begin_
    let next ← forward this.stump.beforeBegin
    assert fun _ => next = some begin_

def selfCheckWithoutHeightAndSizeIfConstructed : Prog (Tree α) ε PUnit := do
  checkAllParents
  checkBeforeBegin
  checkEnd
  checkBegin

/-! ### Numbers -/

def getAndCheckHeight : Nat → Option Ptr → Prog (Tree α) ε Nat
  | _, none => pure 0
  | 0, some _ => stuck
  | fuel + 1, some node => do
    let left ← load node TAvlTreeNode.left
    let leftHeight ← getAndCheckHeight fuel left
    let right ← load node TAvlTreeNode.right
    let rightHeight ← getAndCheckHeight fuel right
    let height ← load node TAvlTreeNode.height
    assert fun _ => 1 + max leftHeight rightHeight = height
    pure (1 + max leftHeight rightHeight)

def getAndCheckSize : Nat → Option Ptr → Prog (Tree α) ε Nat
  | _, none => pure 0
  | 0, some _ => stuck
  | fuel + 1, some node => do
    let left ← load node TAvlTreeNode.left
    let leftSize ← getAndCheckSize fuel left
    let right ← load node TAvlTreeNode.right
    let rightSize ← getAndCheckSize fuel right
    let size ← load node TAvlTreeNode.size
    assert fun _ => 1 + leftSize + rightSize = size
    pure (1 + leftSize + rightSize)

/-- The nodes from `begin` on, counted, with the two gap nodes. -/
def getAmount : Prog (Tree α) ε Nat := do
  let this ← Prog.get
  let amount ← rounds (fun s : Option Ptr × Nat =>
    match s.1 with
    | none => pure (.inr s.2)
    | some node =>
      if node = this.stump.end_ then pure (.inr s.2)
      else do
        let next ← forward node
        pure (.inl (next, s.2 + 1))) (this.stump.begin_, 0)
  pure (amount + 2)

def checkHeights : Prog (Tree α) ε PUnit := do
  let this ← Prog.get
  let real ← getAndCheckHeight (this.heap.live.length + 1) this.stump.root
  let height ← nodeHeight this.stump.root
  assert fun _ => real = height

def checkSizes : Prog (Tree α) ε PUnit := do
  let this ← Prog.get
  let real ← getAndCheckSize (this.heap.live.length + 1) this.stump.root
  let size ← nodeSize this.stump.root
  assert fun _ => real = size
  let amount ← getAmount
  assert fun _ => amount = size

def selfCheckIfConstructed : Prog (Tree α) ε PUnit := do
  selfCheckWithoutHeightAndSizeIfConstructed
  checkHeights
  checkSizes

end AvlTreeStump

open BinaryTree

/-- The nodes below `p` from left to right, for at most `fuel` levels. -/
def Heap.walk (h : Heap α) : Nat → Option Ptr → List Ptr
  | _, none => []
  | 0, some _ => []
  | fuel + 1, some p => h.walk fuel (h.node p).left ++ p :: h.walk fuel (h.node p).right

/-- The nodes of a list from left to right. -/
def inorderOf (s : Tree α) : List Ptr := s.heap.walk s.heap.live.length s.stump.root

/-- A linked tree is read off the memory. -/
theorem Linked.walk : ∀ {t : BinaryTree Ptr} {par : Option Ptr} {fuel : Nat}, Linked h par t →
    t.height ≤ fuel → h.walk fuel (root? t) = inorder t
  | nil, _, fuel, _, _ => by cases fuel <;> rfl
  | node p l r, _, 0, _, hf => by simp [height] at hf
  | node p l r, _, fuel + 1, ⟨_, hl, hr, hll, hlr⟩, hf => by
    have hh : max l.height r.height ≤ fuel := Nat.le_of_succ_le_succ hf
    rw [root?_node, Heap.walk, hl, hr, hll.walk (by omega), hlr.walk (by omega), inorder_node]

theorem Holds.inorderOf_eq {s : Tree α} (hH : Holds s cells) : inorderOf s = own s.stump cells := by
  obtain ⟨T, hR, hT⟩ := hH.tree
  rw [inorderOf, hR.root, hR.settled.linked.walk, hT]
  exact Nat.le_trans (T.height_le_numNodes) hR.settled.toPlace.numNodes_le

namespace AvlTreeStump

variable {E : ε → Tree α → Prop} {s : Tree α} {Q : PUnit → Tree α → Prop}

theorem wp_checkChild {l : BinaryTree Ptr} {below : Ptr → Prog (Tree α) ε PUnit}
    (hl : Linked s.heap (some p) l) (hlive : ∀ x ∈ inorder l, x ∈ s.heap.live)
    (hbelow : ∀ c, root? l = some c → wp (below c) Q E s) (hQ : Q PUnit.unit s) :
    wp (checkChild p (root? l) below) Q E s := by
  cases l with
  | nil => exact hQ
  | node c a b =>
    show wp (do
      let parent ← load c TAvlTreeNode.parent
      assert fun _ => parent = some p
      below c) Q E s
    rw [wp_bind, wp_load, hl.parent rfl]
    refine ⟨hlive c (by simp), ?_⟩
    rw [wp_bind, wp_assert]
    exact ⟨rfl, hbelow c rfl⟩

theorem wp_checkChildParent (t : BinaryTree Ptr) : ∀ {par : Option Ptr} {p : Ptr} {fuel : Nat}
    {Q : PUnit → Tree α → Prop}, Linked s.heap par t → (∀ x ∈ inorder t, x ∈ s.heap.live) →
    root? t = some p → t.height ≤ fuel → Q PUnit.unit s →
    wp (checkChildParent fuel p) Q E s := by
  induction t with
  | nil => intro par p fuel Q _ _ hp; cases hp
  | node q l r ihl ihr =>
    intro par p fuel Q hlinked hlive hp hfuel hQ
    obtain rfl : q = p := Option.some.inj hp
    obtain ⟨-, hl, hr, hll, hlr⟩ := hlinked
    have hq : q ∈ s.heap.live := hlive q (by simp)
    have hlivel : ∀ x ∈ inorder l, x ∈ s.heap.live := fun x hx => hlive x (by simp [hx])
    have hliver : ∀ x ∈ inorder r, x ∈ s.heap.live := fun x hx => hlive x (by simp [hx])
    rw [height] at hfuel
    obtain ⟨fuel, rfl⟩ : ∃ n, fuel = n + 1 := ⟨fuel - 1, by omega⟩
    rw [checkChildParent, wp_bind, wp_load, hl]
    refine ⟨hq, ?_⟩
    -- the right child is checked after the left one, in the same state
    have hright : wp (do
        let right ← load q TAvlTreeNode.right
        checkChild q right (checkChildParent fuel)) Q E s := by
      rw [wp_bind, wp_load, hr]
      exact ⟨hq, wp_checkChild hlr hliver (fun c hc => ihr hlr hliver hc (by omega) hQ) hQ⟩
    rw [wp_bind]
    exact wp_checkChild hll hlivel (fun c hc => ihl hll hlivel hc (by omega) hright) hright

theorem wp_getAndCheckHeight (t : BinaryTree Ptr) : ∀ {par : Option Ptr} {fuel : Nat}
    {Q : Nat → Tree α → Prop}, Linked s.heap par t → Counted s.heap t →
    (∀ x ∈ inorder t, x ∈ s.heap.live) → t.height ≤ fuel → Q t.height s →
    wp (getAndCheckHeight fuel (root? t)) Q E s := by
  induction t with
  | nil => intro par fuel Q _ _ _ _ hQ; cases fuel <;> exact hQ
  | node q l r ihl ihr =>
    intro par fuel Q hlinked hcounted hlive hfuel hQ
    obtain ⟨-, hl, hr, hll, hlr⟩ := hlinked
    obtain ⟨-, hh, hcl, hcr⟩ := hcounted
    have hq : q ∈ s.heap.live := hlive q (by simp)
    rw [height] at hfuel hh hQ
    obtain ⟨fuel, rfl⟩ : ∃ n, fuel = n + 1 := ⟨fuel - 1, by omega⟩
    rw [root?_node, getAndCheckHeight, wp_bind, wp_load, hl]
    refine ⟨hq, ?_⟩
    rw [wp_bind]
    refine ihl hll hcl (fun x hx => hlive x (by simp [hx])) (by omega) ?_
    rw [wp_bind, wp_load, hr]
    refine ⟨hq, ?_⟩
    rw [wp_bind]
    refine ihr hlr hcr (fun x hx => hlive x (by simp [hx])) (by omega) ?_
    rw [wp_bind, wp_load, hh]
    refine ⟨hq, ?_⟩
    rw [wp_bind, wp_assert, wp_pure, Nat.add_comm 1]
    exact ⟨rfl, hQ⟩

theorem wp_getAndCheckSize (t : BinaryTree Ptr) : ∀ {par : Option Ptr} {fuel : Nat}
    {Q : Nat → Tree α → Prop}, Linked s.heap par t → Counted s.heap t →
    (∀ x ∈ inorder t, x ∈ s.heap.live) → t.height ≤ fuel → Q t.numNodes s →
    wp (getAndCheckSize fuel (root? t)) Q E s := by
  induction t with
  | nil => intro par fuel Q _ _ _ _ hQ; cases fuel <;> exact hQ
  | node q l r ihl ihr =>
    intro par fuel Q hlinked hcounted hlive hfuel hQ
    obtain ⟨-, hl, hr, hll, hlr⟩ := hlinked
    obtain ⟨hs, -, hcl, hcr⟩ := hcounted
    have hq : q ∈ s.heap.live := hlive q (by simp)
    have hsum : 1 + l.numNodes + r.numNodes = (node q l r).numNodes := by
      rw [numNodes]
      omega
    rw [height] at hfuel
    obtain ⟨fuel, rfl⟩ : ∃ n, fuel = n + 1 := ⟨fuel - 1, by omega⟩
    rw [root?_node, getAndCheckSize, wp_bind, wp_load, hl]
    refine ⟨hq, ?_⟩
    rw [wp_bind]
    refine ihl hll hcl (fun x hx => hlive x (by simp [hx])) (by omega) ?_
    rw [wp_bind, wp_load, hr]
    refine ⟨hq, ?_⟩
    rw [wp_bind]
    refine ihr hlr hcr (fun x hx => hlive x (by simp [hx])) (by omega) ?_
    rw [wp_bind, wp_load, hs]
    refine ⟨hq, ?_⟩
    rw [wp_bind, wp_assert, wp_pure, hsum]
    exact ⟨rfl, hQ⟩

/-- Every node of the tree leads up to the root. -/
theorem wp_checkCouple {fs : List (Frame Ptr)} {t : BinaryTree Ptr} (hR : Rep s (plug fs t))
    (ht : root? t = some p) (hQ : Q PUnit.unit s) : wp (checkCouple p) Q E s := by
  have hS := hR.settled.at_place
  have hp : p ∈ s.heap.live := hS.live p (List.mem_append_left _ (mem_of_root? ht))
  unfold checkCouple
  rw [wp_bind, wp_get, wp_bind, wp_load, hS.linked.parent ht]
  refine ⟨hp, ?_⟩
  cases fs with
  | nil =>
    dsimp only [above]
    rw [wp_assert]
    exact ⟨ht.symm.trans hR.root.symm, hQ⟩
  | cons f fs =>
    have hf : f.key ∈ s.heap.live := hS.live f.key (by simp [keys])
    have hchild : (s.heap.node f.key).left = some p ∨ (s.heap.node f.key).right = some p := by
      have h := hS.ctx.2.1
      rw [ht] at h
      cases hside : f.side with
      | left => rw [hside] at h; exact .inl h
      | right => rw [hside] at h; exact .inr h
    dsimp only [above]
    rw [wp_bind, wp_load]
    refine ⟨hf, ?_⟩
    rw [wp_bind, wp_load]
    refine ⟨hf, ?_⟩
    rw [wp_bind, wp_assert]
    refine ⟨hchild, ?_⟩
    rw [wp_bind]
    refine wp_rounds (I := fun n x s' => s' = s ∧ ∃ gs u, Place s.heap gs u ∧ root? u = some x ∧
      plug gs u = plug (f :: fs) t ∧ n = gs.length) ?_ (f :: fs).length
      ⟨rfl, f :: fs, t, hS.toPlace, ht, rfl, rfl⟩ hS.toPlace.length_le
    rintro n x s' ⟨rfl, gs, u, hP, hx, hplug, rfl⟩
    rw [wp_bind, wp_load, hP.linked.parent hx]
    refine ⟨hP.live x (List.mem_append_left _ (mem_of_root? hx)), ?_⟩
    cases gs with
    | nil =>
      have hroot : some x = s'.stump.root := by
        rw [hR.root, ← hplug]
        exact hx.symm
      exact (wp_assert _).mpr ⟨hroot, hQ⟩
    | cons g gs =>
      exact ⟨gs.length, Nat.lt_succ_self _, rfl, gs, g.plug u, place_cons.mp hP,
        root?_plug_frame g u, hplug, rfl⟩

theorem wp_checkGap {side : Side} {T : BinaryTree Ptr} (hR : Rep s T)
    (hgap : (outward side.flip T).head? = some p) (hQ : Q PUnit.unit s) :
    wp (checkGap side p) Q E s := by
  have hne : T ≠ nil := by
    rintro rfl
    rw [outward_nil] at hgap
    cases hgap
  obtain ⟨q, u, v, rfl⟩ := exists_join side hne
  have hlast := plug_extreme side u q v
  have hp : (extreme side u q v).2.1 = p := by
    have h := head?_outward side.flip u q v []
    rw [Side.flip_flip, List.append_nil, hgap] at h
    exact (Option.some.inj h).symm
  rw [hp] at hlast
  have hR' := hR
  rw [← hlast] at hR'
  have hplace := hR'.settled.at_place
  obtain ⟨-, hchild, -⟩ := linked_join.mp hplace.linked
  unfold checkGap
  rw [wp_bind]
  refine wp_checkCouple hR' (root?_join ..) ?_
  rw [wp_bind, wp_get, hR.root, root?_join]
  dsimp only
  rw [wp_bind]
  refine wp_findExtreme side hR.settled.toPlace ?_
  rw [hp, wp_bind, wp_assert]
  refine ⟨rfl, ?_⟩
  rw [wp_bind, wp_load, wp_assert]
  exact ⟨hplace.live p (by simp), hchild, hQ⟩

theorem wp_checkBegin (hH : Holds s cells) (hQ : Q PUnit.unit s) : wp checkBegin Q E s := by
  obtain ⟨fs, l, r, hR, -, -, -⟩ := (show Holds s ([] ++ cells) from hH).split
  obtain ⟨T, hRT, hT⟩ := hH.tree
  obtain ⟨gs, a, b, rfl, -, hnext⟩ := exists_plug (show inorder T = [] ++ own s.stump cells from hT)
  unfold checkBegin
  rw [wp_bind, wp_get, hH.begin_]
  dsimp only
  rw [wp_bind]
  refine wp_checkCouple hR rfl ?_
  rw [wp_bind]
  refine wp_forward hRT.settled.at_place.toPlace ?_
  rw [hnext, head?_nodes_append, wp_assert]
  exact ⟨rfl, hQ⟩

theorem wp_getAmount {Q : Nat → Tree α → Prop} (hH : Holds s cells)
    (hQ : Q (cells.length + 2) s) : wp getAmount Q E s := by
  unfold getAmount
  rw [wp_bind, wp_get, wp_bind, hH.begin_]
  refine wp_rounds (I := fun n c s' => s' = s ∧ ∃ gone rest : List (Cell α), cells = gone ++ rest ∧
    c = (some (startOf s.stump.end_ rest), gone.length) ∧ n = rest.length) ?_ cells.length
    ⟨rfl, [], cells, rfl, rfl, rfl⟩ hH.length_le
  rintro n c s' ⟨rfl, gone, rest, rfl, rfl, rfl⟩
  cases rest with
  | nil =>
    rw [List.append_nil] at hQ
    show wp (if s'.stump.end_ = s'.stump.end_ then _ else _) _ E s'
    rw [if_pos rfl, wp_pure]
    exact hQ
  | cons d rest =>
    have hne : d.1 ≠ s'.stump.end_ := fun he => hH.not_gap (.inr he)
    show wp (if d.1 = s'.stump.end_ then _ else _) _ E s'
    rw [if_neg hne, wp_bind]
    refine wp_forward_holds hH ?_
    rw [wp_pure]
    exact ⟨rest.length, Nat.lt_succ_self _, rfl, gone ++ [d], rest, by simp, by simp, rfl⟩

theorem exists_tree (hH : Holds s cells) : ∃ T, Rep s T ∧ inorder T = own s.stump cells ∧
    T ≠ nil ∧ (∀ x ∈ inorder T, x ∈ s.heap.live) ∧ T.height ≤ s.heap.live.length + 1 := by
  obtain ⟨T, hR, hT⟩ := hH.tree
  refine ⟨T, hR, hT, ?_, fun x hx => hR.settled.live x (List.mem_append_left _ hx),
    Nat.le_succ_of_le (Nat.le_trans T.height_le_numNodes hR.settled.toPlace.numNodes_le)⟩
  rintro rfl
  cases hT

theorem wp_checkAllParents (hH : Holds s cells) (hQ : Q PUnit.unit s) :
    wp checkAllParents Q E s := by
  obtain ⟨T, hR, -, hne, hlive, hheight⟩ := exists_tree hH
  obtain ⟨p, hp⟩ := exists_root? hne
  unfold checkAllParents
  rw [wp_bind, wp_get, hR.root, hp]
  dsimp only
  rw [wp_bind, wp_load, hR.settled.linked.parent hp]
  refine ⟨hlive p (mem_of_root? hp), ?_⟩
  rw [wp_bind, wp_assert]
  exact ⟨rfl, wp_checkChildParent T hR.settled.linked hlive hp hheight hQ⟩

theorem wp_checkBeforeBegin (hH : Holds s cells) (hQ : Q PUnit.unit s) :
    wp checkBeforeBegin Q E s := by
  obtain ⟨T, hR, hT⟩ := hH.tree
  unfold checkBeforeBegin
  rw [wp_bind, wp_get]
  exact wp_checkGap hR (by rw [Side.flip, outward, hT]; rfl) hQ

theorem wp_checkEnd (hH : Holds s cells) (hQ : Q PUnit.unit s) : wp checkEnd Q E s := by
  obtain ⟨T, hR, hT⟩ := hH.tree
  unfold checkEnd
  rw [wp_bind, wp_get]
  exact wp_checkGap hR (by rw [Side.flip, outward, hT]; simp [own]) hQ

theorem wp_checkHeights (hH : Holds s cells) (hQ : Q PUnit.unit s) : wp checkHeights Q E s := by
  obtain ⟨T, hR, -, -, hlive, hheight⟩ := exists_tree hH
  unfold checkHeights
  rw [wp_bind, wp_get, wp_bind, hR.root]
  refine wp_getAndCheckHeight T hR.settled.linked hR.settled.counted hlive hheight ?_
  rw [wp_bind]
  refine wp_nodeHeight hR.settled.counted hlive ?_
  rw [wp_assert]
  exact ⟨rfl, hQ⟩

/-- The check of the sizes, with a walk that counts the nodes. -/
theorem wp_checkSizes {amount : Prog (Tree α) ε Nat} (hH : Holds s cells)
    (hamount : ∀ {Q : Nat → Tree α → Prop}, Q (cells.length + 2) s → wp amount Q E s)
    (hQ : Q PUnit.unit s) :
    wp (do
      let this ← Prog.get
      let real ← getAndCheckSize (this.heap.live.length + 1) this.stump.root
      let size ← nodeSize this.stump.root
      assert fun _ => real = size
      let amount ← amount
      assert fun _ => amount = size) Q E s := by
  obtain ⟨T, hR, hT, -, hlive, hheight⟩ := exists_tree hH
  have hnum : T.numNodes = cells.length + 2 := by
    rw [← length_inorder, hT]
    simp [own, nodes]
  rw [wp_bind, wp_get, wp_bind, hR.root]
  refine wp_getAndCheckSize T hR.settled.linked hR.settled.counted hlive hheight ?_
  rw [wp_bind]
  refine wp_nodeSize hR.settled.counted hlive ?_
  rw [wp_bind, wp_assert]
  refine ⟨rfl, ?_⟩
  rw [wp_bind]
  refine hamount ?_
  rw [wp_assert, hnum]
  exact ⟨rfl, hQ⟩

/-- **A list that holds anything passes its own check.** -/
theorem wp_selfCheckIfConstructed (hH : Holds s cells) (hQ : Q PUnit.unit s) :
    wp selfCheckIfConstructed Q E s := by
  unfold selfCheckIfConstructed selfCheckWithoutHeightAndSizeIfConstructed
  rw [wp_bind, wp_bind]
  refine wp_checkAllParents hH ?_
  rw [wp_bind]
  refine wp_checkBeforeBegin hH ?_
  rw [wp_bind]
  refine wp_checkEnd hH (wp_checkBegin hH ?_)
  rw [wp_bind]
  exact wp_checkHeights hH (wp_checkSizes hH (wp_getAmount hH) hQ)

end AvlTreeStump

end Garbage.RandomAccessList
