import Garbage.Foundation.AvlBalance
import Garbage.RandomAccessList.Refinement

/-!
# Is the tree an AVL tree?

An insertion or a deletion leaves the tree that `up` makes from the place of the
edit, and `up` is the AVL algorithm without its double rotations.  `Restores` is
the condition on the tree before an edit under which single rotations are
enough.

A tree that is balanced stays balanced along a run exactly if all edits of the
run meet it (`balanced_iff_restores`).  The edit of an empty list never does, so
no run that starts from an empty list and edits it keeps the tree balanced; the
first insertion breaks it (`not_balanced_after_one_insertion`), and a later one
may repair it.
-/

namespace Garbage.RandomAccessList

open Foundation (Prog Machine Side)
open Foundation.Prog
open Foundation.Zipper
open AvlTreeStump

variable {α ε : Type} {s : Tree α} {cells ca cb : List (Cell α)} {p : Ptr} {v : α}

/-- The tree below `p`, for at most `fuel` levels. -/
def Heap.subtree (h : Heap α) : Nat → Option Ptr → BinaryTree Ptr
  | _, none => .nil
  | 0, some _ => .nil
  | fuel + 1, some p =>
    .node p (h.subtree fuel (h.node p).left) (h.subtree fuel (h.node p).right)

/-- The tree of a list, read off the memory. -/
def Tree.shape (t : Tree α) : BinaryTree Ptr := t.heap.subtree t.heap.live.length t.stump.root

/-- The two edits: `insert_before` an iterator, `delete_and_get_next` of an element. -/
inductive Edit (α : Type) where
  | insertBefore (pos : Nat) (value : α)
  | deleteAndGetNext (pos : Nat)

namespace Edit

/-- The operation of the list that is just this edit. -/
def toListOp : Edit α → ListOp α
  | insertBefore pos value => .emplace pos value
  | deleteAndGetNext pos => .erase pos

/-- Single rotations restore the balance of the tree `t` after the edit. -/
def Restores (t : BinaryTree Ptr) : Edit α → Prop
  | insertBefore pos _ =>
    match placeAt (pos + 1) [] t with
    | none => True
    | some (fs, p, l, r) => InsertOk (gap fs p l r)
  | deleteAndGetNext pos =>
    match placeAt (pos + 1) [] t with
    | none => True
    | some (fs, _, l, r) => ShrinkOk (cut fs l r).2.height (cut fs l r).1

end Edit

/-- The edits of one tree.  It starts as the constructor, that is
`resetInvariant`, leaves it. -/
def treeMachine (alloc : Allocator) : Machine (Tree α) (Edit α) where
  init s := ∃ s₀, (construct alloc : Prog (Tree α) Empty PUnit) s₀ = some (.ok PUnit.unit, s)
  next s edit :=
    match (Container.size : Prog (Tree α) Empty Nat) s with
    | some (.ok n, _) =>
      if edit.toListOp.Valid n then
        match (edit.toListOp.exec alloc : Prog (Tree α) Empty PUnit) s with
        | some (.ok _, s') => some s'
        | _ => none
      else none
    | _ => none

theorem Linked.subtree {h : Heap α} : ∀ {t : BinaryTree Ptr} {par : Option Ptr} {fuel : Nat},
    Linked h par t → t.height ≤ fuel → h.subtree fuel (root? t) = t
  | .nil, _, fuel, _, _ => by cases fuel <;> rfl
  | .node p l r, _, 0, _, hf => by simp [BinaryTree.height] at hf
  | .node p l r, _, fuel + 1, ⟨_, hl, hr, hll, hlr⟩, hf => by
    have hh : max l.height r.height ≤ fuel := Nat.le_of_succ_le_succ hf
    rw [root?_node, Heap.subtree, hl, hr, hll.subtree (by omega), hlr.subtree (by omega)]

theorem Rep.shape_eq {T : BinaryTree Ptr} (hR : Rep s T) : s.shape = T := by
  rw [Tree.shape, hR.root, hR.settled.linked.subtree]
  exact Nat.le_trans (T.height_le_numNodes) hR.settled.toPlace.numNodes_le

/-! ### Two nodes -/

theorem eq_leaf_of_numNodes {t : BinaryTree Ptr} (ht : t.numNodes = 1) :
    ∃ k, t = .node k .nil .nil := by
  cases t with
  | nil => cases ht
  | node k a b =>
    have hab : a.numNodes + b.numNodes = 0 := Nat.succ.inj ht
    cases a with
    | node _ _ _ => simp [BinaryTree.numNodes] at hab
    | nil =>
      cases b with
      | node _ _ _ => simp [BinaryTree.numNodes] at hab
      | nil => exact ⟨k, rfl⟩

/-- In a tree of two nodes, a new leaf before the second one leans to the inner side. -/
theorem not_insertOk_of_two_nodes {t : BinaryTree Ptr} {fs : List (Frame Ptr)}
    {l r : BinaryTree Ptr} (ht : t.numNodes = 2) (hplace : placeAt 1 [] t = some (fs, p, l, r)) :
    ¬ InsertOk (gap fs p l r) := by
  cases t with
  | nil => cases hplace
  | node q a b =>
    have hab : a.numNodes + b.numNodes = 1 := Nat.succ.inj ht
    cases a with
    | nil =>
      have hb : b.numNodes = 1 := by simpa [BinaryTree.numNodes] using hab
      obtain ⟨k, rfl⟩ := eq_leaf_of_numNodes hb
      obtain ⟨rfl, rfl, rfl, rfl⟩ : [⟨.right, q, .nil⟩] = fs ∧ k = p ∧ .nil = l ∧ .nil = r := by
        simpa [placeAt, BinaryTree.numNodes] using hplace
      simp [gap, InsertOk, GrowOk, Straightens, BinaryTree.height]
    | node k a a' =>
      cases b with
      | node _ _ _ =>
        simp only [BinaryTree.numNodes] at hab
        omega
      | nil =>
        obtain ⟨k, hk⟩ := eq_leaf_of_numNodes hab
        rw [hk] at hplace
        obtain ⟨rfl, rfl, rfl, rfl⟩ : [] = fs ∧ q = p ∧ .node k .nil .nil = l ∧ .nil = r := by
          simpa [placeAt, BinaryTree.numNodes] using hplace
        simp [gap, extreme, InsertOk, GrowOk, Straightens, BinaryTree.height]

/-- The tree of an empty list has two nodes, the gap nodes. -/
theorem Holds.numNodes_of_empty (hH : Holds s ([] : List (Cell α))) : s.shape.numNodes = 2 := by
  obtain ⟨T, hR, hT⟩ := hH.tree
  rw [hR.shape_eq, ← length_inorder, hT]
  rfl

/-! ### The shape after an edit -/

section Shape

variable {E : ε → Tree α → Prop}

theorem Holds.placeAt (hH : Holds s (ca ++ cb)) : ∃ fs l r,
    Rep s (plug fs (.node (startOf s.stump.end_ cb) l r)) ∧
    placeAt (ca.length + 1) [] s.shape = some (fs, startOf s.stump.end_ cb, l, r) := by
  obtain ⟨fs, l, r, hR, hl, -, -⟩ := hH.split
  have hn : (before fs ++ inorder l).length = ca.length + 1 := by
    rw [hl, List.length_cons, nodes, List.length_map]
  exact ⟨fs, l, r, hR, by rw [hR.shape_eq, ← hn, placeAt_node]⟩

theorem wp_emplace_shape (alloc : Allocator) {fs : List (Frame Ptr)} {l r : BinaryTree Ptr}
    (hR : Rep s (plug fs (.node p l r))) :
    wp (Container.emplace alloc p v) (fun _ s' => ∃ new,
      s'.shape = up (gap fs p l r) (.node new .nil .nil)) E s := by
  unfold Container.emplace
  rw [wp_bind]
  refine (wp_makeNode alloc v).imp ?_
  rintro new s₁ ⟨hnew, hlive, -, -, hout, hst⟩
  have hkeep : ∀ x ∈ inorder (plug fs (.node p l r)) ++ keys [],
      x ∈ s₁.heap.live ∧ s₁.heap.node x = s.heap.node x :=
    fun x hx => hout x (hR.settled.live x hx) List.not_mem_nil
  have hR₁ : Rep s₁ (plug fs (.node p l r)) :=
    ⟨hR.settled.congr (fun x hx => (hkeep x hx).2) fun x hx => (hkeep x hx).1, hst ▸ hR.root⟩
  have hnot : new ∉ inorder (plug fs (.node p l r)) :=
    fun hm => hnew (hR.settled.live new (List.mem_append_left _ hm))
  refine (wp_insertBefore hR₁ hnot hlive).imp ?_
  rintro x s' ⟨rfl, hR', -, -⟩
  exact ⟨x, hR'.shape_eq⟩

theorem wp_erase_shape {fs : List (Frame Ptr)} {l r : BinaryTree Ptr}
    (hH : Holds s (ca ++ (p, v) :: cb)) (hR : Rep s (plug fs (.node p l r))) :
    wp (Container.erase p) (fun _ s' => s'.shape = up (cut fs l r).1 (cut fs l r).2) E s := by
  unfold Container.erase deleteAndGetNext
  dsimp only
  rw [wp_bind]
  refine wp_forward_holds hH ?_
  rw [wp_bind, wp_get, wp_bind]
  unfold delete_
  rw [wp_bind, wp_get, if_neg hH.not_gap, wp_bind]
  refine (wp_unlink hR).imp ?_
  rintro _ s' ⟨hR', -, he⟩
  have hp : p ∈ s.heap.live := hH.live p (by simp [own])
  have hv : (s'.heap.node p).value = some v := by
    rw [he.value]
    exact hH.values (p, v) (by simp)
  have hnot : p ∉ inorder (up (cut fs l r).1 (cut fs l r).2) := by
    have hn : (inorder (plug fs (.node p l r))).Nodup := by
      have hn := hR.settled.nodup
      rwa [keys, List.append_nil] at hn
    have hperm : (inorder (plug fs (.node p l r))).Perm
        (p :: inorder (up (cut fs l r).1 (cut fs l r).2)) := by
      rw [inorder_up_cut, inorder_plug, inorder_node]
      simp only [List.append_assoc, List.cons_append]
      rw [← List.append_assoc (before fs), ← List.append_assoc (before fs)]
      exact List.perm_middle
    exact (List.nodup_cons.mp (hperm.nodup_iff.mp hn)).1
  refine (wp_destroyNode hR' hnot (he.live ▸ hp) hv).imp ?_
  rintro _ s'' ⟨hR'', -, -⟩
  split
  · rw [wp_bind, wp_setStump, wp_pure]
    exact Rep.shape_eq ⟨hR''.settled, hR''.root⟩
  · rw [wp_pure]
    exact hR''.shape_eq

end Shape

/-! ### Balance along a run -/

/-- The states of a run: the tree is right. -/
def TreeHolds (s : Tree α) : Prop := ∃ cells, Holds s cells

namespace Edit

def Valid (s : Tree α) (edit : Edit α) : Prop :=
  ∃ cells, Holds s cells ∧ edit.toListOp.Valid cells.length

/-- **One edit.**  A valid edit of a balanced tree ends in a right tree, and it is
balanced exactly if the edit `Restores` the balance. -/
theorem next_balanced (alloc : Allocator) (edit : Edit α) (hb : Balanced s.shape)
    (hv : edit.Valid s) : ∃ s', (treeMachine alloc).next s edit = some s' ∧ TreeHolds s' ∧
      (Balanced s'.shape ↔ edit.Restores s.shape) := by
  obtain ⟨cells, hH, hv⟩ := hv
  have hexec : wp (edit.toListOp.exec alloc : Prog (Tree α) Empty PUnit)
      (fun _ s' => Balanced s'.shape ↔ edit.Restores s.shape) (fun _ _ => False) s := by
    cases edit with
    | insertBefore pos value =>
      obtain ⟨ca, cb, rfl, rfl⟩ := exists_split hv
      obtain ⟨fs, l, r, hR, hplace⟩ := hH.placeAt
      rw [toListOp, ListOp.exec, wp_bind]
      refine Container.wp_iteratorAt hH rfl ?_
      rw [wp_bind]
      refine (wp_emplace_shape alloc hR).imp ?_
      rintro _ s' ⟨new, hshape⟩
      rw [wp_pure, hshape, Restores, hplace]
      have hb' : Balanced (plug fs (.node (startOf s.stump.end_ cb) l r)) := hR.shape_eq ▸ hb
      exact balanced_up_leaf new (balancedAround_gap hb')
    | deleteAndGetNext pos =>
      obtain ⟨ca, cb, rfl, rfl⟩ := exists_split (Nat.le_of_lt hv)
      cases cb with
      | nil => exact absurd hv (by simp [toListOp, ListOp.Valid])
      | cons c cb =>
        obtain ⟨fs, l, r, hR, hplace⟩ := hH.placeAt
        rw [toListOp, ListOp.exec, wp_bind]
        refine Container.wp_iteratorAt hH rfl ?_
        rw [wp_bind]
        refine (wp_erase_shape (v := c.2) hH hR).imp ?_
        intro _ s' hshape
        obtain ⟨hcut, haround⟩ := balancedAround_cut (hR.shape_eq ▸ hb)
        rw [wp_pure, hshape, Restores, hplace]
        exact balanced_up_shrunk _ rfl hcut haround
  have hboth := hexec.and (edit.toListOp.wp_exec (E := fun _ _ => False) alloc hH hv)
  obtain ⟨_, s', hx, hbal, news, -, -, hC⟩ := hboth.returns
  refine ⟨s', ?_, ⟨_, hC.holds⟩, hbal⟩
  rw [treeMachine]
  dsimp only
  rw [hH.shows.size, List.length_map]
  dsimp only
  rw [if_pos hv, hx]

theorem valid_of_next {alloc : Allocator} {edit : Edit α} {s' : Tree α} (hH : Holds s cells)
    (hn : (treeMachine alloc).next s edit = some s') : edit.toListOp.Valid cells.length := by
  by_contra hv
  rw [treeMachine] at hn
  dsimp only at hn
  rw [hH.shows.size, List.length_map] at hn
  dsimp only at hn
  rw [if_neg hv] at hn
  cases hn

theorem treeHolds_of_next {alloc : Allocator} {edit : Edit α} {s' : Tree α} (hs : TreeHolds s)
    (hn : (treeMachine alloc).next s edit = some s') : TreeHolds s' := by
  obtain ⟨cells, hH⟩ := hs
  have hv := valid_of_next hH hn
  have hexec := edit.toListOp.wp_exec (ε := Empty) (E := fun _ _ => False) alloc hH hv
  obtain ⟨_, s'', hx, news, -, -, hC⟩ := hexec.returns
  rw [treeMachine] at hn
  dsimp only at hn
  rw [hH.shows.size, List.length_map] at hn
  dsimp only at hn
  rw [if_pos hv, hx] at hn
  exact Option.some.inj hn ▸ ⟨_, hC.holds⟩

/-- The first edit of an empty list does not restore the balance. -/
theorem not_restores_of_empty {edit : Edit α} (hH : Holds s []) (hv : edit.toListOp.Valid 0) :
    ¬ edit.Restores s.shape := by
  cases edit with
  | insertBefore pos value =>
    obtain rfl : pos = 0 := Nat.le_zero.mp hv
    obtain ⟨fs, l, r, -, hplace⟩ := (show Holds s ([] ++ []) from hH).placeAt
    rw [Restores]
    rw [List.length_nil] at hplace
    rw [hplace]
    exact not_insertOk_of_two_nodes hH.numNodes_of_empty hplace
  | deleteAndGetNext pos => exact absurd hv (Nat.not_lt_zero pos)

end Edit

theorem construct_eq (alloc : Allocator) (s₀ : Tree α) :
    ∃ s, (construct alloc : Prog (Tree α) Empty PUnit) s₀ = some (.ok PUnit.unit, s) ∧
      Holds s [] := by
  have hconstruct : wp (construct alloc : Prog (Tree α) Empty PUnit) (fun _ s => Holds s [])
      (fun _ _ => False) s₀ := (wp_construct alloc).imp fun _ _ h => h.1
  obtain ⟨⟨⟩, s, hs, hH⟩ := hconstruct.returns
  exact ⟨s, hs, hH⟩

theorem treeMachine_init {alloc : Allocator} (hs : (treeMachine alloc).init s) : Holds s [] := by
  obtain ⟨s₀, hs⟩ := hs
  obtain ⟨s', hs', hH⟩ := construct_eq alloc s₀
  obtain rfl : s' = s := (Prod.mk.inj (Option.some.inj (hs'.symm.trans hs))).2
  exact hH

theorem treeHolds_of_reachable {alloc : Allocator} (h : (treeMachine alloc).Reachable s) :
    TreeHolds s :=
  h.invariant (fun _ hs => ⟨[], treeMachine_init hs⟩) fun _ _ _ hs _ hn =>
    Edit.treeHolds_of_next hs hn

/-- Along a run from a balanced tree the tree is balanced in every state exactly if every
edit of the run restores the balance. -/
theorem allStates_balanced_iff (alloc : Allocator) (hs : TreeHolds s) (hb : Balanced s.shape)
    (edits : List (Edit α)) :
    (treeMachine alloc).AllStates (fun s => Balanced s.shape) s edits ↔
      (treeMachine alloc).AllSteps (fun s edit => edit.Valid s → edit.Restores s.shape)
        s edits := by
  refine Machine.allStates_iff_allSteps (I := fun s => TreeHolds s ∧ Balanced s.shape)
    (fun s hs => hs.2) ?_ ?_ edits s ⟨hs, hb⟩
  · rintro s edit s' ⟨⟨cells, hH⟩, hb⟩ hC hn
    have hv : edit.Valid s := ⟨cells, hH, Edit.valid_of_next hH hn⟩
    obtain ⟨s'', hn', hH', hbal⟩ := edit.next_balanced alloc hb hv
    obtain rfl : s'' = s' := Option.some.inj (hn'.symm.trans hn)
    exact ⟨hH', hbal.mpr (hC hv)⟩
  · rintro s edit ⟨hH, hb⟩ hC
    obtain ⟨hv, hnot⟩ := Classical.not_imp.mp hC
    obtain ⟨s', hn, -, hbal⟩ := edit.next_balanced alloc hb hv
    exact ⟨s', hn, fun hb' => hnot (hbal.mp hb')⟩

/-- **When the tree is an AVL tree.**  From the tree of an empty list, a run of insertions
and deletions keeps it balanced only if there is no edit.  From a balanced tree, a run
keeps it balanced exactly if every edit of the run restores the balance. -/
theorem balanced_iff_restores (alloc : Allocator) :
    (∀ (s s' : Tree α) (edits : List (Edit α)), (treeMachine alloc).init s →
      (treeMachine alloc).run s edits = some s' →
      ((treeMachine alloc).AllStates (fun s => Balanced s.shape) s edits ↔ edits = [])) ∧
    ∀ (s : Tree α) (edits : List (Edit α)), (treeMachine alloc).Reachable s → Balanced s.shape →
      ((treeMachine alloc).AllStates (fun s => Balanced s.shape) s edits ↔
        (treeMachine alloc).AllSteps (fun s edit => edit.Valid s → edit.Restores s.shape)
          s edits) := by
  refine ⟨fun s s' edits hs hrun => ?_, fun s edits hs hb =>
    allStates_balanced_iff alloc (treeHolds_of_reachable hs) hb edits⟩
  have hH := treeMachine_init hs
  have hb : Balanced s.shape := balanced_of_numNodes_le_two (Nat.le_of_eq hH.numNodes_of_empty)
  cases edits with
  | nil => exact iff_of_true hb rfl
  | cons edit edits =>
    refine iff_of_false (fun hall => ?_) (List.cons_ne_nil _ _)
    obtain ⟨s₁, hn, -⟩ := Option.bind_eq_some_iff.mp hrun
    have hv := Edit.valid_of_next hH hn
    have hsteps := (allStates_balanced_iff alloc ⟨[], hH⟩ hb _).mp hall
    exact Edit.not_restores_of_empty hH hv (hsteps.1 ⟨[], hH, hv⟩)

/-- Two insertions at the front of an empty list leave a balanced tree, and it stays
balanced while two elements are put in and the last one is erased. -/
theorem balanced_iff_restores_five_edits : ∃ s s' : Tree Nat,
    (treeMachine bumpAllocator).init s ∧
    (treeMachine bumpAllocator).run s [.insertBefore 0 7, .insertBefore 0 8] = some s' ∧
    ¬ (treeMachine bumpAllocator).AllStates (fun s => Balanced s.shape) s
        [.insertBefore 0 7, .insertBefore 0 8] ∧
      (treeMachine bumpAllocator).AllStates (fun s => Balanced s.shape) s'
        [.insertBefore 0 9, .insertBefore 1 5, .deleteAndGetNext 3] ∧
      (treeMachine bumpAllocator).AllSteps (fun s edit => edit.Valid s → edit.Restores s.shape) s'
        [.insertBefore 0 9, .insertBefore 1 5, .deleteAndGetNext 3] := by
  have hrun : ((construct bumpAllocator : Prog (Tree Nat) Empty PUnit)
      ⟨emptyHeap Nat, World.unconstructed⟩).any (fun r =>
        ((treeMachine bumpAllocator).run r.2 [.insertBefore 0 7, .insertBefore 0 8]).any fun s' =>
          decide ((treeMachine bumpAllocator).AllStates (fun s => Balanced s.shape) s'
            [.insertBefore 0 9, .insertBefore 1 5, .deleteAndGetNext 3])) = true := by
    decide +kernel
  obtain ⟨⟨b, s⟩, hs, hrun⟩ := (Option.any_eq_true _ _).mp hrun
  obtain ⟨s', hr, hall⟩ := (Option.any_eq_true _ _).mp hrun
  have hall := of_decide_eq_true hall
  have hinit : (treeMachine bumpAllocator).init s := by
    cases b with
    | error r => exact r.elim
    | ok _ => exact ⟨_, hs⟩
  have hreach := Machine.Reachable.run (.init hinit) hr
  have h := balanced_iff_restores (α := Nat) bumpAllocator
  refine ⟨s, s', hinit, hr, fun hb => ?_, hall, (h.2 s' _ hreach hall.head).mp hall⟩
  cases (h.1 s s' _ hinit hr).mp hb

/-- One insertion into an empty list: the gap node `before_begin` is at the root, without
a left child, and two nodes hang to its right. -/
theorem not_balanced_after_one_insertion : ∃ s s' : Tree Nat,
    (treeMachine bumpAllocator).init s ∧
    (treeMachine bumpAllocator).run s [.insertBefore 0 7] = some s' ∧ ¬ Balanced s'.shape := by
  have hrun : ((construct bumpAllocator : Prog (Tree Nat) Empty PUnit)
      ⟨emptyHeap Nat, World.unconstructed⟩).any (fun r =>
        ((treeMachine bumpAllocator).run r.2 [.insertBefore 0 7]).any
          fun s' => decide (¬ Balanced s'.shape)) = true := by decide +kernel
  obtain ⟨⟨b, s⟩, hs, hrun⟩ := (Option.any_eq_true _ _).mp hrun
  obtain ⟨s', hr, hb⟩ := (Option.any_eq_true _ _).mp hrun
  cases b with
  | error r => exact r.elim
  | ok _ => exact ⟨s, s', ⟨_, hs⟩, hr, of_decide_eq_true hb⟩

end Garbage.RandomAccessList
