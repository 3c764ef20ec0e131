import Garbage.RandomAccessList.Dismantle
import Garbage.RandomAccessList.Positions

/-!
# The assertions on a whole list

The members that take a list apart, fill it or go through it, in a list that
`Holds` its elements.  All of them meet their assertions but one:
`getNextAndRemoveNode` calls `deleteAndGetNext` to keep the node and to destroy
its value, and that is asserted not to be asked for.  So `moveNodesRange` fails
unless its range is empty.
-/

namespace Garbage.RandomAccessList

open Foundation (Prog Side)
open Foundation.Prog
open Foundation.Zipper
open BinaryTree

variable {α : Type} {p new : Ptr} {v : α} {cells ca cb cm : List (Cell α)} {s : Tree α}

/-- The place of any node of the list. -/
theorem Holds.place_of_mem (hH : Holds s cells) (hp : p ∈ own s.stump cells) :
    ∃ fs l r, Rep s (plug fs (node p l r)) ∧
      inorder (plug fs (node p l r)) = own s.stump cells := by
  obtain ⟨T, hR, hT⟩ := hH.tree
  obtain ⟨fs, l, r, rfl⟩ := exists_plug_of_mem (hT ▸ hp)
  exact ⟨fs, l, r, hR, hT⟩

namespace AvlTreeStump.Asserted

variable {E : Assertion → Tree α → Prop}

theorem root_ne_none (hH : Holds s cells) : s.stump.root ≠ none := by
  obtain ⟨fs, l, r, hR, -⟩ := hH.place_of_mem (p := s.stump.end_) (by simp [own])
  exact hR.located.root_ne_none (t := node s.stump.end_ l r) rfl

theorem wp_getBegin {Q : Ptr → Tree α → Prop} (hH : Holds s cells)
    (hQ : Q (startOf s.stump.end_ cells) s) : wp getBegin Q E s := by
  unfold getBegin
  rw [wp_bind, wp_get, hH.begin_]
  exact hQ

theorem agrees_forward (hH : Holds s cells) (hp : p ∈ own s.stump cells) :
    Agrees (forward (some p)) (AvlTreeStump.forward p) s := by
  obtain ⟨fs, l, r, hR, -⟩ := hH.place_of_mem hp
  exact agrees_neighbor .right (u := r) (v := l) hR.located

/-! ### Deletion -/

theorem agrees_delete (hH : Holds s (ca ++ (p, v) :: cb))
    (needDestroyNode needDestroyValue : Bool) :
    Agrees (delete_ p needDestroyNode needDestroyValue)
      (AvlTreeStump.delete_ p needDestroyNode needDestroyValue) s := by
  obtain ⟨fs, l, r, hR, -⟩ := hH.place_of_mem (p := p) (fst_mem_own _ (c := (p, v)) (by simp))
  refine Agrees.require (root_ne_none hH) (Agrees.skip (wp_getBegin hH ⟨rfl, ?_⟩))
  refine Agrees.require (not_or.mp hH.not_gap) (Agrees.after (wp_get.mpr ?_))
  rw [if_neg hH.not_gap, if_neg hH.not_gap]
  exact Agrees.before (agrees_unlink hR)

/-- **`delete_and_get_next`** that destroys the node if it destroys the value. -/
theorem agrees_deleteAndGetNext (hH : Holds s (ca ++ (p, v) :: cb))
    {needDestroyNode needDestroyValue : Bool}
    (hneed : needDestroyNode = true ∨ needDestroyValue = false)
    (hdelete : wp (AvlTreeStump.delete_ p needDestroyNode needDestroyValue)
      (fun _ _ => True) (fun (_ : Assertion) _ => True) s) :
    Agrees (deleteAndGetNext (some p) needDestroyNode needDestroyValue)
      (AvlTreeStump.deleteAndGetNext (some p) needDestroyNode needDestroyValue) s := by
  have hgap := not_or.mp hH.not_gap
  have hnext : some (startOf s.stump.end_ cb) ≠ some p := by
    have hH' : Holds s (ca ++ ((p, v) :: []) ++ cb) := by simpa using hH
    exact fun he => hH'.startOf_ne (Option.some.inj he).symm
  refine Agrees.require (root_ne_none hH) (Agrees.require (Option.some_ne_none p) ?_)
  refine Agrees.require hneed (Agrees.require hgap.1 (Agrees.require hgap.2 ?_))
  refine Agrees.bind (agrees_forward hH (fst_mem_own _ (c := (p, v)) (by simp)))
    (wp_forward_holds hH ?_)
  refine Agrees.skip (wp_getBegin hH ⟨rfl, ?_⟩)
  refine Agrees.require hnext (Agrees.require (Option.some_ne_none _) (Agrees.read ?_))
  refine Agrees.bind (agrees_delete hH _ _) (hdelete.imp fun _ s' _ => ?_)
  rw [hH.begin_]
  by_cases hfirst : startOf s.stump.end_ (ca ++ (p, v) :: cb) = p
  · rw [if_pos hfirst, if_pos (congrArg some hfirst)]
    exact Agrees.refl _ s'
  · rw [if_neg hfirst, if_neg fun he => hfirst (Option.some.inj he)]
    exact Agrees.refl _ s'

theorem deletes_deleteAndGetNext : Deletes (α := α) (deleteAndGetNext · true true) := by
  intro s ca cb p v E hH
  exact (agrees_deleteAndGetNext hH (.inl rfl) ((wp_delete_destroy hH).imp fun _ _ _ => trivial)).wp
    (AvlTreeStump.deletes_deleteAndGetNext hH)

theorem wp_destructValues (hH : Holds s cells) :
    wp destructValueAndDeleteNodeSinceBeginToBeforeEnd (fun _ s' => Holds s' [] ∧
      SameEnds s.stump s'.stump ∧ Outside (own s.stump cells) s.heap s'.heap) E s :=
  wp_deleteAll deletes_deleteAndGetNext hH

theorem wp_destruct (hH : Holds s cells) :
    wp destruct (fun _ s' => Outside (own s.stump cells) s.heap s'.heap) E s :=
  wp_destroyAll deletes_deleteAndGetNext hH

/-- **Keeping the node and destroying its value** is not what
`delete_and_get_next` may be asked for. -/
theorem getNextAndRemoveNode_fails (hH : Holds s cells) :
    wp (getNextAndRemoveNode (some p)) (fun _ _ => False)
      (fun a s' => a = .deleteAndGetNext ∧ s' = s) s := by
  show wp (deleteAndGetNext (some p) false true) _ _ s
  unfold deleteAndGetNext
  rw [wp_bind, wp_require]
  refine ⟨fun _ => ?_, fun h => absurd (root_ne_none hH) h⟩
  rw [wp_bind, wp_require]
  refine ⟨fun _ => ?_, fun h => absurd (Option.some_ne_none p) h⟩
  rw [wp_bind, wp_require]
  exact ⟨fun h => by simp at h, fun _ => ⟨rfl, rfl⟩⟩

/-- A range with an element in it is not moved. -/
theorem moveNodesRange_fails {last : Ptr} (hH : Holds s cells) (hp : p ≠ last) :
    wp (moveNodesRange p last) (fun _ _ => False)
      (fun a s' => a = .deleteAndGetNext ∧ s' = s) s := by
  refine wp_rounds (I := fun _ c s' => c = (some p, []) ∧ s' = s) ?_ 0 ⟨rfl, rfl⟩ (Nat.zero_le _)
  rintro n c s' ⟨rfl, rfl⟩
  rw [if_neg fun he => hp (Option.some.inj he)]
  dsimp only
  rw [wp_bind]
  exact (getNextAndRemoveNode_fails hH).imp fun _ _ h => h.elim

theorem wp_moveNodesRange_self {Q : List Ptr → Tree α → Prop} (hQ : Q [] s) :
    wp (moveNodesRange p p) Q E s := by
  refine wp_rounds (I := fun _ c s' => c = (some p, []) ∧ s' = s) ?_ 0 ⟨rfl, rfl⟩ (Nat.zero_le _)
  rintro n c s' ⟨rfl, rfl⟩
  rw [if_pos rfl, wp_pure]
  exact hQ

/-! ### Insertion -/

theorem agrees_insertBefore_holds (hH : Holds s (ca ++ cb)) (hnew : new ∉ own s.stump (ca ++ cb))
    (hlive : new ∈ s.heap.live) (hone : CountOne s.heap [new]) :
    Agrees (insertBefore (some (startOf s.stump.end_ cb)) new)
      (AvlTreeStump.insertBefore (some (startOf s.stump.end_ cb)) new) s := by
  obtain ⟨fs, l, r, hR, -, -, hT⟩ := hH.split
  obtain ⟨hs, hh⟩ := hone new (List.mem_singleton.mpr rfl)
  exact agrees_insertBefore hR (hT ▸ hnew) hlive hs hh

theorem agrees_resetInvariant (hne : s.stump.beforeBegin ≠ s.stump.end_)
    (hb : s.stump.beforeBegin ∈ s.heap.live) (hend : s.stump.end_ ∈ s.heap.live) :
    Agrees resetInvariant AvlTreeStump.resetInvariant s := by
  refine Agrees.after (wp_get.mpr (Agrees.after (wp_store.mpr ⟨hb, ?_⟩)))
  refine Agrees.after (wp_store.mpr ⟨hend, Agrees.after (wp_setStump.mpr ?_)⟩)
  dsimp only
  have hone : CountOne ((s.heap.set s.stump.beforeBegin TAvlTreeNode.resetInvariant).set
      s.stump.end_ TAvlTreeNode.resetInvariant) [s.stump.beforeBegin, s.stump.end_] := by
    intro x hx
    rcases List.mem_cons.mp hx with rfl | hx
    · rw [Heap.node_set_of_ne hne, Heap.node_set_self]
      exact ⟨rfl, rfl⟩
    · rw [List.mem_singleton.mp hx, Heap.node_set_self]
      exact ⟨rfl, rfl⟩
  have hb₀ : s.stump.beforeBegin ∈ ((s.heap.set s.stump.beforeBegin
    TAvlTreeNode.resetInvariant).set s.stump.end_ TAvlTreeNode.resetInvariant).live := hb
  have hend₀ : s.stump.end_ ∈ ((s.heap.set s.stump.beforeBegin
    TAvlTreeNode.resetInvariant).set s.stump.end_ TAvlTreeNode.resetInvariant).live := hend
  generalize (s.heap.set s.stump.beforeBegin TAvlTreeNode.resetInvariant).set s.stump.end_
    TAvlTreeNode.resetInvariant = h₀ at hone hb₀ hend₀
  obtain ⟨hs, hh⟩ := hone s.stump.end_ (by simp)
  refine Agrees.bind (agrees_insertBefore_first rfl hend₀ hs hh)
    (wp_insertBefore_first rfl hend₀ ?_)
  -- the end is the root, and the other gap node still counts only itself
  have hR := rep_single (inserted none s.stump.end_ (s.stump.setRoot none)) isNew_resetNew hend₀
  have hother : ((h₀.resetNew s.stump.end_).set s.stump.end_ (TAvlTreeNode.setParent none)).node
      s.stump.beforeBegin = h₀.node s.stump.beforeBegin := by
    rw [Heap.node_set_of_ne hne]
    exact edits_resetNew.node _ (by simpa using hne)
  refine Agrees.before (agrees_insertBefore hR (by simpa [plug] using hne) hb₀ ?_ ?_)
  · show (Heap.node _ s.stump.beforeBegin).size = 1
    rw [hother]
    exact (hone _ (by simp)).1
  · show (Heap.node _ s.stump.beforeBegin).height = 1
    rw [hother]
    exact (hone _ (by simp)).2

theorem agrees_construct (alloc : Allocator) :
    Agrees (construct alloc) (AvlTreeStump.construct alloc) s := by
  refine Agrees.after (wp_allocate.mpr (Agrees.after (wp_allocate.mpr ?_)))
  refine Agrees.after (wp_setStump.mpr ?_)
  have hend := alloc.fresh
    (s.heap.add (alloc.pick s.heap.allocations s.heap.live) (TAvlTreeNode.make none)).allocations
    (s.heap.add (alloc.pick s.heap.allocations s.heap.live) (TAvlTreeNode.make none)).live
  refine agrees_resetInvariant (fun he => hend (List.mem_cons.mpr (.inl he.symm))) ?_
    List.mem_cons_self
  exact List.mem_cons_of_mem _ List.mem_cons_self

/-! ### Taking the tree apart -/

section Vine

variable {T l : BinaryTree Ptr} {fs : List (Frame Ptr)} {x : Ptr} {rs : List Ptr} {s' : Tree α}

theorem agrees_rotateAway (h : AtVine s s' T fs x l rs) :
    Agrees (rotateAway (rightRotate · false) x)
      (rotateAway (AvlTreeStump.rightRotate · false) x) s' := by
  refine Agrees.after (wp_load.mpr ⟨h.place.live x (by simp), ?_⟩)
  rw [h.place.linked.2.1]
  cases l with
  | nil => exact Agrees.refl _ s'
  | node q a b => exact Agrees.before (agrees_rotate .left false h.place)

theorem agrees_vineRound (h : AtVine s s' T fs x l rs) :
    Agrees (vineRound (rightRotate · false) x)
      (vineRound (AvlTreeStump.rightRotate · false) x) s' := by
  refine Agrees.before ?_
  refine agrees_rounds (I := fun y s'' => y = x ∧ ∃ gs k, AtVine s s'' T gs x k rs) ?_ ?_
    ⟨rfl, fs, l, h⟩
  · rintro y s'' ⟨rfl, gs, k, hk⟩
    exact agrees_rotateAway hk
  · rintro y s'' ⟨rfl, gs, k, hk⟩
    cases k with
    | nil =>
      unfold rotateAway
      rw [wp_bind, wp_load, hk.place.linked.2.1]
      exact ⟨hk.place.live y (by simp), trivial⟩
    | node q a b =>
      refine (wp_rotateAway hk).imp ?_
      rintro r s₃ ⟨rfl, hk'⟩
      exact ⟨rfl, _, b, hk'⟩

/-- **The dismantling** -/
theorem agrees_treeToVine (hH : Holds s cells) :
    Agrees treeToVineWithPreserveInvariantsOnlyForMemberRight
      AvlTreeStump.treeToVineWithPreserveInvariantsOnlyForMemberRight s := by
  obtain ⟨T, hR, hT⟩ := hH.tree
  have hne : T ≠ nil := by
    rintro rfl
    cases hT
  obtain ⟨p, a, b, rfl⟩ := exists_join .right hne
  refine Agrees.after (wp_get.mpr ?_)
  rw [hR.root, root?_join]
  refine Agrees.after (wp_findExtreme .right hR.settled.toPlace ?_)
  show Agrees (rounds (vineRound (rightRotate · false)) _)
    (rounds (vineRound (AvlTreeStump.rightRotate · false)) _) s
  refine agrees_rounds (I := fun y s' => ∃ gs k rs, AtVine s s' (join .right p a b) gs y k rs)
    ?_ ?_ ⟨_, _, [], atVine_extreme hR.settled.toPlace⟩
  · rintro y s' ⟨gs, k, rs, hk⟩
    exact agrees_vineRound hk
  · rintro y s' ⟨gs, k, rs, hk⟩
    refine (wp_vineRound hk).imp ?_
    rintro r s'' (⟨rfl, -⟩ | ⟨gs', q, c, rfl, hk'⟩)
    · trivial
    · exact ⟨gs', c, y :: rs, hk'⟩

end Vine

/-- The walk along the vine. -/
theorem agrees_collect {end_ : Ptr} {s' : Tree α} (hC : Collecting end_ s'.heap [] cells) :
    Agrees (rounds (fun s : Option Ptr × List Ptr =>
        if s.1 = some end_ then pure (.inr s.2)
        else
          match s.1 with
          | none => stuck
          | some nodeGoingToList => do
            let current ← load nodeGoingToList TAvlTreeNode.right
            require Assertion.moveNodes fun _ => current ≠ none
            store nodeGoingToList TAvlTreeNode.resetInvariant
            pure (.inl (current, s.2 ++ [nodeGoingToList]))) (some (startOf end_ cells), []))
      (rounds (collectRound end_) (some (startOf end_ cells), [])) s' := by
  refine agrees_rounds (I := fun c s'' => ∃ gone rest : List (Cell α),
    c = (some (startOf end_ rest), nodes gone) ∧ Collecting end_ s''.heap gone rest) ?_ ?_
    ⟨[], cells, rfl, hC⟩
  · rintro c s'' ⟨gone, rest, rfl, hC'⟩
    cases rest with
    | nil => exact Agrees.ite (fun _ => Agrees.refl _ s'') fun h => absurd rfl h
    | cons d rest =>
      refine Agrees.ite (fun _ => Agrees.refl _ s'') fun _ => ?_
      refine Agrees.after (wp_load.mpr ⟨hC'.live d.1 (by simp), ?_⟩)
      refine Agrees.require ?_ (Agrees.refl _ s'')
      rw [startOf_cons, hC'.right]
      exact Option.some_ne_none _
  · rintro c s'' ⟨gone, rest, rfl, hC'⟩
    cases rest with
    | nil =>
      unfold collectRound
      rw [startOf_nil, if_pos rfl, wp_pure]
      trivial
    | cons d rest =>
      refine (wp_collectRound hC').imp ?_
      rintro r s₃ ⟨rfl, rfl⟩
      exact ⟨gone ++ [d], rest, rfl, hC'.next⟩

/-- **`moveNodes()`** -/
theorem agrees_moveNodes (hH : Holds s cells) : Agrees moveNodes AvlTreeStump.moveNodes s := by
  obtain ⟨T, hR, hT⟩ := hH.tree
  have hne : T ≠ nil := by
    rintro rfl
    cases hT
  refine Agrees.bind (agrees_treeToVine hH) ((wp_treeToVine hR.settled.toPlace hR.root hne).imp ?_)
  rw [hT]
  rintro y s' ⟨hy, hP, hst, he⟩
  obtain rfl : s.stump.beforeBegin = y := Option.some.inj hy
  obtain ⟨hC, hright⟩ := collecting_of_holds hH hP
  refine Agrees.after (wp_get.mpr (Agrees.require (congrArg _ hst.symm) (Agrees.require ?_ ?_)))
  · rw [hst]
    exact right_of_vine (_ :: nodes cells) hP.linked
  · refine Agrees.after (wp_load.mpr ⟨he.live ▸ hH.live _ (by simp [own]), ?_⟩)
    rw [hright, hst]
    refine Agrees.require (Option.some_ne_none _) ?_
    refine Agrees.bind (agrees_collect hC) ((wp_collect hC).imp ?_)
    rintro x s'' ⟨rfl, hst', he', -⟩
    have hends : SameEnds s.stump s''.stump := by rw [hst', hst]; exact ⟨rfl, rfl⟩
    have hlive : s''.heap.live = s.heap.live := he'.live.trans he.live
    refine Agrees.before (agrees_resetInvariant ?_ ?_ ?_)
    · rw [hends.1, hends.2]
      exact fun h => (List.nodup_cons.mp hH.nodup).1 (by simp [h])
    · rw [hends.1, hlive]
      exact hH.live _ (by simp [own])
    · rw [hends.2, hlive]
      exact hH.live _ (by simp [own])

/-! ### The check of the list itself -/

theorem agrees_checkBegin (hH : Holds s cells) : Agrees checkBegin AvlTreeStump.checkBegin s := by
  obtain ⟨fs, l, r, hR, -, -, -⟩ := (show Holds s ([] ++ cells) from hH).split
  refine Agrees.after (wp_get.mpr ?_)
  rw [hH.begin_]
  refine Agrees.after (wp_checkCouple hR rfl ?_)
  exact Agrees.before (agrees_forward hH (by simp [own]))

theorem agrees_getAmount (hH : Holds s cells) : Agrees getAmount AvlTreeStump.getAmount s := by
  refine Agrees.after (wp_get.mpr (Agrees.before ?_))
  rw [hH.begin_]
  refine agrees_rounds (I := fun c s' => s' = s ∧ ∃ gone rest : List (Cell α),
    cells = gone ++ rest ∧ c.1 = some (startOf s.stump.end_ rest)) ?_ ?_
    ⟨rfl, [], cells, rfl, rfl⟩
  · rintro ⟨it, n⟩ s' ⟨rfl, gone, rest, rfl, rfl⟩
    refine Agrees.ite (fun _ => Agrees.refl _ s') fun _ => ?_
    refine Agrees.before (agrees_forward hH ?_)
    cases rest with
    | nil => simp [own]
    | cons d rest => exact fst_mem_own _ (by simp)
  · rintro ⟨it, n⟩ s' ⟨rfl, gone, rest, rfl, rfl⟩
    cases rest with
    | nil =>
      show wp (if s'.stump.end_ = s'.stump.end_ then _ else _) _ _ s'
      rw [if_pos rfl, wp_pure]
      trivial
    | cons d rest =>
      have hne : d.1 ≠ s'.stump.end_ := fun he => hH.not_gap (.inr he)
      show wp (if d.1 = s'.stump.end_ then _ else _) _ _ s'
      rw [if_neg hne, wp_bind]
      refine wp_forward_holds hH ?_
      exact ⟨rfl, gone ++ [d], rest, by simp, rfl⟩

/-- **A list that holds anything passes its own check.** -/
theorem wp_selfCheckIfConstructed {Q : PUnit → Tree α → Prop} (hH : Holds s cells)
    (hQ : Q PUnit.unit s) : wp selfCheckIfConstructed Q E s := by
  unfold selfCheckIfConstructed selfCheckWithoutHeightAndSizeIfConstructed
  rw [wp_bind, wp_bind]
  refine wp_checkAllParents hH ?_
  rw [wp_bind]
  refine wp_checkBeforeBegin hH ?_
  rw [wp_bind]
  refine wp_checkEnd hH ((agrees_checkBegin hH).wp (AvlTreeStump.wp_checkBegin hH ?_))
  rw [wp_bind]
  refine wp_checkHeights hH (wp_checkSizes hH (fun hQ => ?_) hQ)
  exact (agrees_getAmount hH).wp (AvlTreeStump.wp_getAmount hH hQ)

end AvlTreeStump.Asserted

end Garbage.RandomAccessList
