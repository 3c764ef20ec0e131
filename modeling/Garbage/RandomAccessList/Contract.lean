import Garbage.RandomAccessList.BulkAgreement
import Garbage.RandomAccessList.Implementation

/-!
# What the list needs of its tree

`Sound moves` says what the members of an implementation do to a list that
`Holds` its elements; `moves` is whether it can move a range with an element in
it.  What is proved of the list is proved from this contract.  The members
without assertions fulfil it (`released_sound`), and so do those with assertions
but for the moving of ranges (`asserted_sound`): a program that comes to its
end over `asserted` has met all assertions on its way.
-/

namespace Garbage.RandomAccessList

open Foundation (Prog Side)
open Foundation.Prog
open Foundation.Zipper
open BinaryTree

variable {α ε : Type}

/-- What the members of an implementation do. -/
structure Implementation.Sound (this : Implementation α ε) (moves : Prop) : Prop where
  getBegin {s : Tree α} {cells : List (Cell α)} {E : ε → Tree α → Prop}
    {Q : Ptr → Tree α → Prop} : Holds s cells → Q (startOf s.stump.end_ cells) s →
    wp this.getBegin Q E s
  forward {s : Tree α} {ca cb : List (Cell α)} {p : Ptr} {v : α} {E : ε → Tree α → Prop}
    {Q : Option Ptr → Tree α → Prop} : Holds s (ca ++ (p, v) :: cb) →
    Q (some (startOf s.stump.end_ cb)) s → wp (this.forward p) Q E s
  backward {s : Tree α} {ca cb : List (Cell α)} {p : Ptr} {v : α} {E : ε → Tree α → Prop}
    {Q : Option Ptr → Tree α → Prop} : Holds s (ca ++ (p, v) :: cb) → Q (some p) s →
    wp (this.backward (startOf s.stump.end_ cb)) Q E s
  goTo {s : Tree α} {ca cb : List (Cell α)} {k : Int} {E : ε → Tree α → Prop}
    {Q : Option Ptr → Tree α → Prop} : Holds s (ca ++ cb) → 0 ≤ ca.length + k →
    ca.length + k ≤ (ca ++ cb).length → (∀ o, Q o s) →
    wp (this.goTo (startOf s.stump.end_ cb) k) Q E s
  distance {s : Tree α} {ca cb da db : List (Cell α)} {E : ε → Tree α → Prop}
    {Q : Int → Tree α → Prop} : Holds s (ca ++ cb) → ca ++ cb = da ++ db → (∀ n, Q n s) →
    wp (this.distance (startOf s.stump.end_ cb) (startOf s.stump.end_ db)) Q E s
  getByIndex {s : Tree α} {cells : List (Cell α)} {E : ε → Tree α → Prop}
    {Q : Option Ptr → Tree α → Prop} (k : Nat) : Holds s cells → Q (own s.stump cells)[k]? s →
    wp (this.getByIndex k) Q E s
  insertBefore {s : Tree α} {ca cb : List (Cell α)} {new : Ptr} {v : α} {E : ε → Tree α → Prop} :
    Holds s (ca ++ cb) → new ∉ own s.stump (ca ++ cb) → new ∈ s.heap.live →
    (s.heap.node new).value = some v → CountOne s.heap [new] →
    wp (this.insertBefore (startOf s.stump.end_ cb) new) (fun x s' => x = new ∧
      Holds s' (ca ++ (new, v) :: cb) ∧ SameEnds s.stump s'.stump ∧
      Edits (new :: own s.stump (ca ++ cb)) s.heap s'.heap) E s
  deletes : AvlTreeStump.Deletes this.deleteAndGetNext
  destructValues {s : Tree α} {cells : List (Cell α)} {E : ε → Tree α → Prop} : Holds s cells →
    wp this.destructValueAndDeleteNodeSinceBeginToBeforeEnd (fun _ s' => Holds s' [] ∧
      SameEnds s.stump s'.stump ∧ Outside (own s.stump cells) s.heap s'.heap) E s
  moveNodes {s : Tree α} {cells : List (Cell α)} {E : ε → Tree α → Prop} : Holds s cells →
    wp this.moveNodes (fun x s' => x = nodes cells ∧ Holds s' [] ∧ SameEnds s.stump s'.stump ∧
      Edits (own s.stump cells) s.heap s'.heap ∧ CountOne s'.heap (nodes cells)) E s
  moveNodesRange {s : Tree α} {ca cm cb : List (Cell α)} {E : ε → Tree α → Prop} :
    Holds s (ca ++ cm ++ cb) → (cm ≠ [] → moves) →
    wp (this.moveNodesRange (startOf s.stump.end_ (cm ++ cb)) (startOf s.stump.end_ cb))
      (fun x s' => x = nodes cm ∧ Holds s' (ca ++ cb) ∧ SameEnds s.stump s'.stump ∧
        Edits (own s.stump (ca ++ cm ++ cb)) s.heap s'.heap ∧ CountOne s'.heap (nodes cm)) E s
  selfCheck {s : Tree α} {cells : List (Cell α)} {E : ε → Tree α → Prop}
    {Q : PUnit → Tree α → Prop} : Holds s cells → Q PUnit.unit s →
    wp this.selfCheckIfConstructed Q E s
  construct {s : Tree α} {E : ε → Tree α → Prop} (alloc : Allocator) :
    wp (this.construct alloc) (fun _ s' => Holds s' [] ∧
      (∀ x ∈ own s'.stump ([] : List (Cell α)), x ∉ s.heap.live) ∧ Outside [] s.heap s'.heap) E s
  destruct {s : Tree α} {cells : List (Cell α)} {E : ε → Tree α → Prop} : Holds s cells →
    wp this.destruct (fun _ s' => Outside (own s.stump cells) s.heap s'.heap) E s

/-! ### Places of iterators -/

section Iterators

variable {s : Tree α} {ca cb da db cells : List (Cell α)} {T : BinaryTree Ptr} {p : Ptr} {v : α}

theorem outward_right_own {stump : AvlTreeStump} (hT : inorder T = own stump (ca ++ cb)) :
    ∃ xs ys, outward .right T = xs ++ startOf stump.end_ cb :: ys ∧ ys.length = cb.length := by
  obtain ⟨ys, hys⟩ := nodes_append_end stump.end_ cb
  refine ⟨stump.beforeBegin :: nodes ca, ys, ?_, ?_⟩
  · rw [outward, hT, own, nodes_append, ← hys, List.cons_append, List.append_assoc]
  · have hlen := congrArg List.length hys
    simpa [nodes] using hlen.symm

theorem outward_left_own {stump : AvlTreeStump} (hT : inorder T = own stump (ca ++ cb)) :
    ∃ xs, outward .left T =
      xs ++ startOf stump.end_ cb :: ((nodes ca).reverse ++ [stump.beforeBegin]) := by
  obtain ⟨ys, hys⟩ := nodes_append_end stump.end_ cb
  refine ⟨ys.reverse, ?_⟩
  rw [outward, hT, own, nodes_append, List.append_assoc, hys]
  simp

/-- An iterator that goes by `k` steps stays in the list. -/
theorem outward_stepSide {stump : AvlTreeStump} {k : Int} (hT : inorder T = own stump (ca ++ cb))
    (hlow : 0 ≤ ca.length + k) (hhigh : ca.length + k ≤ (ca ++ cb).length) :
    ∃ xs ys, outward (AvlTreeStump.stepSide k) T = xs ++ startOf stump.end_ cb :: ys ∧
      k.natAbs ≤ ys.length := by
  rw [List.length_append] at hhigh
  unfold AvlTreeStump.stepSide
  by_cases hk : 0 ≤ k
  · rw [if_pos hk]
    obtain ⟨xs, ys, h, hlen⟩ := outward_right_own hT
    exact ⟨xs, ys, h, by omega⟩
  · rw [if_neg hk]
    obtain ⟨xs, h⟩ := outward_left_own hT
    refine ⟨xs, _, h, ?_⟩
    rw [List.length_append, List.length_reverse, nodes, List.length_map]
    omega

theorem startOf_mem_own (stump : AvlTreeStump) (ca cb : List (Cell α)) :
    startOf stump.end_ cb ∈ own stump (ca ++ cb) := by
  obtain ⟨ys, hys⟩ := nodes_append_end stump.end_ cb
  rw [own, nodes_append, List.append_assoc, hys]
  simp

/-! ### The members that find their way -/

section Navigation

variable {w : Nat} {neighbor : Side → Option Ptr → Prog (Tree α) ε (Option Ptr)}
  {getIndex : Ptr → Prog (Tree α) ε (BitVec w)}
  {getByIndex : Nat → Prog (Tree α) ε (Option Ptr)} {E : ε → Tree α → Prop}

open AvlTreeStump (Navigates applyNTimes)

theorem wp_backward_holds (h : Navigates w neighbor getIndex getByIndex)
    {Q : Option Ptr → Tree α → Prop} (hH : Holds s (ca ++ (p, v) :: cb)) (hQ : Q (some p) s) :
    wp (neighbor .left (some (startOf s.stump.end_ cb))) Q E s := by
  obtain ⟨T, hR, hT⟩ := hH.tree
  rw [List.append_cons] at hT
  obtain ⟨xs, hout⟩ := outward_left_own hT
  exact h.neighbor .left hR hout (by simpa using hQ)

theorem wp_goTo_holds (h : Navigates w neighbor getIndex getByIndex) {k : Int}
    {Q : Option Ptr → Tree α → Prop} (hH : Holds s (ca ++ cb)) (hlow : 0 ≤ ca.length + k)
    (hhigh : ca.length + k ≤ (ca ++ cb).length) (hQ : ∀ o, Q o s) :
    wp (do
      if k.natAbs ≤ 2 then
        applyNTimes (neighbor (AvlTreeStump.stepSide k)) k.natAbs (some (startOf s.stump.end_ cb))
      else do
        let i ← getIndex (startOf s.stump.end_ cb)
        getByIndex (i + BitVec.ofInt w k).toNat) Q E s := by
  obtain ⟨T, hR, hT⟩ := hH.tree
  obtain ⟨xs, ys, hout, hk⟩ := outward_stepSide hT hlow hhigh
  exact h.goTo hR hout hk hQ

theorem wp_distance_holds (h : Navigates w neighbor getIndex getByIndex)
    {Q : Int → Tree α → Prop} (hH : Holds s (ca ++ cb)) (heq : ca ++ cb = da ++ db)
    (hQ : ∀ n, Q n s) :
    wp (do
      let rightIndex ← getIndex (startOf s.stump.end_ db)
      let leftIndex ← getIndex (startOf s.stump.end_ cb)
      pure (rightIndex - leftIndex).toInt) Q E s := by
  obtain ⟨T, hR, hT⟩ := hH.tree
  obtain ⟨fs, l, r, hfs⟩ := exists_plug_of_mem (hT ▸ startOf_mem_own s.stump ca cb)
  obtain ⟨gs, l', r', hgs⟩ := exists_plug_of_mem (hT ▸ heq ▸ startOf_mem_own s.stump da db)
  exact h.distance hR hfs rfl hgs rfl (hQ _)

theorem wp_getByIndex_holds (h : Navigates w neighbor getIndex getByIndex)
    {Q : Option Ptr → Tree α → Prop} (k : Nat) (hH : Holds s cells)
    (hQ : Q (own s.stump cells)[k]? s) : wp (getByIndex k) Q E s := by
  obtain ⟨T, hR, hT⟩ := hH.tree
  refine (h.getByIndex k hR ?_).imp ?_
  · rintro rfl
    cases hT
  · rintro o s' ⟨rfl, rfl⟩
    rwa [hT]

end Navigation

end Iterators

/-! ### The two implementations -/

open AvlTreeStump in
/-- **Without assertions** -/
theorem released_sound (w : Nat) : (released w : Implementation α ε).Sound True where
  getBegin hH hQ := (wp_read _).mpr ⟨_, hH.begin_, hQ⟩
  forward hH hQ := wp_forward_holds hH hQ
  backward hH hQ := wp_backward_holds (navigates w) hH hQ
  goTo hH hlow hhigh hQ := wp_goTo_holds (navigates w) hH hlow hhigh hQ
  distance hH heq hQ := wp_distance_holds (navigates w) hH heq hQ
  getByIndex k hH hQ := wp_getByIndex_holds (navigates w) k hH hQ
  insertBefore hH hnew hlive hv _ := wp_insertBefore_holds hH hnew hlive hv
  deletes := deletes_deleteAndGetNext
  destructValues hH := wp_destructValues hH
  moveNodes hH := wp_moveNodes hH
  moveNodesRange hH _ := wp_moveNodesRange hH
  selfCheck hH hQ := wp_selfCheckIfConstructed hH hQ
  construct alloc := wp_construct alloc
  destruct hH := wp_destruct hH

open AvlTreeStump.Asserted in
/-- **With assertions**, but for the ranges with an element in them. -/
theorem asserted_sound (w : Nat) : (asserted w : Implementation α Assertion).Sound False where
  getBegin hH hQ := wp_getBegin hH hQ
  forward {s ca cb p v E Q} hH hQ :=
    (agrees_forward hH (fst_mem_own _ (c := (p, v)) (by simp))).wp
      (AvlTreeStump.wp_forward_holds hH hQ)
  backward hH hQ := wp_backward_holds (navigates w) hH hQ
  goTo hH hlow hhigh hQ := wp_goTo_holds (navigates w) hH hlow hhigh hQ
  distance hH heq hQ := wp_distance_holds (navigates w) hH heq hQ
  getByIndex k hH hQ := wp_getByIndex_holds (navigates w) k hH hQ
  insertBefore hH hnew hlive hv hone :=
    (agrees_insertBefore_holds hH hnew hlive hone).wp
      (AvlTreeStump.wp_insertBefore_holds hH hnew hlive hv)
  deletes := deletes_deleteAndGetNext
  destructValues hH := wp_destructValues hH
  moveNodes hH := (agrees_moveNodes hH).wp (AvlTreeStump.wp_moveNodes hH)
  moveNodesRange {s ca cm cb E} hH hm := by
    cases cm with
    | nil =>
      rw [List.append_nil] at hH
      refine wp_moveNodesRange_self ⟨rfl, hH, ⟨rfl, rfl⟩, Edits.refl _ _, by simp [CountOne]⟩
    | cons c cm => exact (hm (by simp)).elim
  selfCheck hH hQ := wp_selfCheckIfConstructed hH hQ
  construct alloc := (agrees_construct alloc).wp (AvlTreeStump.wp_construct alloc)
  destruct hH := wp_destruct hH

end Garbage.RandomAccessList
