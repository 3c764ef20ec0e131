import Garbage.RandomAccessList.Rebalance

/-!
# Steps through the tree

`findExtreme` from the root of a subtree finds its last node on a side, and
`neighbor` finds the next node of the tree on a side: the nearest one below it,
or else the nearest frame that it is on the other side of.  Neither writes.
-/

namespace Garbage.RandomAccessList

open Foundation (Prog Side)
open Foundation.Prog
open Foundation.Zipper
open BinaryTree

variable {α ε : Type} {h : Heap α} {t u v : BinaryTree Ptr} {fs : List (Frame Ptr)}
  {f : Frame Ptr} {p q : Ptr} {side : Side}

theorem Place.child (side : Side) (hP : Place h fs (join side p u v)) :
    Place h (⟨side, p, v⟩ :: fs) u :=
  place_cons.mpr hP

theorem Place.numNodes_le (hP : Place h fs t) : t.numNodes ≤ h.live.length := by
  rw [← length_inorder]
  exact (List.subperm_of_subset hP.nodup.of_append_left fun p hp =>
    hP.live p (List.mem_append_left _ hp)).length_le

/-- The sibling of a place does not hang where the place does. -/
theorem Place.sibling_ne (hP : Place h (f :: fs) t) (ht : root? t = some p) :
    root? f.sibling ≠ some p := by
  intro hs
  have hdis := (List.nodup_append'.mp hP.nodup).2.2
  exact hdis (mem_of_root? ht) (by simp [keys, mem_of_root? hs])

namespace AvlTreeStump

variable {E : ε → Tree α → Prop} {s : Tree α}

theorem wp_childType {Q : Side → Tree α → Prop} (hP : Place s.heap (f :: fs) t)
    (ht : root? t = some p) (hQ : Q f.side s) : wp (childType p) Q E s := by
  have hp : p ∈ s.heap.live := hP.live p (List.mem_append_left _ (mem_of_root? ht))
  have hf : f.key ∈ s.heap.live := hP.live f.key (by simp [keys])
  obtain ⟨-, hchild, hsib, -⟩ := hP.ctx
  have hne := hP.sibling_ne ht
  unfold childType
  rw [wp_bind, wp_load, hP.linked.parent ht]
  refine ⟨hp, ?_⟩
  dsimp only [above]
  rw [wp_bind, wp_load]
  refine ⟨hf, ?_⟩
  rw [wp_pure]
  obtain ⟨side, key, sibling⟩ := f
  cases side with
  | left =>
    have hleft : (s.heap.node key).left = some p := hchild.trans ht
    rw [if_pos hleft]
    exact hQ
  | right =>
    have hleft : (s.heap.node key).left ≠ some p := fun he => hne (hsib.symm.trans he)
    rw [if_neg hleft]
    exact hQ

theorem wp_findExtreme (side : Side) {Q : Ptr → Tree α → Prop}
    (hP : Place s.heap fs (join side p u v))
    (hQ : Q (extreme side u p v).2.1 s) : wp (findExtreme side p) Q E s := by
  unfold findExtreme
  refine wp_rounds (I := fun n x s' => s' = s ∧ ∃ (gs : List (Frame Ptr)) (w z : BinaryTree Ptr),
    Place s.heap gs (join side x w z) ∧ n = w.numNodes ∧
      (extreme side w x z).2.1 = (extreme side u p v).2.1) ?_ u.numNodes
    ⟨rfl, fs, u, v, hP, rfl, rfl⟩ ?_
  · rintro n x s' ⟨rfl, gs, w, z, hP', rfl, he⟩
    obtain ⟨-, hchild, -⟩ := linked_join.mp hP'.linked
    rw [wp_bind, wp_load, hchild]
    refine ⟨hP'.live x (by simp), ?_⟩
    cases w using induction_on_side side with
    | hnil =>
      have hx : (extreme side u p v).2.1 = x := by rw [← he]; cases side <;> rfl
      rw [hx] at hQ
      exact hQ
    | hjoin k w₁ w₂ _ =>
      rw [root?_join]
      refine ⟨w₁.numNodes, ?_, rfl, ⟨side, x, z⟩ :: gs, w₁, w₂, hP'.child, rfl, ?_⟩
      · rw [numNodes_join]
        omega
      · rw [← he, extreme_join]
  · exact Nat.le_trans (by rw [numNodes_join]; omega) hP.numNodes_le

/-- A round of the climb in `neighbor`. -/
def climbRound (side : Side) (current : Ptr) : Prog (Tree α) ε (Ptr ⊕ Option Ptr) := do
  match ← load current TAvlTreeNode.parent with
  | none => pure (.inr none)
  | some parent => do
    let type ← childType current
    if type = side then pure (.inl parent) else pure (.inr (some parent))

/-- What a round of the climb comes to below the frames `fs`. -/
def Climbed (side : Side) (fs : List (Frame Ptr)) : Ptr ⊕ Option Ptr → Prop
  | .inl parent => ∃ f gs, fs = f :: gs ∧ f.side = side ∧ parent = f.key
  | .inr result => result = (ahead side fs).head?

theorem wp_climbRound (side : Side) (hP : Place s.heap fs t) (ht : root? t = some p) :
    wp (climbRound side p) (fun r s' => s' = s ∧ Climbed side fs r) E s := by
  unfold climbRound
  rw [wp_bind, wp_load, hP.linked.parent ht]
  refine ⟨hP.live p (List.mem_append_left _ (mem_of_root? ht)), ?_⟩
  cases fs with
  | nil => exact ⟨rfl, rfl⟩
  | cons f fs =>
    dsimp only [above]
    rw [wp_bind]
    refine wp_childType hP ht ?_
    by_cases hf : f.side = side
    · rw [if_pos hf, wp_pure]
      exact ⟨rfl, f, fs, rfl, hf, rfl⟩
    · rw [if_neg hf, wp_pure]
      refine ⟨rfl, ?_⟩
      unfold Climbed
      rw [ahead, if_neg hf]
      rfl

/-- The climb leaves behind the frames that the place is on `side` of. -/
theorem wp_climbRounds (side : Side) {Q : Option Ptr → Tree α → Prop} (hP : Place s.heap fs t)
    (ht : root? t = some p) (hQ : Q (ahead side fs).head? s) :
    wp (rounds (climbRound side) p) Q E s := by
  refine wp_rounds (I := fun n x s' => s' = s ∧ ∃ (gs : List (Frame Ptr)) (w : BinaryTree Ptr),
    Place s.heap gs w ∧ root? w = some x ∧ n = gs.length ∧
      (ahead side gs).head? = (ahead side fs).head?) ?_ fs.length
    ⟨rfl, fs, t, hP, ht, rfl, rfl⟩ hP.length_le
  rintro n x s' ⟨rfl, gs, w, hP', hx, rfl, he⟩
  refine (wp_climbRound side hP' hx).imp ?_
  rintro (parent | result) s₂ ⟨rfl, hround⟩
  · obtain ⟨g, gs, rfl, hg, rfl⟩ := hround
    rw [ahead, if_pos hg, List.nil_append] at he
    exact ⟨gs.length, Nat.lt_succ_self _, rfl, gs, g.plug w, place_cons.mp hP',
      root?_plug_frame g w, rfl, he⟩
  · rw [← he, ← show result = _ from hround] at hQ
    exact hQ

/-- **A step to the next node.**  The nodes below `p` on `side` come first, then
those that `p` is on the other side of. -/
theorem wp_neighbor (side : Side) {Q : Option Ptr → Tree α → Prop}
    (hP : Place s.heap fs (join side p u v))
    (hQ : Q (outward side u ++ ahead side fs).head? s) : wp (neighbor side p) Q E s := by
  have hp : p ∈ s.heap.live := hP.live p (by simp)
  obtain ⟨hpar, hchild, -⟩ := linked_join.mp hP.linked
  unfold neighbor
  rw [wp_bind, wp_load, hchild]
  refine ⟨hp, ?_⟩
  cases u using induction_on_side side.flip with
  | hjoin k u₁ u₂ _ =>
    rw [root?_join]
    dsimp only
    rw [wp_bind]
    refine wp_findExtreme side.flip (hP.child side) ?_
    rw [wp_pure, ← head?_outward side u₁ k u₂ (ahead side fs)]
    exact hQ
  | hnil =>
    rw [outward_nil, List.nil_append] at hQ
    rw [root?_nil]
    dsimp only
    rw [wp_bind, wp_load, hpar]
    refine ⟨hp, ?_⟩
    cases fs with
    | nil => exact hQ
    | cons f fs =>
      dsimp only [above]
      rw [wp_bind]
      refine wp_childType hP (root?_join ..) ?_
      by_cases hside : f.side = side.flip
      · rw [if_pos hside]
        have hne : f.side ≠ side := by rw [hside]; exact Side.flip_ne side
        rw [ahead, if_neg hne] at hQ
        exact hQ
      · rw [if_neg hside]
        exact wp_climbRounds side hP (root?_join ..) hQ

/-- The next node in the order in which the nodes of a whole tree are met. -/
theorem wp_neighbor_of_outward (side : Side) {T : BinaryTree Ptr} {xs ys : List Ptr}
    {Q : Option Ptr → Tree α → Prop} (hP : Place s.heap [] T)
    (hT : outward side T = xs ++ p :: ys) (hQ : Q ys.head? s) : wp (neighbor side p) Q E s := by
  obtain ⟨fs, u, v, rfl, rfl⟩ := exists_place_outward side hT
  have hplace := place_plug (h := s.heap) (t := join side p u v) fs []
  rw [List.append_nil] at hplace
  exact wp_neighbor side (hplace.mpr hP) hQ

theorem wp_forward {Q : Option Ptr → Tree α → Prop} (hP : Place s.heap fs (node p u v))
    (hQ : Q (inorder v ++ after fs).head? s) : wp (forward p) Q E s := by
  refine wp_neighbor .right hP ?_
  rw [ahead_right]
  exact hQ

end AvlTreeStump

end Garbage.RandomAccessList
