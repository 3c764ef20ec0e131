import Garbage.RandomAccessList.Jumps
import Garbage.RandomAccessList.Refinement

/-!
# Stepping through any tree

`forward` and `backward` look at the links of a tree and at nothing else: the
tree need not be balanced, and its cached numbers may be wrong.  Where the links
are consistent (`Place`), a step goes to the neighbour in the order of the tree,
and to `NULL` from the last node on its side.  So a step back undoes a step, and
the steps from the first node on meet every node once.
-/

namespace Garbage.RandomAccessList

open Foundation (Prog Side)
open Foundation.Prog
open Foundation.Zipper
open BinaryTree

variable {α ε : Type} {s : Tree α} {T : BinaryTree Ptr} {x y : Ptr} {i : Nat} {side : Side}

namespace AvlTreeStump

variable {E : ε → Tree α → Prop}

/-! ### One step -/

theorem target_one (ns : List Ptr) (i : Nat) : target ns i 1 = ns[i + 1]? :=
  if_pos (by omega)

theorem target_neg_one (ns : List Ptr) (i : Nat) :
    target ns i (-1) = if i = 0 then none else ns[i - 1]? := by
  unfold target
  by_cases hi : i = 0
  · rw [if_pos hi, if_neg (by omega)]
  · have hplace : ((i : Int) + -1).toNat = i - 1 := by omega
    rw [if_neg hi, if_pos (by omega), hplace]

/-- The step of a jump by one place. -/
theorem neighbor_eq_target (k : Int) (hP : Place s.heap [] T) (hx : (inorder T)[i]? = some x)
    (hk : k.natAbs = 1) :
    (neighbor (stepSide k) x : Prog (Tree α) ε (Option Ptr)) s =
      some (.ok (target (inorder T) i k), s) := by
  obtain ⟨xs, ys, hT, htarget⟩ := exists_outward_target hx k
  rw [hk, List.getElem?_cons_succ, ← List.head?_eq_getElem?] at htarget
  exact eq_of_wp (wp_neighbor_of_outward _ hP hT ⟨htarget, rfl⟩)

theorem forward_eq (hP : Place s.heap [] T) (hx : (inorder T)[i]? = some x) :
    (forward x : Prog (Tree α) ε (Option Ptr)) s = some (.ok (inorder T)[i + 1]?, s) := by
  rw [← target_one]
  exact neighbor_eq_target 1 hP hx rfl

theorem backward_eq (hP : Place s.heap [] T) (hx : (inorder T)[i]? = some x) :
    (backward x : Prog (Tree α) ε (Option Ptr)) s =
      some (.ok (if i = 0 then none else (inorder T)[i - 1]?), s) := by
  rw [← target_neg_one]
  exact neighbor_eq_target (-1) hP hx rfl

/-! ### Iterating -/

/-- A round of iterating: meet the node at hand and step on. -/
def visitRound (side : Side) (c : Option Ptr × List Ptr) :
    Prog (Tree α) ε (Option Ptr × List Ptr ⊕ List Ptr) :=
  match c.1 with
  | none => pure (.inr c.2)
  | some current => do
    let next ← neighbor side current
    pure (.inl (next, c.2 ++ [current]))

/-- Iterate to `side` from the extreme node on the other side: the nodes met. -/
def traverse (side : Side) (root : Ptr) : Prog (Tree α) ε (List Ptr) := do
  let first ← findExtreme side.flip root
  rounds (visitRound side) (some first, [])

theorem wp_visits (hP : Place s.heap [] T) :
    wp (rounds (visitRound side) ((outward side T).head?, []))
      (fun l s' => l = outward side T ∧ s' = s) E s := by
  refine wp_rounds (I := fun n c s' => s' = s ∧ ∃ xs ys : List Ptr, outward side T = xs ++ ys ∧
    n = ys.length ∧ c = (ys.head?, xs)) ?_ (outward side T).length
    ⟨rfl, [], _, rfl, rfl, rfl⟩ ?_
  · rintro n c s' ⟨rfl, xs, ys, hT, rfl, rfl⟩
    cases ys with
    | nil =>
      rw [List.append_nil] at hT
      unfold visitRound
      rw [List.head?_nil]
      exact ⟨hT.symm, rfl⟩
    | cons p ys =>
      unfold visitRound
      rw [List.head?_cons]
      dsimp only
      rw [wp_bind]
      refine wp_neighbor_of_outward side hP hT ?_
      rw [wp_pure]
      exact ⟨ys.length, Nat.lt_succ_self _, rfl, xs ++ [p], ys, by simp [hT], rfl, rfl⟩
  · have hlen : (outward side T).length = T.numNodes := by
      rw [← length_inorder]
      cases side with
      | left => exact List.length_reverse
      | right => rfl
    rw [hlen]
    exact hP.numNodes_le

theorem wp_traverse {root : Ptr} (hP : Place s.heap [] T) (hroot : root? T = some root) :
    wp (traverse side root) (fun l s' => l = outward side T ∧ s' = s) E s := by
  have hT : T ≠ nil := by
    rintro rfl
    cases hroot
  obtain ⟨p, a, b, rfl⟩ := exists_join side.flip hT
  rw [root?_join] at hroot
  obtain rfl : p = root := Option.some.inj hroot
  unfold traverse
  rw [wp_bind]
  refine wp_findExtreme side.flip hP ?_
  have hfirst := head?_outward side a p b []
  rw [List.append_nil] at hfirst
  rw [← hfirst]
  exact wp_visits hP

/-! ### There and back -/

/-- The program returns `b` and has written nothing. -/
def Returns {β : Type} (program : Prog (Tree α) Empty β) (s : Tree α) (b : β) : Prop :=
  program s = some (.ok b, s)

theorem Returns.unique {β : Type} {program : Prog (Tree α) Empty β} {b b' : β}
    (h : Returns program s b) (h' : Returns program s b') : b = b' := by
  have heq := (show program s = _ from h).symm.trans h'
  cases heq
  rfl

/-- `y` stands directly behind `x`. -/
def Follows (l : List Ptr) (x y : Ptr) : Prop := ∃ i : Nat, l[i]? = some x ∧ l[i + 1]? = some y

theorem forward_iff (hP : Place s.heap [] T) (hx : x ∈ inorder T) :
    Returns (forward x) s (some y) ↔ Follows (inorder T) x y := by
  constructor
  · intro h
    obtain ⟨i, hi⟩ := List.mem_iff_getElem?.mp hx
    exact ⟨i, hi, Returns.unique (forward_eq hP hi) h⟩
  · rintro ⟨i, hi, hy⟩
    rw [← hy]
    exact forward_eq hP hi

theorem backward_iff (hP : Place s.heap [] T) (hy : y ∈ inorder T) :
    Returns (backward y) s (some x) ↔ Follows (inorder T) x y := by
  constructor
  · intro h
    obtain ⟨j, hj⟩ := List.mem_iff_getElem?.mp hy
    have hprev := Returns.unique (backward_eq hP hj) h
    cases j with
    | zero => cases hprev
    | succ i => exact ⟨i, hprev, hj⟩
  · rintro ⟨i, hi, hy⟩
    rw [← hi]
    exact backward_eq hP hy

/-- A step ends at `NULL` exactly from the last node. -/
theorem forward_none_iff (hP : Place s.heap [] T) (hx : x ∈ inorder T) :
    Returns (forward x) s none ↔ (inorder T).getLast? = some x := by
  have hn : (inorder T).Nodup := (place_nil_iff.mp hP).2.1
  obtain ⟨i, hi⟩ := List.mem_iff_getElem?.mp hx
  have hlt := (List.getElem?_eq_some_iff.mp hi).1
  rw [List.getLast?_eq_getElem?]
  constructor
  · intro h
    have hnone := List.getElem?_eq_none_iff.mp (Returns.unique (forward_eq hP hi) h)
    have hlast : (inorder T).length - 1 = i := by omega
    rw [hlast, hi]
  · intro h
    have hlast : i = (inorder T).length - 1 := (List.getElem?_inj hlt hn).mp (hi.trans h.symm)
    have hnone : (inorder T)[i + 1]? = none := List.getElem?_eq_none_iff.mpr (by omega)
    rw [← hnone]
    exact forward_eq hP hi

theorem backward_none_iff (hP : Place s.heap [] T) (hx : x ∈ inorder T) :
    Returns (backward x) s none ↔ (inorder T).head? = some x := by
  have hn : (inorder T).Nodup := (place_nil_iff.mp hP).2.1
  obtain ⟨i, hi⟩ := List.mem_iff_getElem?.mp hx
  have hlt := (List.getElem?_eq_some_iff.mp hi).1
  rw [List.head?_eq_getElem?]
  constructor
  · intro h
    have hprev := Returns.unique (backward_eq hP hi) h
    by_cases hzero : i = 0
    · rw [← hzero, hi]
    · rw [if_neg hzero, List.getElem?_eq_none_iff] at hprev
      omega
  · intro h
    have hzero : i = 0 := (List.getElem?_inj hlt hn).mp (hi.trans h.symm)
    have hback := backward_eq (ε := Empty) hP hi
    rwa [if_pos hzero] at hback

theorem Follows.mem_left {l : List Ptr} (h : Follows l x y) : x ∈ l := by
  obtain ⟨i, hi, -⟩ := h
  exact List.mem_of_getElem? hi

theorem Follows.mem_right {l : List Ptr} (h : Follows l x y) : y ∈ l := by
  obtain ⟨i, -, hi⟩ := h
  exact List.mem_of_getElem? hi

/-- **Stepping is exact.**  In every tree with consistent links `forward` goes to
the successor and `backward` to the predecessor, to `NULL` from the last and the
first node, each undoes the other, and iterating `forward` from the leftmost
node meets every node once. -/
theorem stepping_exact (hP : Place s.heap [] T) :
    (∀ i x, (inorder T)[i]? = some x →
      Returns (forward x) s (inorder T)[i + 1]? ∧
      Returns (backward x) s (if i = 0 then none else (inorder T)[i - 1]?)) ∧
    (∀ x ∈ inorder T,
      (Returns (forward x) s none ↔ (inorder T).getLast? = some x) ∧
      (Returns (backward x) s none ↔ (inorder T).head? = some x)) ∧
    (∀ x ∈ inorder T, ∀ y,
      (Returns (forward x) s (some y) → Returns (backward y) s (some x)) ∧
      (Returns (backward x) s (some y) → Returns (forward y) s (some x))) ∧
    (∀ root, root? T = some root → Returns (traverse .right root) s (inorder T)) ∧
    (inorder T).Nodup := by
  refine ⟨?_, ?_, ?_, ?_, (place_nil_iff.mp hP).2.1⟩
  · intro i x hx
    exact ⟨forward_eq hP hx, backward_eq hP hx⟩
  · intro x hx
    exact ⟨forward_none_iff hP hx, backward_none_iff hP hx⟩
  · intro x hx y
    constructor
    · intro h
      have hfollows := (forward_iff hP hx).mp h
      exact (backward_iff hP hfollows.mem_right).mpr hfollows
    · intro h
      have hfollows := (backward_iff hP hx).mp h
      exact (forward_iff hP hfollows.mem_left).mpr hfollows
  · intro root hroot
    exact eq_of_wp (wp_traverse hP hroot)

/-- Three nodes in a zigzag, as no balanced tree has them, with no cached number right. -/
def zigzag : Tree Nat where
  heap :=
    { node := fun p => match p with
        | 1 => ⟨none, none, 0, 0, none, some 3⟩
        | 2 => ⟨some 7, some 3, 0, 0, none, none⟩
        | 3 => ⟨none, some 1, 0, 0, some 2, none⟩
        | _ => TAvlTreeNode.make none
      live := [1, 2, 3]
      allocations := 3 }
  stump := ⟨1, some 2, 3, some 1⟩

theorem place_zigzag :
    Place zigzag.heap [] (node 1 nil (node 3 (node 2 nil nil) nil)) := by
  refine place_nil_iff.mpr ⟨?_, by decide, by decide⟩
  exact ⟨rfl, rfl, rfl, trivial, rfl, rfl, rfl, ⟨rfl, rfl, rfl, trivial, trivial⟩, trivial⟩

theorem stepping_exact_zigzag :
    Returns (forward 1) zigzag (some 2) ∧ Returns (forward 3) zigzag none ∧
      Returns (backward 2) zigzag (some 1) ∧ Returns (traverse .right 1) zigzag [1, 2, 3] := by
  obtain ⟨hsteps, hnone, hback, htraverse, -⟩ := stepping_exact place_zigzag
  have hforward := (hsteps 0 1 rfl).1
  exact ⟨hforward, ((hnone 3 (by decide)).1).mpr rfl, (hback 1 (by decide) 2).1 hforward,
    htraverse 1 rfl⟩

end AvlTreeStump

end Garbage.RandomAccessList
