import Garbage.RandomAccessList.Ranks

/-!
# A jump is that many steps

`go_to` goes on one of two paths.  `steps` is the slow one: it applies `forward`
or `backward` as often as it is told, from `NULL` to `NULL`.  `jump` is the fast
one: it adds to the index of the node, modulo `2 ^ w`, and looks the sum up.  A
step count is a `difference_type`, so it lies between `-2 ^ (w - 1)` and
`2 ^ (w - 1)`.

`target` is where both must come to: the node that many places further in the
order of the tree, `NULL` if there is none.  A jump to the left of the tree wraps
to an index of at least `2 ^ (w - 1)`, which a smaller tree does not have
(`go_to_eq_steps`).
-/

namespace Garbage.RandomAccessList

open Foundation (Prog Side)
open Foundation.Prog
open Foundation.Zipper
open BinaryTree

variable {α ε : Type} {w : Nat} {s : Tree α} {T : BinaryTree Ptr} {x : Ptr} {i : Nat} {k : Int}

/-- The node `k` places behind the one at `i`. -/
def target (ns : List Ptr) (i : Nat) (k : Int) : Option Ptr :=
  if 0 ≤ i + k then ns[(i + k).toNat]? else none

namespace AvlTreeStump

/-- The path of `goTo` for a few steps. -/
def steps (node : Ptr) (stepAmount : Int) : Prog (Tree α) ε (Option Ptr) :=
  applyNTimes (neighborOrNull (stepSide stepAmount)) stepAmount.natAbs (some node)

/-- The path of `goTo` for many steps. -/
def jump (w : Nat) (node : Ptr) (stepAmount : Int) : Prog (Tree α) ε (Option Ptr) := do
  let sourceNodeIndex ← getIndex w node
  let destinationNodeIndex := sourceNodeIndex + BitVec.ofInt w stepAmount
  getByIndex destinationNodeIndex.toNat

theorem goTo_eq (node : Ptr) (stepAmount : Int) :
    (goTo w node stepAmount : Prog (Tree α) ε (Option Ptr)) =
      if stepAmount.natAbs ≤ 2 then steps node stepAmount else jump w node stepAmount := rfl

variable {E : ε → Tree α → Prop}

/-! ### The path by steps -/

theorem wp_applyNTimes_null (side : Side) (n : Nat) :
    wp (applyNTimes (neighborOrNull side) n none) (fun o s' => s' = s ∧ o = none) E s := by
  induction n with
  | zero => exact ⟨rfl, rfl⟩
  | succ n ih =>
    rw [applyNTimes, wp_bind]
    exact ih

theorem wp_applyNTimes_outward (side : Side) (hR : Rep s T) (n : Nat) :
    ∀ {xs ys : List Ptr} {p : Ptr}, outward side T = xs ++ p :: ys →
      wp (applyNTimes (neighborOrNull side) n (some p))
        (fun o s' => s' = s ∧ o = (p :: ys)[n]?) E s := by
  induction n with
  | zero =>
    intro xs ys p _
    exact ⟨rfl, rfl⟩
  | succ n ih =>
    intro xs ys p hT
    rw [applyNTimes, wp_bind]
    refine wp_neighbor_outward side hR hT ?_
    cases ys with
    | nil => exact wp_applyNTimes_null side n
    | cons q ys =>
      have hT' : outward side T = (xs ++ [p]) ++ q :: ys := by rw [hT]; simp
      exact ih hT'

/-- The nodes behind a place of the tree, on the side of the steps. -/
theorem exists_outward_target (hx : (inorder T)[i]? = some x) (k : Int) :
    ∃ xs ys, outward (stepSide k) T = xs ++ x :: ys ∧
      (x :: ys)[k.natAbs]? = target (inorder T) i k := by
  obtain ⟨hi, rfl⟩ := List.getElem?_eq_some_iff.mp hx
  unfold stepSide target
  by_cases hk : 0 ≤ k
  · have hsum : ((i : Int) + k).toNat = i + k.natAbs := by omega
    rw [if_pos hk, if_pos (by omega), hsum]
    refine ⟨(inorder T).take i, (inorder T).drop (i + 1), ?_, ?_⟩
    · rw [← List.drop_eq_getElem_cons hi, List.take_append_drop]
      rfl
    · rw [← List.drop_eq_getElem_cons hi, List.getElem?_drop]
  · rw [if_neg hk]
    have hfront : ((inorder T).take (i + 1)).reverse =
        (inorder T)[i] :: ((inorder T).take i).reverse := by
      rw [List.take_succ_eq_append_getElem hi, List.reverse_append]
      rfl
    refine ⟨((inorder T).drop (i + 1)).reverse, ((inorder T).take i).reverse, ?_, ?_⟩
    · rw [← hfront, ← List.reverse_append, List.take_append_drop]
      rfl
    · have hlen : ((inorder T).take (i + 1)).length = i + 1 := List.length_take_of_le hi
      rw [← hfront]
      by_cases hsum : 0 ≤ (i : Int) + k
      · have hback : i + 1 - 1 - k.natAbs = ((i : Int) + k).toNat := by omega
        rw [if_pos hsum, List.getElem?_reverse (by omega), hlen, hback]
        exact List.getElem?_take_of_lt (by omega)
      · rw [if_neg hsum, List.getElem?_eq_none]
        rw [List.length_reverse, hlen]
        omega

theorem wp_steps (hR : Rep s T) (hx : (inorder T)[i]? = some x) :
    wp (steps x k) (fun o s' => o = target (inorder T) i k ∧ s' = s) E s := by
  obtain ⟨xs, ys, hT, htarget⟩ := exists_outward_target hx k
  refine (wp_applyNTimes_outward (stepSide k) hR k.natAbs hT).imp ?_
  rintro o s' ⟨rfl, rfl⟩
  exact ⟨htarget, rfl⟩

/-! ### The path by indices -/

/-- The index that is looked up, and what is there: a sum below 0 wraps beyond
the end of the tree. -/
theorem getElem?_wrapped {ns : List Ptr} (hi : i < ns.length) (hsize : ns.length < 2 ^ (w - 1))
    (hlow : -2 ^ (w - 1) ≤ k) (hhigh : k < 2 ^ (w - 1)) :
    ns[(BitVec.ofNat w i + BitVec.ofInt w k).toNat]? = target ns i k := by
  have hw : 2 ^ w = 2 ^ (w - 1) + 2 ^ (w - 1) := by
    cases w with
    | zero => exact absurd hsize (by simp; omega)
    | succ w => rw [Nat.add_sub_cancel, Nat.pow_succ]; omega
  have hindex : ((BitVec.ofNat w i + BitVec.ofInt w k).toNat : Int) =
      ((i : Int) + k) % (2 ^ w : Nat) := by
    have hpos : 0 ≤ ((i : Int) + k) % (2 ^ w : Nat) :=
      Int.emod_nonneg _ (Int.natCast_ne_zero.mpr (Nat.ne_of_gt (Nat.two_pow_pos w)))
    rw [← BitVec.ofInt_natCast, ← BitVec.ofInt_add, BitVec.toNat_ofInt, Int.toNat_of_nonneg hpos]
  have hcast : ((2 ^ (w - 1) : Nat) : Int) = 2 ^ (w - 1) := by norm_cast
  rw [← hcast] at hlow hhigh
  unfold target
  by_cases hsum : 0 ≤ (i : Int) + k
  · rw [if_pos hsum]
    rw [Int.emod_eq_of_lt hsum (by omega)] at hindex
    rw [← hindex, Int.toNat_natCast]
  · rw [if_neg hsum]
    rw [← Int.add_emod_right, Int.emod_eq_of_lt (by omega) (by omega)] at hindex
    exact List.getElem?_eq_none (by omega)

theorem wp_jump (hR : Rep s T) (hn : (inorder T).Nodup) (hx : (inorder T)[i]? = some x)
    (hsize : (inorder T).length < 2 ^ (w - 1)) (hlow : -2 ^ (w - 1) ≤ k)
    (hhigh : k < 2 ^ (w - 1)) :
    wp (jump w x k) (fun o s' => o = target (inorder T) i k ∧ s' = s) E s := by
  obtain ⟨hi, -⟩ := List.getElem?_eq_some_iff.mp hx
  obtain ⟨fs, t, rfl, ht, rfl⟩ := exists_place_at hn hx
  have hne : plug fs t ≠ nil := by
    intro he
    rw [he] at hi
    cases hi
  unfold jump
  rw [wp_bind]
  refine wp_getIndex hR ht ((wp_getByIndex _ hR hne).imp ?_)
  rintro o s' ⟨rfl, rfl⟩
  exact ⟨getElem?_wrapped hi hsize hlow hhigh, rfl⟩

end AvlTreeStump

/-! ### Every list of a reachable world -/

open AvlTreeStump

/-- **A jump is that many steps.**  In the tree of every list of a reachable
world, from every node and by every step count, `go_to` and both of its paths
come to the same node, or to `NULL` where they leave the tree on either side. -/
theorem go_to_eq_steps (w : Nat) (alloc : Allocator) {world : World α} {l : Nat}
    {stump : AvlTreeStump} (hr : (calls w alloc).Reachable world)
    (hl : world.lists l = some stump)
    (hsize : (inorderOf ⟨world.heap, stump⟩).length < 2 ^ (w - 1)) {i : Nat} {x : Ptr}
    (hx : (inorderOf ⟨world.heap, stump⟩)[i]? = some x) (k : Int) (hlow : -2 ^ (w - 1) ≤ k)
    (hhigh : k < 2 ^ (w - 1)) :
    (goTo w x k : Prog (Tree α) Empty (Option Ptr)) ⟨world.heap, stump⟩ =
        (steps x k : Prog (Tree α) Empty (Option Ptr)) ⟨world.heap, stump⟩ ∧
      (jump w x k : Prog (Tree α) Empty (Option Ptr)) ⟨world.heap, stump⟩ =
        (steps x k : Prog (Tree α) Empty (Option Ptr)) ⟨world.heap, stump⟩ ∧
      (steps x k : Prog (Tree α) Empty (Option Ptr)) ⟨world.heap, stump⟩ =
        some (.ok (target (inorderOf ⟨world.heap, stump⟩) i k), ⟨world.heap, stump⟩) := by
  obtain ⟨cells, hH⟩ := exists_holds hr hl
  obtain ⟨T, hR, hT⟩ := hH.tree
  rw [hH.inorderOf_eq, ← hT] at hsize hx ⊢
  have hsteps := eq_of_wp (wp_steps (E := fun (_ : Empty) _ => False) (k := k) hR hx)
  have hjump := eq_of_wp (wp_jump (E := fun (_ : Empty) _ => False) hR (hT ▸ hH.nodup) hx hsize
    hlow hhigh)
  refine ⟨?_, hjump.trans hsteps.symm, hsteps⟩
  rw [goTo_eq]
  split
  · rfl
  · exact hjump.trans hsteps.symm

/-- In a list of three elements, from the first one, four steps back leave the
tree. -/
theorem go_to_eq_steps_three_elements : ∃ (world : World Nat) (stump : AvlTreeStump) (x : Ptr),
    (calls 64 bumpAllocator).run ⟨emptyHeap Nat, fun _ => none⟩
      [.op (.create 0), .op (.on 0 (.insertCount 0 3 7))] = some world ∧
    (inorderOf ⟨world.heap, stump⟩)[1]? = some x ∧
    (goTo 64 x (-4) : Prog (Tree Nat) Empty (Option Ptr)) ⟨world.heap, stump⟩ =
      (steps x (-4) : Prog (Tree Nat) Empty (Option Ptr)) ⟨world.heap, stump⟩ := by
  obtain ⟨world, stump, hrun, hr, hl, hn⟩ := exists_long_list 64 3
  obtain ⟨x, hx⟩ : ∃ x, (inorderOf ⟨world.heap, stump⟩)[1]? = some x :=
    ⟨_, List.getElem?_eq_getElem (by rw [hn]; decide)⟩
  exact ⟨world, stump, x, hrun, hx,
    (go_to_eq_steps 64 bumpAllocator hr hl (by rw [hn]; decide) hx (-4) (by decide)
      (by decide)).1⟩

end Garbage.RandomAccessList
