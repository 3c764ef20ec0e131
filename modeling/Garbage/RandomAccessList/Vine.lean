import Garbage.RandomAccessList.Insertions
import Garbage.RandomAccessList.Stepping

/-!
# What dismantling leaves

`treeToVineWithPreserveInvariantsOnlyForMemberRight` makes a vine of the tree:
from the node it returns, the right pointers alone lead through all nodes.
`followRight` is that walk.  For every list of a reachable world it meets the
nodes in the order that the tree had, from the hidden node in front to `end()`.

So `moveNodes` returns the nodes of all elements in their order, each of them as
new apart from its value, and leaves an empty list of the same two gap nodes.
-/

namespace Garbage.RandomAccessList

open Foundation (Prog)
open Foundation.Prog
open Foundation.Zipper
open BinaryTree

variable {α ε : Type} {s : Tree α} {cells : List (Cell α)} {w : Nat} {x : Ptr} {xs : List Ptr}

namespace AvlTreeStump

variable {E : ε → Tree α → Prop}

/-! ### Following the right pointers -/

/-- A round of the walk along the right pointers. -/
def followRound (c : Ptr × List Ptr) : Prog (Tree α) ε (Ptr × List Ptr ⊕ List Ptr) := do
  match ← load c.1 TAvlTreeNode.right with
  | none => pure (.inr (c.2 ++ [c.1]))
  | some right => pure (.inl (right, c.2 ++ [c.1]))

/-- The nodes met on the way along the right pointers. -/
def followRight (start : Ptr) : Prog (Tree α) ε (List Ptr) := rounds followRound (start, [])

theorem wp_followRight (hP : Place s.heap [] (vine (x :: xs))) :
    wp (followRight x) (fun l s' => l = x :: xs ∧ s' = s) E s := by
  obtain ⟨hl, hn, hlive⟩ := place_nil_iff.mp hP
  rw [inorder_vine] at hn hlive
  unfold followRight
  refine wp_rounds (I := fun n c s' => s' = s ∧
    ∃ (par : Option Ptr) (gone rest : List Ptr) (y : Ptr), x :: xs = gone ++ y :: rest ∧
      c = (y, gone) ∧ n = rest.length ∧ Linked s.heap par (vine (y :: rest))) ?_ xs.length
    ⟨rfl, _, [], xs, x, rfl, rfl, rfl, hl⟩ ?_
  · rintro n c s' ⟨rfl, par, gone, rest, y, hxs, rfl, rfl, -, -, hright, -, hrest⟩
    have hy : y ∈ s'.heap.live := hlive y (by rw [hxs]; simp)
    rw [root?_vine] at hright
    unfold followRound
    rw [wp_bind, wp_load, hright]
    refine ⟨hy, ?_⟩
    cases rest with
    | nil => exact ⟨hxs.symm, rfl⟩
    | cons z rest =>
      have hxs' : x :: xs = (gone ++ [y]) ++ z :: rest := by rw [hxs]; simp
      exact ⟨rest.length, Nat.lt_succ_self _, rfl, some y, gone ++ [y], rest, z, hxs', rfl, rfl,
        hrest⟩
  · have hlen := (List.subperm_of_subset hn hlive).length_le
    rw [List.length_cons] at hlen
    omega

/-! ### The vine and the empty list -/

theorem exists_vine (hH : Holds s cells) :
    ∃ s', (treeToVineWithPreserveInvariantsOnlyForMemberRight : Prog (Tree α) Empty Ptr) s =
        some (.ok s.stump.beforeBegin, s') ∧
      Returns (followRight s.stump.beforeBegin) s' (own s.stump cells) := by
  obtain ⟨T, hR, hT⟩ := hH.tree
  have hne : T ≠ nil := by
    rintro rfl
    cases hT
  obtain ⟨y, s', hrun, hy, hP, -, -⟩ :=
    (wp_treeToVine (E := fun _ _ => False) hR.settled.toPlace hR.root hne).returns
  rw [hT] at hy hP
  obtain rfl : s.stump.beforeBegin = y := Option.some.inj hy
  exact ⟨s', hrun, eq_of_wp (wp_followRight hP)⟩

/-- The nodes come out as new nodes with their values. -/
theorem exists_moveNodes (hH : Holds s cells) :
    ∃ s', (moveNodes : Prog (Tree α) Empty (List Ptr)) s = some (.ok (nodes cells), s') ∧
      (∀ c ∈ cells, s'.heap.node c.1 = TAvlTreeNode.make (some c.2)) ∧
      Holds s' [] ∧ SameEnds s.stump s'.stump ∧ s'.heap.live = s.heap.live := by
  obtain ⟨x, s', hrun, rfl, hH', hends, he, hf⟩ :=
    (wp_moveNodes_fresh (E := fun _ _ => False) hH).returns
  refine ⟨s', hrun, ?_, hH', hends, he.live⟩
  intro c hc
  have hvalue : (s'.heap.node c.1).value = some c.2 := (he.value c.1).trans (hH.values c hc)
  rw [hf c.1 (List.mem_map_of_mem hc), hvalue]

/-- **Dismantling is complete.**  In every list of a reachable world the tree
becomes a vine in the old order, from the hidden node to `end()`, and `moveNodes`
returns the nodes of the elements in order, each as new, and leaves an empty list
of the same gap nodes that passes its check. -/
theorem dismantling_complete {alloc : Allocator} {world : World α} {l : Nat}
    {stump : AvlTreeStump} (hr : (calls w alloc).Reachable world)
    (hl : world.lists l = some stump) :
    (∃ s', (treeToVineWithPreserveInvariantsOnlyForMemberRight : Prog (Tree α) Empty Ptr)
          ⟨world.heap, stump⟩ = some (.ok stump.beforeBegin, s') ∧
        Returns (followRight stump.beforeBegin) s' (inorderOf ⟨world.heap, stump⟩) ∧
        (inorderOf ⟨world.heap, stump⟩).Nodup ∧
        (inorderOf ⟨world.heap, stump⟩).getLast? = some stump.end_) ∧
    ∃ s', (moveNodes : Prog (Tree α) Empty (List Ptr)) ⟨world.heap, stump⟩ =
          some (.ok ((Tree.elements ⟨world.heap, stump⟩).map Prod.fst), s') ∧
        (∀ c ∈ Tree.elements ⟨world.heap, stump⟩,
          s'.heap.node c.1 = TAvlTreeNode.make (some c.2)) ∧
        Tree.elements s' = [] ∧ Returns selfCheckIfConstructed s' PUnit.unit ∧
        inorderOf s' = [stump.beforeBegin, stump.end_] ∧ SameEnds stump s'.stump ∧
        s'.heap.live = world.heap.live := by
  obtain ⟨cells, hH⟩ := exists_holds hr hl
  rw [hH.inorderOf_eq, hH.elements_eq]
  constructor
  · obtain ⟨s', hrun, hfollow⟩ := exists_vine hH
    refine ⟨s', hrun, hfollow, hH.nodup, ?_⟩
    rw [own, ← List.cons_append]
    exact List.getLast?_concat
  · obtain ⟨s', hrun, hfresh, hH', hends, hlive⟩ := exists_moveNodes hH
    refine ⟨s', hrun, hfresh, hH'.elements_eq, ?_, ?_, hends, hlive⟩
    · exact eq_of_wp (wp_selfCheckIfConstructed hH' ⟨rfl, rfl⟩)
    · rw [hH'.inorderOf_eq, hends.own_eq]
      rfl

/-- A list of five elements becomes a vine, and is taken to pieces. -/
theorem dismantling_complete_five_elements : ∃ (world : World Nat) (stump : AvlTreeStump),
    (calls 64 bumpAllocator).run ⟨emptyHeap Nat, fun _ => none⟩
      [.op (.create 0), .op (.on 0 (.insertRange 0 [5, 6, 7, 8, 9]))] = some world ∧
    world.lists 0 = some stump ∧
    (∃ s', (treeToVineWithPreserveInvariantsOnlyForMemberRight : Prog (Tree Nat) Empty Ptr)
        ⟨world.heap, stump⟩ = some (.ok stump.beforeBegin, s') ∧
      Returns (followRight stump.beforeBegin) s' (inorderOf ⟨world.heap, stump⟩)) ∧
    ∃ ps s', (moveNodes : Prog (Tree Nat) Empty (List Ptr)) ⟨world.heap, stump⟩ =
        some (.ok ps, s') ∧
      ps.map s'.heap.node = [5, 6, 7, 8, 9].map (fun v => TAvlTreeNode.make (some v)) ∧
      Tree.elements s' = [] := by
  obtain ⟨world, stump, hrun, hr, hl, hvalues⟩ := exists_list 64 [5, 6, 7, 8, 9]
  obtain ⟨⟨s', hvine, hfollow, -⟩, s'', hmove, hfresh, hempty, -⟩ := dismantling_complete hr hl
  refine ⟨world, stump, hrun, hl, ⟨s', hvine, hfollow⟩, _, s'', hmove, ?_, hempty⟩
  rw [← hvalues, List.map_map, List.map_map]
  exact List.map_congr_left hfresh

end AvlTreeStump

end Garbage.RandomAccessList
