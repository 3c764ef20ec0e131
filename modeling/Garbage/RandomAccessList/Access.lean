import Garbage.RandomAccessList.Insertions
import Garbage.RandomAccessList.Jumps
import Garbage.RandomAccessList.ListCalls

/-!
# The ways to an element

`operator[]` descends by an index that is one more than that of the element, for the
hidden node in front.  An iterator jumps from `begin()` or from `end()`, or goes to its
successors or predecessors one by one.  `Reaches` says that they all come to one node,
and so they do.

`at` is the exception.  Its test is the wrong way round: it throws `out_of_range` at the
elements of the list and nowhere else (`at_never_right`).
-/

namespace Garbage.RandomAccessList

open Foundation (Prog Side)
open Foundation.Prog
open Foundation.Zipper
open BinaryTree

variable {α ε : Type}

namespace Implementation

variable (this : Implementation α ε)

/-- `n` times `operator--`. -/
def decrementBy : Nat → Ptr → Prog (Tree α) ε Ptr
  | 0, current => pure current
  | n + 1, current => do
    let previous ← this.decrement current
    decrementBy n previous

/-- `*(begin() + n)`. -/
def beginPlus (n : Int) : Prog (Tree α) ε Ptr := do
  let first ← this.getBegin
  this.advance first n

/-- `*(end() - n)`. -/
def endMinus (n : Int) : Prog (Tree α) ε Ptr := do
  let last ← Container.end_
  this.advance last (-n)

/-- `n` decrements of `end()`. -/
def endDecremented (n : Nat) : Prog (Tree α) ε Ptr := do
  let last ← Container.end_
  this.decrementBy n last

/-- All ways but `at` to the element `i` of `n` come to the node `x`. -/
structure Reaches (s : Tree α) (n i : Nat) (x : Ptr) : Prop where
  index : this.index i s = some (.ok (some x), s)
  beginPlus : this.beginPlus i s = some (.ok x, s)
  endMinus : this.endMinus (n - i : Nat) s = some (.ok x, s)
  increments : this.iteratorAt i s = some (.ok x, s)
  decrements : this.endDecremented (n - i) s = some (.ok x, s)
  front : i = 0 → this.front s = some (.ok x, s)
  back : i + 1 = n → this.back s = some (.ok x, s)

/-- All ways come to the element `i` of `n`; beyond them `at` throws. -/
def AccessRight (s : Tree α) (n i : Nat) : Prop :=
  (i < n → ∃ x, this.Reaches s n i x ∧ this.at_ i s = some (.ok (some (some x)), s)) ∧
    (n ≤ i → this.at_ i s = some (.ok none, s))

end Implementation

/-! ### The walk from the end -/

variable {s : Tree α} {ca cb da db cells : List (Cell α)} {c : Cell α} {i : Nat} {w : Nat}

theorem getElem?_own_startOf (stump : AvlTreeStump) (ca cb : List (Cell α)) :
    (own stump (ca ++ cb))[ca.length + 1]? = some (startOf stump.end_ cb) := by
  obtain ⟨ys, hys⟩ := nodes_append_end stump.end_ cb
  have hlen : (nodes ca).length = ca.length := List.length_map _
  rw [own, List.getElem?_cons_succ, nodes_append, List.append_assoc, hys, ← hlen]
  simp

namespace Implementation.Sound

variable {this : Implementation α ε} {moves : Prop} {E : ε → Tree α → Prop}

theorem wp_decrementBy (hS : this.Sound moves) (cm : List (Cell α)) :
    ∀ (cb : List (Cell α)) {Q : Ptr → Tree α → Prop}, Holds s (ca ++ (cm ++ cb)) →
      Q (startOf s.stump.end_ (cm ++ cb)) s →
      wp (this.decrementBy cm.length (startOf s.stump.end_ cb)) Q E s := by
  induction cm using List.reverseRecOn with
  | nil => intro cb Q _ hQ; exact hQ
  | append_singleton cm c ih =>
    intro cb Q hH hQ
    rw [List.append_assoc, List.singleton_append] at hH hQ
    rw [List.length_append, List.length_singleton, Implementation.decrementBy, wp_bind]
    have hback : Holds s ((ca ++ cm) ++ (c.1, c.2) :: cb) := by simpa using hH
    refine hS.wp_decrement hback ?_
    exact ih (c :: cb) hH hQ

/-- **`at`** throws at the elements of the list, and nowhere else. -/
theorem at_throws_iff (hS : this.Sound moves) (hH : Holds s cells) (i : Nat) :
    this.at_ i s = some (.ok none, s) ↔ i < cells.length := by
  by_cases hi : i < cells.length
  · refine iff_of_true (eq_of_wp ?_) hi
    rw [Implementation.at_, wp_bind]
    refine Container.wp_size hH ?_
    rw [if_pos hi]
    exact ⟨rfl, rfl⟩
  · refine iff_of_false ?_ hi
    have hreturns : wp (this.at_ i) (fun o _ => o ≠ none) (fun _ _ => False) s := by
      rw [Implementation.at_, wp_bind]
      refine Container.wp_size hH ?_
      rw [if_neg hi, wp_bind]
      exact hS.getByIndex (i + 1) hH (by simp)
    intro hnone
    exact (wp_iff_of_ok hnone).mp hreturns rfl

end Implementation.Sound

/-! ### The jumps -/

section Jumps

variable {E : ε → Tree α → Prop}

open AvlTreeStump in
theorem wp_goTo_released {Q : Option Ptr → Tree α → Prop} {k : Int} (hH : Holds s (ca ++ cb))
    (heq : ca ++ cb = da ++ db) (hk : (ca.length : Int) + k = da.length)
    (hsize : (ca ++ cb).length + 2 < 2 ^ (w - 1)) (hQ : Q (some (startOf s.stump.end_ db)) s) :
    wp ((released w : Implementation α ε).goTo (startOf s.stump.end_ cb) k) Q E s := by
  obtain ⟨T, hR, hT⟩ := hH.tree
  have hn : (inorder T).Nodup := hT ▸ hH.nodup
  have hx : (inorder T)[ca.length + 1]? = some (startOf s.stump.end_ cb) := by
    rw [hT]
    exact getElem?_own_startOf s.stump ca cb
  have htarget : target (inorder T) (ca.length + 1) k = some (startOf s.stump.end_ db) := by
    have hplace : (((ca.length + 1 : Nat) : Int) + k).toNat = da.length + 1 := by omega
    rw [target, if_pos (by omega), hplace, hT, heq]
    exact getElem?_own_startOf s.stump da db
  have hlen : (inorder T).length = (ca ++ cb).length + 2 := by
    rw [hT]
    simp [own, nodes, Nat.add_assoc]
  have hda : da.length ≤ (ca ++ cb).length := by
    rw [heq, List.length_append]
    omega
  have hca : ca.length ≤ (ca ++ cb).length := by
    rw [List.length_append]
    omega
  have hcast : ((2 ^ (w - 1) : Nat) : Int) = 2 ^ (w - 1) := by norm_cast
  have hdone : ∀ o s', o = target (inorder T) (ca.length + 1) k ∧ s' = s → Q o s' := by
    intro o s' hos
    rw [hos.1, hos.2, htarget]
    exact hQ
  show wp (goTo w (startOf s.stump.end_ cb) k) Q E s
  rw [goTo_eq]
  split
  · exact (wp_steps hR hx).imp hdone
  · exact (wp_jump hR hn hx (by omega) (by omega) (by omega)).imp hdone

theorem wp_advance_released {Q : Ptr → Tree α → Prop} {k : Int} (ca da : List (Cell α))
    (hH : Holds s (ca ++ cb)) (heq : ca ++ cb = da ++ db) (hk : (ca.length : Int) + k = da.length)
    (hsize : (ca ++ cb).length + 2 < 2 ^ (w - 1)) (hQ : Q (startOf s.stump.end_ db) s) :
    wp ((released w : Implementation α ε).advance (startOf s.stump.end_ cb) k) Q E s := by
  unfold Implementation.advance
  rw [wp_bind]
  exact wp_goTo_released hH heq hk hsize hQ

end Jumps

/-! ### All ways -/

/-- **All ways but `at`** come to the node of the element. -/
theorem Holds.reaches (hH : Holds s (ca ++ c :: cb))
    (hsize : (ca ++ c :: cb).length + 2 < 2 ^ (w - 1)) :
    (released w : Implementation α ε).Reaches s (ca ++ c :: cb).length ca.length c.1 := by
  have hS : (released w : Implementation α ε).Sound True := released_sound w
  have hrest : (ca ++ c :: cb).length - ca.length = (c :: cb).length := by
    rw [List.length_append]
    omega
  constructor
  case index =>
    refine eq_of_wp (hS.getByIndex (ca.length + 1) hH ⟨?_, rfl⟩)
    exact getElem?_own_startOf s.stump ca (c :: cb)
  case beginPlus =>
    refine eq_of_wp ?_
    rw [Implementation.beginPlus, wp_bind]
    refine hS.getBegin hH ?_
    exact wp_advance_released [] ca hH rfl (by simp) hsize ⟨rfl, rfl⟩
  case endMinus =>
    refine eq_of_wp ?_
    have hend : Holds s ((ca ++ c :: cb) ++ []) := by simpa using hH
    have hplace : ((ca ++ c :: cb).length : Int) + -((c :: cb).length : Nat) = ca.length := by
      rw [List.length_append]
      omega
    have hjump : wp ((released w : Implementation α ε).advance
        (startOf s.stump.end_ ([] : List (Cell α))) (-((c :: cb).length : Nat)))
        (fun x s' => x = c.1 ∧ s' = s) (fun _ _ => False) s :=
      wp_advance_released (ca ++ c :: cb) ca hend (List.append_nil _) hplace
        (by simpa using hsize) ⟨rfl, rfl⟩
    rw [Implementation.endMinus, wp_bind, hrest, Container.wp_end_]
    exact hjump
  case increments => exact eq_of_wp (hS.wp_iteratorAt hH rfl ⟨rfl, rfl⟩)
  case decrements =>
    refine eq_of_wp ?_
    rw [Implementation.endDecremented, wp_bind, hrest, Container.wp_end_]
    exact hS.wp_decrementBy (c :: cb) [] (by simpa using hH) ⟨by simp [startOf], rfl⟩
  case front =>
    intro hzero
    obtain rfl : ca = [] := List.length_eq_zero_iff.mp hzero
    exact eq_of_wp (hS.getBegin hH ⟨rfl, rfl⟩)
  case back =>
    intro hlast
    obtain rfl : cb = [] := by
      rw [List.length_append, List.length_cons] at hlast
      exact List.length_eq_zero_iff.mp (by omega)
    exact eq_of_wp (hS.wp_back (v := c.2) hH ⟨rfl, rfl⟩)

/-! ### Every list of a reachable world -/

/-- **`at` is never right.**  In every list of a reachable world it throws exactly at the
elements, so it fails at every index, while all other ways come to the same element. -/
theorem at_never_right (w : Nat) (alloc : Allocator) {world : World α} {l : Nat}
    {stump : AvlTreeStump} (hr : (calls w alloc).Reachable world)
    (hl : world.lists l = some stump) :
    (∀ i, ¬ (released w : Implementation α Empty).AccessRight ⟨world.heap, stump⟩
        (Tree.elements ⟨world.heap, stump⟩).length i) ∧
      (∀ i, (released w : Implementation α Empty).at_ i ⟨world.heap, stump⟩ =
          some (.ok none, ⟨world.heap, stump⟩) ↔
        i < (Tree.elements ⟨world.heap, stump⟩).length) ∧
      ((Tree.elements ⟨world.heap, stump⟩).length + 2 < 2 ^ (w - 1) →
        ∀ i c, (Tree.elements ⟨world.heap, stump⟩)[i]? = some c →
          (released w : Implementation α Empty).Reaches ⟨world.heap, stump⟩
            (Tree.elements ⟨world.heap, stump⟩).length i c.1) := by
  obtain ⟨cells, hH⟩ := exists_holds hr hl
  rw [hH.elements_eq]
  have hat := (released_sound (α := α) (ε := Empty) w).at_throws_iff hH
  refine ⟨fun i hright => ?_, hat, fun hsize i c hc => ?_⟩
  · by_cases hi : i < cells.length
    · obtain ⟨x, -, hx⟩ := hright.1 hi
      cases hx.symm.trans ((hat i).mpr hi)
    · exact hi ((hat i).mp (hright.2 (Nat.le_of_not_lt hi)))
  · obtain ⟨hi, rfl⟩ := List.getElem?_eq_some_iff.mp hc
    have hsplit : cells.take i ++ cells[i] :: cells.drop (i + 1) = cells := by
      rw [← List.drop_eq_getElem_cons hi, List.take_append_drop]
    have hlen : (cells.take i).length = i := List.length_take_of_le (Nat.le_of_lt hi)
    have hreaches := Holds.reaches (ε := Empty) (w := w) (hsplit ▸ hH) (by rwa [hsplit])
    rwa [hsplit, hlen] at hreaches

theorem length_elements {values : List α} (h : s.elements.map Prod.snd = values) :
    s.elements.length = values.length := by
  rw [← h, List.length_map]

theorem at_never_right_three_elements : ∃ (world : World Nat) (stump : AvlTreeStump),
    (calls 64 bumpAllocator).run ⟨emptyHeap Nat, fun _ => none⟩
      [.op (.create 0), .op (.on 0 (.insertRange 0 [5, 6, 7]))] = some world ∧
    world.lists 0 = some stump ∧
    (∀ i, ¬ (released 64 : Implementation Nat Empty).AccessRight ⟨world.heap, stump⟩ 3 i) ∧
    ∃ a b c, Tree.elements ⟨world.heap, stump⟩ = [(a, 5), (b, 6), (c, 7)] ∧
      (released 64 : Implementation Nat Empty).Reaches ⟨world.heap, stump⟩ 3 0 a ∧
      (released 64 : Implementation Nat Empty).Reaches ⟨world.heap, stump⟩ 3 1 b ∧
      (released 64 : Implementation Nat Empty).Reaches ⟨world.heap, stump⟩ 3 2 c := by
  obtain ⟨world, stump, hrun, hr, hl, hvalues⟩ := exists_list 64 [5, 6, 7]
  obtain ⟨hright, -, hreaches⟩ := at_never_right 64 bumpAllocator hr hl
  have hlen := length_elements hvalues
  obtain ⟨⟨a, va⟩, ⟨b, vb⟩, ⟨c, vc⟩, hcells⟩ := List.length_eq_three.mp hlen
  rw [hcells] at hvalues hright hreaches
  obtain ⟨rfl, rfl, rfl⟩ : va = 5 ∧ vb = 6 ∧ vc = 7 := by simpa using hvalues
  have hat := hreaches (by show 5 < 2 ^ 63; decide)
  exact ⟨world, stump, hrun, hl, hright, a, b, c, hcells, hat 0 _ rfl, hat 1 _ rfl, hat 2 _ rfl⟩

/-- `at(0)` of a list of one element throws, and `at(1)` does not. -/
theorem at_throws_at_element : ∃ (world : World Nat) (stump : AvlTreeStump),
    (calls 64 bumpAllocator).run ⟨emptyHeap Nat, fun _ => none⟩
      [.op (.create 0), .op (.on 0 (.emplace 0 5))] = some world ∧ world.lists 0 = some stump ∧
    (Tree.elements ⟨world.heap, stump⟩).length = 1 ∧
    (released 64 : Implementation Nat Empty).at_ 0 ⟨world.heap, stump⟩ =
      some (.ok none, ⟨world.heap, stump⟩) ∧
    (released 64 : Implementation Nat Empty).at_ 1 ⟨world.heap, stump⟩ ≠
      some (.ok none, ⟨world.heap, stump⟩) := by
  obtain ⟨world, stump, hrun, hr, hl, hvalues⟩ := exists_singleton 5
  obtain ⟨cells, hH⟩ := exists_holds hr hl
  have hlen : cells.length = 1 := hH.elements_eq ▸ length_elements hvalues
  have hat := (released_sound (α := Nat) (ε := Empty) 64).at_throws_iff hH
  rw [hlen] at hat
  exact ⟨world, stump, hrun, hl, by rw [hH.elements_eq, hlen], (hat 0).mpr (by decide),
    mt (hat 1).mp (by decide)⟩

end Garbage.RandomAccessList
