import Garbage.RandomAccessList.Assertions
import Garbage.RandomAccessList.Stability

/-!
# Indexing is exact

`Indexed w s ns`: in the tree `s` with the nodes `ns` from left to right,
`getIndex` is the position of a node, `getByIndex` is the node at a position and
`NULL` beyond the last one, and each undoes the other.  `distance` is the
difference of two positions as far as it fits into a `difference_type` of `w`
bits; a larger one wraps.  `indexing_exact`: this holds of the tree of every
list in a reachable world, with assertions and without, if the number of nodes
fits into a `size_type`.
-/

namespace Garbage.RandomAccessList

open Foundation (Prog Machine Side)
open Foundation.Prog
open Foundation.Zipper
open AvlTreeStump
open BinaryTree

variable {α ε : Type} {w : Nat} {s : Tree α} {cells : List (Cell α)}

/-- The members that go by position do so exactly. -/
structure Indexed (w : Nat) (s : Tree α) (ns : List Ptr)
    (getIndex : Ptr → Prog (Tree α) ε (BitVec w)) (getByIndex : Nat → Prog (Tree α) ε (Option Ptr))
    (distance : Ptr → Ptr → Prog (Tree α) ε Int) : Prop where
  index : ∀ (i : Nat) (x : Ptr), ns[i]? = some x → ∃ k, getIndex x s = some (.ok k, s) ∧ k.toNat = i
  node : ∀ i, getByIndex i s = some (.ok ns[i]?, s)
  nodeOfIndex : ∀ x ∈ ns, (do
    let k ← getIndex x
    getByIndex k.toNat) s = some (.ok (some x), s)
  indexOfNode : ∀ i < ns.length, (do
    match ← getByIndex i with
    | none => stuck
    | some x => getIndex x) s = some (.ok (BitVec.ofNat w i), s)
  difference : ∀ (i j : Nat) (x y : Ptr), ns[i]? = some x → ns[j]? = some y →
    distance x y s = some (.ok (((j : Int) - i).bmod (2 ^ w)), s)
  difference_exact : ∀ (i j : Nat) (x y : Ptr), ns[i]? = some x → ns[j]? = some y →
    (distance x y s = some (.ok ((j : Int) - i), s) ↔
      -(2 ^ w : Int) ≤ 2 * ((j : Int) - i) ∧ 2 * ((j : Int) - i) < 2 ^ w)

/-- A difference that fits into `w` bits is not changed by them. -/
theorem bmod_eq_self_iff (d : Int) :
    d.bmod (2 ^ w) = d ↔ -(2 ^ w : Int) ≤ 2 * d ∧ 2 * d < 2 ^ w := by
  have hpos : 0 < 2 ^ w := Nat.two_pow_pos w
  have hcast : ((2 ^ w : Nat) : Int) = 2 ^ w := by norm_cast
  constructor
  · intro hd
    have hlow := Int.le_bmod (x := d) hpos
    have hhigh := Int.bmod_lt (x := d) hpos
    rw [hd] at hlow hhigh
    omega
  · rintro ⟨hlow, hhigh⟩
    refine Int.bmod_eq_of_le_mul_two ?_ ?_
    · rw [hcast]; omega
    · rw [hcast]; omega

/-- The difference of two positions in `w` bits. -/
theorem toInt_sub_ofNat (i j : Nat) :
    (BitVec.ofNat w j - BitVec.ofNat w i).toInt = ((j : Int) - i).bmod (2 ^ w) := by
  rw [BitVec.toInt_sub, BitVec.toInt_ofNat', BitVec.toInt_ofNat', Int.bmod_sub_bmod,
    Int.sub_bmod_bmod]

/-- It is enough to know what `getIndex`, `getByIndex` and `distance` return. -/
theorem Indexed.of_returns {ns : List Ptr} {getIndex : Ptr → Prog (Tree α) ε (BitVec w)}
    {getByIndex : Nat → Prog (Tree α) ε (Option Ptr)} {distance : Ptr → Ptr → Prog (Tree α) ε Int}
    (hlen : ns.length < 2 ^ w)
    (hindex : ∀ i x, ns[i]? = some x → getIndex x s = some (.ok (BitVec.ofNat w i), s))
    (hnode : ∀ i, getByIndex i s = some (.ok ns[i]?, s))
    (hdistance : ∀ i j x y, ns[i]? = some x → ns[j]? = some y →
      distance x y s = some (.ok (BitVec.ofNat w j - BitVec.ofNat w i).toInt, s)) :
    Indexed w s ns getIndex getByIndex distance := by
  have hsmall : ∀ i x, ns[i]? = some x → (BitVec.ofNat w i).toNat = i := by
    intro i x hx
    obtain ⟨hi, -⟩ := List.getElem?_eq_some_iff.mp hx
    rw [BitVec.toNat_ofNat, Nat.mod_eq_of_lt (Nat.lt_trans hi hlen)]
  refine ⟨fun i x hx => ⟨_, hindex i x hx, hsmall i x hx⟩, hnode, fun x hx => ?_, fun i hi => ?_,
    fun i j x y hx hy => ?_, fun i j x y hx hy => ?_⟩
  · obtain ⟨i, hi, rfl⟩ := List.getElem_of_mem hx
    have hi' := List.getElem?_eq_getElem hi
    refine eq_of_wp ((wp_bind _ _).mpr ((wp_iff_of_ok (hindex i _ hi')).mpr ?_))
    refine (wp_iff_of_ok (hnode _)).mpr ⟨?_, rfl⟩
    rw [hsmall i _ hi', hi']
  · have hi' := List.getElem?_eq_getElem hi
    refine eq_of_wp ((wp_bind _ _).mpr ((wp_iff_of_ok (hnode i)).mpr ?_))
    rw [hi']
    exact (wp_iff_of_ok (hindex i _ hi')).mpr ⟨rfl, rfl⟩
  · rw [hdistance i j x y hx hy, toInt_sub_ofNat]
  · rw [hdistance i j x y hx hy, toInt_sub_ofNat, ← bmod_eq_self_iff]
    constructor
    · intro h
      exact Except.ok.inj (Prod.mk.inj (Option.some.inj h)).1
    · intro h
      rw [h]

/-- Two lists of nodes without repetitions are places of the tree. -/
theorem exists_place_at {T : BinaryTree Ptr} {i : Nat} {x : Ptr} (hn : (inorder T).Nodup)
    (hx : (inorder T)[i]? = some x) : ∃ fs t, T = plug fs t ∧ root? t = some x ∧
      position fs t = i := by
  obtain ⟨fs, l, r, rfl⟩ := exists_plug_of_mem (List.mem_of_getElem? hx)
  have hne : node x l r ≠ nil := by simp
  have hpos := getElem?_position fs hne
  obtain ⟨hlt, -⟩ := List.getElem?_eq_some_iff.mp hx
  exact ⟨fs, node x l r, rfl, rfl, ((List.getElem?_inj hlt hn).mp (hx.trans hpos.symm)).symm⟩

theorem Holds.treeSize (hH : Holds s cells) :
    (AvlTreeStump.size : Prog (Tree α) ε Nat) s = some (.ok (inorderOf s).length, s) := by
  obtain ⟨T, hR, hT⟩ := hH.tree
  rw [hH.inorderOf_eq, ← hT, length_inorder]
  refine eq_of_wp ?_
  unfold AvlTreeStump.size
  rw [wp_bind, wp_get, hR.root]
  exact wp_nodeSize hR.settled.counted (fun x hx => hR.settled.live x
    (List.mem_append_left _ hx)) ⟨rfl, rfl⟩

/-- **Positions are exact** for members that find their way: with assertions none
of them fails, and no branch is reached that never should be. -/
theorem Holds.indexed {neighbor : Side → Option Ptr → Prog (Tree α) ε (Option Ptr)}
    {getIndex : Ptr → Prog (Tree α) ε (BitVec w)}
    {getByIndex : Nat → Prog (Tree α) ε (Option Ptr)} (hH : Holds s cells)
    (hlen : (inorderOf s).length < 2 ^ w) (h : Navigates w neighbor getIndex getByIndex) :
    Indexed w s (inorderOf s) getIndex getByIndex (fun left right => do
      let rightIndex ← getIndex right
      let leftIndex ← getIndex left
      pure (rightIndex - leftIndex).toInt) := by
  obtain ⟨T, hR, hT⟩ := hH.tree
  have hns : inorderOf s = inorder T := hH.inorderOf_eq.trans hT.symm
  have hn : (inorder T).Nodup := hT ▸ hH.nodup
  have hne : T ≠ nil := by
    rintro rfl
    cases hT
  rw [hns] at hlen ⊢
  refine .of_returns hlen (fun i x hx => ?_) (fun i => ?_) fun i j x y hx hy => ?_
  · obtain ⟨fs, t, rfl, ht, rfl⟩ := exists_place_at hn hx
    exact eq_of_wp (h.getIndex hR ht ⟨rfl, rfl⟩)
  · exact eq_of_wp ((h.getByIndex i hR hne).imp fun _ _ hi => ⟨hi.2, hi.1⟩)
  · obtain ⟨fs, t, hfs, ht, rfl⟩ := exists_place_at hn hx
    obtain ⟨gs, u, hgs, hu, rfl⟩ := exists_place_at hn hy
    exact eq_of_wp (h.distance hR hfs ht hgs hu ⟨rfl, rfl⟩)

/-! ### Every list of a reachable world -/

/-- A list variable of a reachable world holds elements. -/
theorem exists_holds {alloc : Allocator} {world : World α} {l : Nat} {stump : AvlTreeStump}
    (hr : (calls w alloc).Reachable world) (hl : world.lists l = some stump) :
    ∃ cells, Holds ⟨world.heap, stump⟩ cells := by
  obtain ⟨e, hw⟩ := Call.alive_of_reachable hr
  rw [hw.lists] at hl
  obtain ⟨⟨stump', cells⟩, he, rfl⟩ := Option.map_eq_some_iff.mp hl
  exact ⟨cells, hw.owns.holds l _ he⟩

/-- **Indexing is exact**, also where the accumulator of `getIndex` wraps, in the
tree of every list of a reachable world whose size fits into a `size_type`. -/
theorem indexing_exact (w : Nat) (alloc : Allocator) {world : World α} {l : Nat}
    {stump : AvlTreeStump} (hr : (calls w alloc).Reachable world)
    (hl : world.lists l = some stump) (hn : (inorderOf ⟨world.heap, stump⟩).length < 2 ^ w) :
    (AvlTreeStump.size : Prog (Tree α) Empty Nat) ⟨world.heap, stump⟩ =
        some (.ok (inorderOf ⟨world.heap, stump⟩).length, ⟨world.heap, stump⟩) ∧
      Indexed w ⟨world.heap, stump⟩ (inorderOf ⟨world.heap, stump⟩)
        (getIndex w : Ptr → Prog (Tree α) Empty (BitVec w)) getByIndex (distance w) ∧
      Indexed w ⟨world.heap, stump⟩ (inorderOf ⟨world.heap, stump⟩)
        (Asserted.getIndex w) Asserted.getByIndex (Asserted.distance w) := by
  obtain ⟨cells, hH⟩ := exists_holds hr hl
  exact ⟨hH.treeSize, hH.indexed hn (navigates w), hH.indexed hn (Asserted.navigates w)⟩

theorem calls_run_op {alloc : Allocator} (w : Nat) (ops : List (Op α)) :
    ∀ {world world' : World α}, (machine alloc).run world ops = some world' →
      (calls w alloc).run world (ops.map .op) = some world' := by
  induction ops with
  | nil => intro world world' h; exact h
  | cons op ops ih =>
    intro world world' h
    obtain ⟨world₁, hn, hr⟩ := Option.bind_eq_some_iff.mp h
    refine Option.bind_eq_some_iff.mpr ⟨world₁, ?_, ih hr⟩
    simp only [calls, Implementation.exec, Implementation.released_execOp]
    exact hn

/-- A run of operations reaches a world with the elements it makes of plain lists. -/
theorem exists_world (w : Nat) (ops : List (Op α)) {m : Nat → Option (List α)}
    (hm : (plain α).run (fun _ => none) ops = some m) : ∃ world : World α,
    (calls w bumpAllocator).run ⟨emptyHeap α, fun _ => none⟩ (ops.map .op) = some world ∧
    (calls w bumpAllocator).Reachable world ∧
    world.sizes = (fun l => (m l).map List.length) ∧
    ∀ l, (world.elements l).map Prod.snd = (m l).getD [] := by
  have hinit : (machine bumpAllocator).init (⟨emptyHeap α, fun _ => none⟩ : World α) :=
    fun _ => rfl
  obtain ⟨world, e, hrun, hw, rfl⟩ := run_holds bumpAllocator ops (World.holds_of_init hinit) hm
  have hcalls := calls_run_op w _ hrun
  refine ⟨world, hcalls, Machine.Reachable.run (.init fun _ => rfl) hcalls, ?_, fun l => ?_⟩
  · rw [hw.sizes_eq]
    funext l
    rw [Option.map_map]
    exact congrArg (fun f => Option.map f (contents e l)) (funext fun _ => by simp)
  · rw [hw.elements_eq]
    dsimp only
    cases contents e l <;> rfl

theorem exists_tree_of_size {alloc : Allocator} {world : World α} {l n : Nat}
    (hr : (calls w alloc).Reachable world) (hn : world.sizes l = some n) :
    ∃ stump cells, world.lists l = some stump ∧ Holds ⟨world.heap, stump⟩ cells ∧
      world.elements l = cells ∧ cells.length = n := by
  obtain ⟨e, hw⟩ := Call.alive_of_reachable hr
  rw [hw.sizes_eq] at hn
  obtain ⟨stump, cells, hl, hlen⟩ := exists_entry hn
  refine ⟨stump, cells, hw.lists_eq hl, hw.holds hl, ?_, hlen⟩
  rw [hw.elements_eq, contents, hl]
  rfl

theorem exists_list (w : Nat) (values : List Nat) :
    ∃ (world : World Nat) (stump : AvlTreeStump),
    (calls w bumpAllocator).run ⟨emptyHeap Nat, fun _ => none⟩
      [.op (.create 0), .op (.on 0 (.insertRange 0 values))] = some world ∧
    (calls w bumpAllocator).Reachable world ∧ world.lists 0 = some stump ∧
    (Tree.elements ⟨world.heap, stump⟩).map Prod.snd = values := by
  obtain ⟨world, hrun, hr, hsizes, helements⟩ := exists_world w
    [.create 0, .on 0 (.insertRange 0 values)] (m := _) rfl
  obtain ⟨stump, cells, hl, hH, hcells, -⟩ :=
    exists_tree_of_size (l := 0) (n := values.length) hr
      (by rw [hsizes]; simp [Op.lists, ListOp.list, Op.values, ListOp.values])
  refine ⟨world, stump, hrun, hr, hl, ?_⟩
  rw [hH.elements_eq, ← hcells, helements 0]
  simp [Op.lists, ListOp.list, Op.values, ListOp.values]

theorem exists_long_list (w n : Nat) : ∃ (world : World Nat) (stump : AvlTreeStump),
    (calls w bumpAllocator).run ⟨emptyHeap Nat, fun _ => none⟩
      [.op (.create 0), .op (.on 0 (.insertCount 0 n 7))] = some world ∧
    (calls w bumpAllocator).Reachable world ∧ world.lists 0 = some stump ∧
    (inorderOf ⟨world.heap, stump⟩).length = n + 2 := by
  obtain ⟨world, hrun, hr, hsizes, -⟩ := exists_world w
    [.create 0, .on 0 (.insertCount 0 n 7)] (m := _) rfl
  have hn : world.sizes 0 = some n := by
    rw [hsizes]
    simp [Op.lists, ListOp.list, Op.values, ListOp.values]
  obtain ⟨stump, cells, hl, hH, -, rfl⟩ := exists_tree_of_size hr hn
  refine ⟨world, stump, hrun, hr, hl, ?_⟩
  rw [hH.inorderOf_eq]
  simp [own, nodes]

theorem indexing_exact_two_elements : ∃ (world : World Nat) (stump : AvlTreeStump),
    (calls 64 bumpAllocator).run ⟨emptyHeap Nat, fun _ => none⟩
      [.op (.create 0), .op (.on 0 (.insertCount 0 2 7))] = some world ∧
    Indexed 64 ⟨world.heap, stump⟩ (inorderOf ⟨world.heap, stump⟩)
      (getIndex 64 : Ptr → Prog (Tree Nat) Empty (BitVec 64)) getByIndex (distance 64) := by
  obtain ⟨world, stump, hrun, hr, hl, hn⟩ := exists_long_list 64 2
  exact ⟨world, stump, hrun, (indexing_exact 64 bumpAllocator hr hl (by rw [hn]; decide)).2.1⟩

/-- With `2 ^ 63` elements, `end() - begin()` is negative. -/
theorem distance_wraps : ∃ (world : World Nat) (stump : AvlTreeStump) (x y : Ptr),
    (calls 64 bumpAllocator).run ⟨emptyHeap Nat, fun _ => none⟩
      [.op (.create 0), .op (.on 0 (.insertCount 0 (2 ^ 63) 7))] = some world ∧
    world.lists 0 = some stump ∧ (inorderOf ⟨world.heap, stump⟩).length < 2 ^ 64 ∧
    (inorderOf ⟨world.heap, stump⟩)[1]? = some x ∧
    (inorderOf ⟨world.heap, stump⟩)[2 ^ 63 + 1]? = some y ∧
    (distance 64 x y : Prog (Tree Nat) Empty Int) ⟨world.heap, stump⟩ =
      some (.ok (-2 ^ 63), ⟨world.heap, stump⟩) := by
  obtain ⟨world, stump, hrun, hr, hl, hn⟩ := exists_long_list 64 (2 ^ 63)
  obtain ⟨cells, hH⟩ := exists_holds hr hl
  have hlen : (inorderOf ⟨world.heap, stump⟩).length < 2 ^ 64 := by rw [hn]; decide
  have hnode : ∀ i < 2 ^ 63 + 2, ∃ x, (inorderOf ⟨world.heap, stump⟩)[i]? = some x :=
    fun i hi => ⟨_, List.getElem?_eq_getElem (by rwa [hn])⟩
  obtain ⟨x, hx⟩ := hnode 1 (by decide)
  obtain ⟨y, hy⟩ := hnode (2 ^ 63 + 1) (by decide)
  refine ⟨world, stump, x, y, hrun, hl, hlen, hx, hy, ?_⟩
  have hbmod : (((2 ^ 63 + 1 : Nat) : Int) - (1 : Nat)).bmod (2 ^ 64) = -2 ^ 63 := by decide
  rw [← hbmod]
  exact (hH.indexed hlen (navigates 64)).difference 1 (2 ^ 63 + 1) x y hx hy

end Garbage.RandomAccessList
