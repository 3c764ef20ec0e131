import Garbage.Foundation.Execution
import Garbage.Foundation.IntrusiveList
import Garbage.Foundation.StableMerge
import Garbage.RandomAccessList.Ranks

/-!
# `merge`

`merge_private` takes the nodes out of both lists into local intrusive lists,
merges these by a loop of its own, and puts the nodes into the first list.  The
comparator is given the nodes, so it is a function of their addresses and values,
and it may throw (`Thrown.comparator`).

The links of the local lists are the pointers `_left` and `_right` of the nodes.
They are kept beside the memory here: what the tree does with a node begins with
the assignment of its pointers.

If nothing is thrown, `merge` is the stable merge of the two lists
(`merge_merges_stably`).  With a comparator of values it is the `merge` among the calls
on all lists, where `List.merge` stands for the loop (`mergePrivate_eq_merge`).
-/

namespace Garbage.RandomAccessList

open Foundation (Prog Execution Links StablyMerged notAfter)
open Foundation.Prog
open Foundation.Execution
open World (onList)

variable {α ε : Type}

/-- What the calls of a list may throw: an allocation, the constructor of an
element, an operation of a source iterator, a comparator. -/
inductive Thrown where
  | allocation
  | construction
  | iterator
  | comparator
  deriving DecidableEq

/-! ### The nodes in local lists -/

/-- The intrusive lists that `merge_private` has on its stack. -/
inductive LocalList where
  | nodes0
  | nodes1
  | nodesMerged
  deriving DecidableEq

/-- An item of a local list, or the node that closes its ring. -/
abbrev ListNode := LocalList ⊕ Ptr

def endOf (list : LocalList) : ListNode := .inl list

def valueAt (heap : Heap α) (p : Ptr) : Option α :=
  if p ∈ heap.live then (heap.node p).value else none

/-- `comp(*a, *b)`. -/
def compareNodes (comp : Cell α → Cell α → Bool) (a b : Ptr) :
    Prog (Execution (World α)) Thrown Bool := do
  mayThrow .comparator
  within do
    let x ← read fun world => valueAt world.heap a
    let y ← read fun world => valueAt world.heap b
    pure (comp (a, x) (b, y))

/-- `comp(*first2, *first1)`; the end of a list has no value. -/
def compareItems (comp : Cell α → Cell α → Bool) :
    ListNode → ListNode → Prog (Execution (World α)) Thrown Bool
  | .inr a, .inr b => compareNodes comp a b
  | _, _ => stuck

/-- The items of a local list. -/
def itemsOf (links : Links ListNode) (list : LocalList) (fuel : Nat) : List Ptr :=
  (links.items (endOf list) fuel (links.next (endOf list))).filterMap Sum.getRight?

/-- The loop of `merge_private`. -/
def mergeNodes (comp : Cell α → Cell α → Bool) (nodes0 nodes1 : List Ptr) :
    Prog (Execution (World α)) Thrown (List Ptr) := do
  let fuel := (nodes0 ++ nodes1).length + 1
  let links := Links.unlinked.pushAll (endOf .nodes0) (nodes0.map .inr)
  let links := links.pushAll (endOf .nodes1) (nodes1.map .inr)
  let links ← links.merge (compareItems comp) (endOf .nodes0) (endOf .nodes1)
    (endOf .nodesMerged) fuel
  pure (itemsOf links .nodesMerged fuel)

namespace Implementation

def mergePrivate (this : Implementation α Thrown) (l other : Nat)
    (comp : Cell α → Cell α → Bool) : Prog (Execution (World α)) Thrown PUnit :=
  if l = other then pure PUnit.unit
  else do
    let nodes0 ← within (onList l this.moveNodes)
    let nodes1 ← within (onList other this.moveNodes)
    let nodesMerged ← mergeNodes comp nodes0 nodes1
    within do
      let pos ← onList l this.getBegin
      let _ ← onList l (this.insertNodesFromListAndReturnFirstInserted nodesMerged pos)
      pure PUnit.unit

end Implementation

/-! ### The loop -/

variable {comp : Cell α → Cell α → Bool} {cells co : List (Cell α)} {heap : Heap α}
  {t : Execution (World α)}

/-- What the comparator says of two items. -/
def lessAt (comp : Cell α → Cell α → Bool) (heap : Heap α) : ListNode → ListNode → Bool
  | .inr a, .inr b =>
    match valueAt heap a, valueAt heap b with
    | some x, some y => comp (a, x) (b, y)
    | _, _ => false
  | _, _ => false

def itemOf (c : Cell α) : ListNode := .inr c.1

theorem Loose.valueAt (hL : Loose heap cells) {c : Cell α} (hc : c ∈ cells) :
    valueAt heap c.1 = some c.2 :=
  (if_pos (hL.live c hc)).trans (hL.values c hc)

theorem Loose.lessAt_eq (hL : Loose heap cells) {c d : Cell α} (hc : c ∈ cells) (hd : d ∈ cells) :
    lessAt comp heap (itemOf c) (itemOf d) = comp c d := by
  unfold lessAt itemOf
  dsimp only
  rw [hL.valueAt hc, hL.valueAt hd]

/-- The comparator answers for two elements, or throws. -/
theorem wp_compareNodes {c d : Cell α} {Q : Bool → Execution (World α) → Prop}
    {E : Thrown → Execution (World α) → Prop} (hL : Loose t.data.heap cells) (hc : c ∈ cells)
    (hd : d ∈ cells) (hQ : ∀ t', Continues t t' → t'.data = t.data → Q (comp c d) t')
    (hE : ∀ t', Raised t t' → t'.data = t.data → E .comparator t') :
    wp (compareNodes comp c.1 d.1) Q E t := by
  unfold compareNodes
  rw [wp_bind]
  refine wp_mayThrow (fun t' hcont hdata => ?_) hE
  rw [wp_within, wp_bind]
  refine (wp_read _).mpr ⟨c.2, by rw [hdata]; exact hL.valueAt hc, ?_⟩
  rw [wp_bind]
  refine (wp_read _).mpr ⟨d.2, by rw [hdata]; exact hL.valueAt hd, ?_⟩
  exact hQ t' hcont hdata

theorem map_itemOf (cells : List (Cell α)) : (nodes cells).map .inr = cells.map itemOf :=
  List.map_map

/-- The items of two lists and the rings of the three local lists share no node. -/
theorem nodup_items (hL : Loose heap (cells ++ co)) :
    ([endOf .nodes0, endOf .nodes1, endOf .nodesMerged] ++
      (cells.map itemOf ++ co.map itemOf)).Nodup := by
  refine List.nodup_append'.mpr ⟨by decide, ?_, fun x hx hx' => ?_⟩
  · rw [← List.map_append, ← map_itemOf]
    exact hL.nodup.map Sum.inr_injective
  · obtain ⟨c, -, rfl⟩ := List.mem_map.mp (List.map_append ▸ hx')
    simp [itemOf, endOf] at hx

theorem itemsOf_eq {links : Links ListNode} {list : LocalList} {fuel : Nat}
    (hring : links.Ring (endOf list) (cells.map itemOf)) (hfuel : cells.length < fuel) :
    itemsOf links list fuel = nodes cells := by
  have hlist : endOf list ∉ cells.map itemOf := (List.nodup_cons.mp hring.nodup).1
  unfold itemsOf
  rw [hring.path.items_eq hlist (by simpa using hfuel), List.filterMap_map]
  exact congrFun (List.filterMap_eq_map (f := fun c : Cell α => c.1)) cells

/-- **The loop of `merge_private`** returns the nodes of the merged lists, or the
comparator throws; that it does not while one of the lists is empty. -/
theorem wp_mergeNodes (comp : Cell α → Cell α → Bool) (hL : Loose t.data.heap (cells ++ co)) :
    wp (mergeNodes comp (nodes cells) (nodes co))
      (fun x t' => x = nodes (cells.merge co (notAfter comp)) ∧ Continues t t' ∧ t'.data = t.data)
      (fun e t' => e = .comparator ∧ Raised t t' ∧ t'.data = t.data ∧ cells ≠ [] ∧ co ≠ []) t := by
  have hnodup := nodup_items hL
  obtain ⟨hring0, hring1, hring⟩ := Foundation.Links.rings_of_pushAll hnodup
  have hmerge : (cells.merge co (notAfter comp)).map itemOf =
      (cells.map itemOf).merge (co.map itemOf)
        fun a b => !lessAt comp t.data.heap b a := by
    refine List.map_merge fun c hc d hd => ?_
    rw [hL.lessAt_eq (List.mem_append_right _ hd) (List.mem_append_left _ hc)]
    rfl
  have hfuel : ((nodes cells ++ nodes co).length + 1) = (cells ++ co).length + 1 := by
    simp [nodes]
  unfold mergeNodes
  dsimp only
  rw [wp_bind, map_itemOf, map_itemOf, hfuel]
  refine Foundation.Links.wp_merge (lessAt comp t.data.heap)
    (I := fun t' => Continues t t' ∧ t'.data = t.data) ?_ _ (by simp) hring0 hring1 hring hnodup
    ⟨.refl t, rfl⟩ ?_
  · intro a ha b hb t₁ ht₁
    obtain ⟨hcont, hdata⟩ := ht₁
    obtain ⟨d, hd, rfl⟩ := List.mem_map.mp ha
    obtain ⟨c, hc, rfl⟩ := List.mem_map.mp hb
    have hd' : d ∈ cells ++ co := List.mem_append_right _ hd
    have hc' : c ∈ cells ++ co := List.mem_append_left _ hc
    refine wp_compareNodes (hdata ▸ hL) hd' hc' (fun t₂ hcont' hdata' => ?_)
      fun t₂ hraised hdata' => ?_
    · exact ⟨(hL.lessAt_eq hd' hc').symm, hcont.trans hcont', hdata'.trans hdata⟩
    · exact ⟨rfl, hcont.raised hraised, hdata'.trans hdata, List.ne_nil_of_mem hc,
        List.ne_nil_of_mem hd⟩
  · intro links t₁ hmerged ht₁
    obtain ⟨hcont, hdata⟩ := ht₁
    rw [← hmerge] at hmerged
    rw [wp_pure, itemsOf_eq hmerged (by simp)]
    exact ⟨rfl, hcont, hdata⟩

/-! ### The call -/

section Call

variable {this : Implementation α Thrown} {moves : Prop} {e : Nat → Option (Entry α)}
  {l other : Nat} {stump so : AvlTreeStump}

/-- **`merge_private`** fills the first list with the merged nodes, or the
comparator throws while both lists are empty. -/
theorem wp_mergePrivate (comp : Cell α → Cell α → Bool) (hS : this.Sound moves)
    (hw : t.data.Holds e) (hne : l ≠ other) (hl : e l = some (stump, cells))
    (hother : e other = some (so, co)) :
    wp (this.mergePrivate l other comp)
      (fun _ t' => Continues t t' ∧ ∃ st st', SameEnds stump st ∧ SameEnds so st' ∧
        t'.data.Holds (Function.update (Function.update e other (some (st', []))) l
          (some (st, cells.merge co (notAfter comp)))) ∧
        t'.data.heap.live = t.data.heap.live)
      (fun r t' => r = .comparator ∧ Raised t t' ∧ cells ≠ [] ∧ co ≠ [] ∧
        ∃ st st', Call.Emptied t.data e l other stump so cells co st st' t'.data) t := by
  unfold Implementation.mergePrivate
  rw [if_neg hne, wp_bind, wp_within]
  refine (Call.wp_moveBoth hS hw hne hl hother).imp ?_
  rintro _ world₁ ⟨rfl, hboth⟩
  rw [wp_bind, wp_within]
  refine hboth.imp ?_
  rintro _ world₂ ⟨rfl, st, st', hE⟩
  rw [withData_withData, wp_bind]
  have hL : Loose (t.withData world₂).data.heap (cells ++ co) := hE.loose
  refine wp_mono ?_ ?_ (wp_mergeNodes comp hL)
  · rintro _ t' ⟨rfl, hcont, hdata⟩
    rw [continues_withData_left] at hcont
    rw [withData_data] at hdata
    have hperm : (cells.merge co (notAfter comp)).Perm (cells ++ co) := List.merge_perm_append _
    have hnodes := hperm.map Prod.fst
    have hl₂ : Function.update (Function.update e l (some (st, ([] : List (Cell α))))) other
        (some (st', [])) l = some (st, []) := by
      rw [Function.update_of_ne hne, Function.update_self]
    rw [wp_within, hdata]
    refine (Call.wp_refill hS hE.holds hl₂ (hE.loose.perm hperm)
      (fun x hx => hE.one x (hnodes.mem_iff.mp hx))
      fun k x hx => hE.apart k (hnodes.mem_iff.mp hx)).imp ?_
    rintro _ world' ⟨st₂, hends, hw', hlive⟩
    refine ⟨by simpa using hcont, st₂, st', hE.ends.trans hends, hE.ends', ?_,
      hlive.trans hE.live⟩
    rwa [Function.update_comm hne, Function.update_idem] at hw'
  · rintro r t' ⟨rfl, hraised, hdata, hcells, hco⟩
    rw [raised_withData_left] at hraised
    rw [withData_data] at hdata
    exact ⟨rfl, hraised, hcells, hco, st, st', hdata ▸ hE⟩

/-- With a comparator of values that does not throw, the call is the `merge` of the
machine of all calls. -/
theorem mergePrivate_eq_merge (hS : this.Sound moves) (comp : α → α → Bool) (hw : t.data.Holds e)
    (hl : e l = some (stump, cells)) (hother : e other = some (so, co)) (ht : t.failAt = none) :
    this.mergePrivate l other (fun c d => comp c.2 d.2) t = within (this.merge l other comp) t := by
  unfold Implementation.mergePrivate Implementation.merge
  by_cases hne : l = other
  · rw [if_pos hne, if_pos hne]
    rfl
  rw [if_neg hne, if_neg hne, within_bind]
  refine within_bind_eq_of_wp (Call.wp_moveBoth (E := fun _ _ => True) hS hw hne hl hother) ?_
  rintro _ world₁ ⟨rfl, hboth⟩
  rw [within_bind]
  refine within_bind_eq_of_wp hboth ?_
  rintro _ world₂ ⟨rfl, st, st', hE⟩
  have hL : Loose ((t.withData world₁).withData world₂).data.heap (cells ++ co) := hE.loose
  obtain ⟨r, t₁, hx, hok, herror⟩ := (wp_mergeNodes (fun c d => comp c.2 d.2) hL).outcome
  cases r with
  | error r => exact absurd ht (herror r rfl).2.1.failAt
  | ok nodesMerged =>
    obtain ⟨rfl, hcont, hdata⟩ := hok _ rfl
    have ht₁ : t₁ = t.withData world₂ := by
      obtain ⟨uncaught₁, failAt₁, world₁⟩ := t₁
      obtain rfl : uncaught₁ = t.uncaught := hcont.uncaught
      obtain rfl : failAt₁ = none := hcont.failAt.mpr ht
      obtain rfl : world₁ = world₂ := hdata
      rw [← ht]
      rfl
    have hnodes : nodes (cells.merge co (notAfter fun c d => comp c.2 d.2)) =
        (nodes cells).merge (nodes co) fun a b => !Container.lessAt comp world₂.heap b a := by
      refine List.map_merge fun c hc d hd => ?_
      show (!comp d.2 c.2) = !Container.lessAt comp world₂.heap d.1 c.1
      unfold Container.lessAt
      rw [hE.loose.values c (List.mem_append_left _ hc),
        hE.loose.values d (List.mem_append_right _ hd)]
    rw [bind_of_ok hx, ht₁, hnodes]
    rfl

end Call

/-- The list `l` has the merged elements, the list `other` none, and all else is
as it was. -/
structure MergedInto (comp : Cell α → Cell α → Bool) (l other : Nat) (world world' : World α) :
    Prop where
  emptied : world'.elements other = []
  merged : StablyMerged comp (world.elements l) (world.elements other) (world'.elements l)
  others : ∀ k, k ≠ l → k ≠ other → world'.elements k = world.elements k
  live : world'.heap.live = world.heap.live
  checked : ∀ k, k = l ∨ k = other → ∃ stump, world'.lists k = some stump ∧
    Tree.Shows ⟨world'.heap, stump⟩ ((world'.elements k).map Prod.snd)

/-- **`merge` merges stably.**  For two lists of a reachable world and a comparator
of nodes that does not throw, `merge` puts the elements of both into the first
list, in the order of the stable merge, and leaves the second one empty; both pass
their own check.  The merge of a list with itself changes nothing. -/
theorem merge_merges_stably (w : Nat) (alloc : Allocator) {world : World α} {l other : Nat}
    (hr : (calls w alloc).Reachable world) (hl : (world.lists l).isSome)
    (hother : (world.lists other).isSome) (comp : Cell α → Cell α → Bool) (uncaught : Nat) :
    (l ≠ other → ∃ world',
      (released w).mergePrivate l other comp ⟨uncaught, none, world⟩ =
        some (.ok PUnit.unit, ⟨uncaught, none, world'⟩) ∧ MergedInto comp l other world world') ∧
    (l = other → (released w).mergePrivate l other comp ⟨uncaught, none, world⟩ =
      some (.ok PUnit.unit, ⟨uncaught, none, world⟩)) := by
  obtain ⟨e, hw⟩ := Call.alive_of_reachable hr
  obtain ⟨stump, cells, he⟩ := hw.exists_entry hl
  obtain ⟨so, co, ho⟩ := hw.exists_entry hother
  refine ⟨fun hne => ?_, fun heq => by
    unfold Implementation.mergePrivate
    rw [if_pos heq]
    rfl⟩
  have hcall := wp_mergePrivate comp (t := ⟨uncaught, none, world⟩)
    (released_sound w) hw hne he ho
  obtain ⟨r, t', hx, hok, herror⟩ := hcall.outcome
  cases r with
  | error r => exact absurd rfl (herror r rfl).2.1.failAt
  | ok _ =>
    obtain ⟨hcont, st, st', -, -, hw', hlive⟩ := hok _ rfl
    obtain ⟨uncaught', failAt', world'⟩ := t'
    obtain rfl : uncaught' = uncaught := hcont.uncaught
    obtain rfl : failAt' = none := hcont.failAt.mpr rfl
    have hl' : world'.elements l = cells.merge co (notAfter comp) := by
      rw [hw'.elements_eq, contents, Function.update_self]
      rfl
    have ho' : world'.elements other = [] := by
      rw [hw'.elements_eq, contents, Function.update_of_ne hne.symm, Function.update_self]
      rfl
    refine ⟨world', hx, ho', ?_, fun k hkl hko => ?_, hlive, ?_⟩
    · rw [hl', hw.elements_of_entry he, hw.elements_of_entry ho]
      exact Foundation.stablyMerged_merge comp (hw.disjoint hne he ho)
    · rw [hw'.elements_eq, hw.elements_eq, contents, contents, Function.update_of_ne hkl,
        Function.update_of_ne hko]
    · rintro k (rfl | rfl)
      · have hk := Function.update_self k (some (st, cells.merge co (notAfter comp)))
          (Function.update e other (some (st', [])))
        rw [hl']
        exact ⟨st, hw'.lists_eq hk, (hw'.holds hk).shows⟩
      · have hk := (Function.update_of_ne hne.symm (some (st, cells.merge co (notAfter comp)))
          (Function.update e k (some (st', [])))).trans (Function.update_self ..)
        rw [ho']
        exact ⟨st', hw'.lists_eq hk, (hw'.holds hk).shows⟩

/-- The comparison of elements by their values. -/
def lessByValue (c d : Cell Nat) : Bool := c.2 < d.2

theorem strictWeak_lessByValue : Foundation.StrictWeak lessByValue where
  irrefl c := by simp [lessByValue]
  trans c d f := by
    simp only [lessByValue, decide_eq_true_eq]
    exact Nat.lt_trans
  incomp_trans c d f := by
    simp only [lessByValue, decide_eq_true_eq]
    omega

/-- Sorted elements have sorted values. -/
theorem sortedBy_lessByValue {cells : List (Cell Nat)} :
    Foundation.SortedBy lessByValue cells ↔ (cells.map Prod.snd).Pairwise (· ≤ ·) := by
  rw [List.pairwise_map]
  simp [Foundation.SortedBy, lessByValue]

theorem exists_sorted_lists : ∃ world : World Nat,
    (calls 64 bumpAllocator).run ⟨emptyHeap Nat, fun _ => none⟩
      [.op (.create 0), .op (.create 1), .op (.on 0 (.insertRange 0 [2, 4])),
        .op (.on 1 (.emplace 0 3))] = some world ∧
    (calls 64 bumpAllocator).Reachable world ∧
    (world.lists 0).isSome ∧ (world.lists 1).isSome ∧
    (world.elements 0).map Prod.snd = [2, 4] ∧ (world.elements 1).map Prod.snd = [3] := by
  obtain ⟨world, hrun, hr, hsizes, helements⟩ := exists_world 64
    [.create 0, .create 1, .on 0 (.insertRange 0 [2, 4]), .on 1 (.emplace 0 3)] (m := _) rfl
  obtain ⟨stump, -, hl, -⟩ := exists_tree_of_size (l := 0) (n := 2) hr (by rw [hsizes]; rfl)
  obtain ⟨so, -, ho, -⟩ := exists_tree_of_size (l := 1) (n := 1) hr (by rw [hsizes]; rfl)
  refine ⟨world, hrun, hr, by rw [hl]; rfl, by rw [ho]; rfl, ?_, ?_⟩
  · rw [helements 0]
    rfl
  · rw [helements 1]
    rfl

theorem merge_merges_stably_two : ∃ world world' : World Nat,
    (calls 64 bumpAllocator).run ⟨emptyHeap Nat, fun _ => none⟩
      [.op (.create 0), .op (.create 1), .op (.on 0 (.insertRange 0 [2, 4])),
        .op (.on 1 (.emplace 0 3))] = some world ∧
    (released 64).mergePrivate 0 1 lessByValue ⟨0, none, world⟩ =
      some (.ok PUnit.unit, ⟨0, none, world'⟩) ∧
    (world'.elements 0).map Prod.snd = [2, 3, 4] ∧ world'.elements 1 = [] := by
  obtain ⟨world, hrun, hr, hl, ho, h0, h1⟩ := exists_sorted_lists
  obtain ⟨world', hx, hM⟩ :=
    (merge_merges_stably 64 bumpAllocator hr hl ho lessByValue 0).1 (by decide)
  refine ⟨world, world', hrun, hx, ?_, hM.emptied⟩
  have hsorted := hM.merged.sorted strictWeak_lessByValue
    (sortedBy_lessByValue.mpr (by rw [h0]; decide)) (sortedBy_lessByValue.mpr (by rw [h1]; decide))
  have hperm := hM.merged.perm.map Prod.snd
  rw [List.map_append, h0, h1] at hperm
  have hperm' : ((world'.elements 0).map Prod.snd).Perm [2, 3, 4] :=
    hperm.trans (by decide)
  exact hperm'.eq_of_pairwise (fun a b _ _ => Nat.le_antisymm) (sortedBy_lessByValue.mp hsorted)
    (by decide)

end Garbage.RandomAccessList
