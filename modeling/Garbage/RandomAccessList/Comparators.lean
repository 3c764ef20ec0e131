import Garbage.Foundation.Comparisons
import Garbage.RandomAccessList.Merging

/-!
# Comparators that throw

`sort` and `merge` take the nodes out of their lists before the first comparison
and put them back after the last one.  In between the nodes are in local intrusive
lists, which forget them when a comparator throws: then all lists involved are
empty, and their former nodes are allocated and in no list
(`comparator_exception_loses_elements`).

The sort of the intrusive list is a `ComparisonSort`.
-/

namespace Garbage.RandomAccessList

open Foundation (Prog Machine Execution ComparisonSort)
open Foundation.Prog
open Foundation.Execution
open World (onList)

variable {α : Type}

namespace Implementation

/-- `sort(comp)`. -/
def sortNodes (this : Implementation α Thrown) (algorithm : ComparisonSort Ptr) (l : Nat)
    (comp : Cell α → Cell α → Bool) : Prog (Execution (World α)) Thrown PUnit := do
  let nodes ← within (onList l this.moveNodes)
  let sorted ← (algorithm.sort nodes).run (compareNodes comp)
  within do
    let pos ← onList l this.getBegin
    let _ ← onList l (this.insertNodesFromListAndReturnFirstInserted sorted pos)
    pure PUnit.unit

end Implementation

/-- The lists involved have their elements as before, and no element is lost. -/
structure Intact (involved : List Nat) (world world' : World α) : Prop where
  elements : ∀ k ∈ involved, world'.elements k = world.elements k
  kept : ∀ k ∈ involved, ∀ c ∈ world.elements k, ∃ k', c ∈ world'.elements k'

/-- The lists involved are empty, and what they held is allocated and in no list. -/
structure Lost (involved : List Nat) (world world' : World α) : Prop where
  some_element : ∃ k ∈ involved, world.elements k ≠ []
  elements : ∀ k ∈ involved, world'.elements k = []
  live : world'.heap.live = world.heap.live
  nowhere : ∀ k ∈ involved, ∀ c ∈ world.elements k, ∀ k', c ∉ world'.elements k'

theorem Lost.not_intact {involved : List Nat} {world world' : World α}
    (h : Lost involved world world') : ¬ Intact involved world world' := by
  intro hi
  obtain ⟨k, hk, hne⟩ := h.some_element
  exact hne ((hi.elements k hk).symm.trans (h.elements k hk))

/-! ### What an exception leaves -/

variable {world world' : World α} {e e' : Nat → Option (Entry α)} {involved : List Nat}
  {l other : Nat} {comp : Cell α → Cell α → Bool} {t : Execution (World α)} {cells : List (Cell α)}
  {stump : AvlTreeStump}

theorem World.Holds.eq_of_mem (hw : world.Holds e) {k k' : Nat} {c : Cell α}
    (hk : c ∈ world.elements k) (hk' : c ∈ world.elements k') : k = k' := by
  have hown : ∀ {k}, c ∈ world.elements k → c.1 ∈ ownOf (e k) := by
    intro k hk
    rw [hw.elements_eq, contents] at hk
    cases he : e k with
    | none =>
      rw [he] at hk
      cases hk
    | some x =>
      rw [he] at hk
      exact fst_mem_own x.1 hk
  by_contra hne
  exact hw.owns.disjoint k k' hne (hown hk) (hown hk')

/-- Lists that were emptied without a trace lost their elements. -/
theorem lost_of_emptied (hw : world.Holds e) (hw' : world'.Holds e')
    (hempty : ∀ k ∈ involved, contents e' k = some [])
    (hrest : ∀ k, k ∉ involved → contents e' k = contents e k)
    (hlive : world'.heap.live = world.heap.live)
    (hsome : ∃ k ∈ involved, world.elements k ≠ []) : Lost involved world world' := by
  have helements : ∀ k ∈ involved, world'.elements k = [] := fun k hk => by
    rw [hw'.elements_eq, hempty k hk]
    rfl
  refine ⟨hsome, helements, hlive, fun k hk c hc k' hc' => ?_⟩
  by_cases hk' : k' ∈ involved
  · rw [helements k' hk'] at hc'
    cases hc'
  · rw [hw'.elements_eq, hrest k' hk', ← hw.elements_eq] at hc'
    exact hk' (hw.eq_of_mem hc hc' ▸ hk)

section Calls

variable {this : Implementation α Thrown} {moves : Prop}

/-- **`sort`** puts the nodes back in another order, or the comparator throws and
they are lost. -/
theorem wp_sortNodes (comp : Cell α → Cell α → Bool) (hS : this.Sound moves)
    (algorithm : ComparisonSort Ptr) (hw : t.data.Holds e) (hl : e l = some (stump, cells)) :
    wp (this.sortNodes algorithm l comp)
      (fun _ t' => Continues t t' ∧ ∃ st sorted, SameEnds stump st ∧ sorted.Perm cells ∧
        t'.data.Holds (Function.update e l (some (st, sorted))))
      (fun r t' => r = .comparator ∧ Raised t t' ∧ Lost [l] t.data t'.data) t := by
  unfold Implementation.sortNodes
  rw [wp_bind, wp_within]
  refine (Call.wp_moveNodes hS hw hl).imp ?_
  rintro _ world₁ ⟨rfl, st, hT⟩
  have hL := hT.loose
  rw [wp_bind]
  refine wp_mono ?_ ?_ (Foundation.Comparisons.wp_run (P := (· ∈ nodes cells))
    (fun a b => lessAt comp world₁.heap (.inr a) (.inr b))
    (I := fun t' => Continues t t' ∧ t'.data = world₁)
    (E := fun r t' => r = .comparator ∧ Raised t t' ∧ t'.data = world₁ ∧ cells ≠ [])
    ?_ (algorithm.within (nodes cells)) ⟨by simpa using Continues.refl t, rfl⟩)
  · rintro ps t' ⟨-, hperm, hcont, rfl⟩
    obtain ⟨sorted, rfl, hsorted⟩ : ∃ sorted, ps = nodes sorted ∧ sorted.Perm cells :=
      (congrFun (congrFun (List.eq_map_comp_perm Prod.fst) ps) cells).mpr hperm
    have hl₁ : Function.update e l (some (st, ([] : List (Cell α)))) l = some (st, []) :=
      Function.update_self ..
    rw [wp_within]
    refine (Call.wp_refill hS hT.holds hl₁ (hL.perm hsorted)
      (fun x hx => hT.one x (hperm.mem_iff.mp hx))
      fun k x hx => hT.apart k (hperm.mem_iff.mp hx)).imp ?_
    rintro _ world' ⟨st', hends, hw', -⟩
    rw [Function.update_idem] at hw'
    exact ⟨by simpa using hcont, st', sorted, hT.ends.trans hends, hsorted, hw'⟩
  · rintro r t' ⟨rfl, hraised, rfl, hcells⟩
    refine ⟨rfl, hraised, lost_of_emptied hw hT.holds ?_ ?_ hT.edits.live ⟨l, by simp, ?_⟩⟩
    · intro k hk
      rw [List.mem_singleton.mp hk, contents, Function.update_self]
      rfl
    · intro k hk
      rw [contents, contents, Function.update_of_ne fun he => hk (List.mem_singleton.mpr he)]
    · rwa [hw.elements_of_entry hl]
  · intro a b t' ha hb ht'
    obtain ⟨hcont, hdata⟩ := ht'
    obtain ⟨c, hc, rfl⟩ := List.mem_map.mp ha
    obtain ⟨d, hd, rfl⟩ := List.mem_map.mp hb
    refine wp_compareNodes (hdata ▸ hL) hc hd (fun t₂ hcont' hdata' => ?_)
      fun t₂ hraised hdata' => ?_
    · exact ⟨(hL.lessAt_eq hc hd).symm, hcont.trans hcont', hdata'.trans hdata⟩
    · exact ⟨rfl, hcont.raised hraised, hdata'.trans hdata, List.ne_nil_of_mem hc⟩

/-- **`merge`** ends, or the comparator throws and the elements of both lists are
lost. -/
theorem wp_mergePrivate_lost (comp : Cell α → Cell α → Bool) (hS : this.Sound moves)
    (hw : t.data.Holds e) (hl : (t.data.lists l).isSome) (hother : (t.data.lists other).isSome) :
    wp (this.mergePrivate l other comp) (fun _ _ => True)
      (fun r t' => r = .comparator ∧ Raised t t' ∧ Lost [l, other] t.data t'.data) t := by
  by_cases hne : l = other
  · unfold Implementation.mergePrivate
    rw [if_pos hne]
    trivial
  obtain ⟨stump, cells, he⟩ := hw.exists_entry hl
  obtain ⟨so, co, ho⟩ := hw.exists_entry hother
  refine wp_mono (fun _ _ _ => trivial) ?_ (wp_mergePrivate comp hS hw hne he ho)
  rintro r t' ⟨rfl, hraised, hcells, -, st, st', hE⟩
  refine ⟨rfl, hraised, lost_of_emptied hw hE.holds (fun k hk => ?_) (fun k hk => ?_) hE.live
    ⟨l, by simp, by rwa [hw.elements_of_entry he]⟩⟩
  · rw [contents]
    rcases List.mem_pair.mp hk with rfl | rfl
    · rw [Function.update_of_ne hne, Function.update_self]
      rfl
    · rw [Function.update_self]
      rfl
  · rw [List.mem_pair, not_or] at hk
    rw [contents, contents, Function.update_of_ne hk.2, Function.update_of_ne hk.1]

end Calls

/-- **An exception of a comparator loses the elements.**  For every list of a
reachable world, every sort that compares and every comparator that throws at some
call: whenever `sort` is left by the exception, its list is empty and the nodes of
its former elements are allocated and in no list.  The same holds of both lists of
a `merge`. -/
theorem comparator_exception_loses_elements (w : Nat) (alloc : Allocator)
    (hr : (calls w alloc).Reachable world) (comp : Cell α → Cell α → Bool) (uncaught k : Nat) :
    (∀ (algorithm : ComparisonSort Ptr) (l : Nat), (world.lists l).isSome → ∀ r t',
      (released w).sortNodes algorithm l comp ⟨uncaught, some k, world⟩ = some (.error r, t') →
        ¬ Intact [l] world t'.data ∧ Lost [l] world t'.data) ∧
    ∀ l other : Nat, (world.lists l).isSome → (world.lists other).isSome → ∀ r t',
      (released w).mergePrivate l other comp ⟨uncaught, some k, world⟩ = some (.error r, t') →
        ¬ Intact [l, other] world t'.data ∧ Lost [l, other] world t'.data := by
  obtain ⟨e, hw⟩ := Call.alive_of_reachable hr
  refine ⟨fun algorithm l hl r t' hx => ?_, fun l other hl hother r t' hx => ?_⟩
  · obtain ⟨stump, cells, he⟩ := hw.exists_entry hl
    have hwp := wp_sortNodes comp (t := ⟨uncaught, some k, world⟩)
      (released_sound w) algorithm hw he
    unfold wp at hwp
    rw [hx] at hwp
    exact ⟨hwp.2.2.not_intact, hwp.2.2⟩
  · have hwp := wp_mergePrivate_lost comp (t := ⟨uncaught, some k, world⟩)
      (released_sound w) hw hl hother
    unfold wp at hwp
    rw [hx] at hwp
    exact ⟨hwp.2.2.not_intact, hwp.2.2⟩

/-- A list of two elements whose first comparison throws. -/
theorem exists_thrown_sort : ∃ (world : World Nat) (t' : Execution (World Nat)),
    (calls 64 bumpAllocator).run ⟨emptyHeap Nat, fun _ => none⟩
      [.op (.create 0), .op (.on 0 (.insertRange 0 [2, 1]))] = some world ∧
    (calls 64 bumpAllocator).Reachable world ∧ (world.lists 0).isSome ∧
    (released 64).sortNodes (Foundation.insertionSort Ptr) 0 lessByValue ⟨0, some 0, world⟩ =
      some (.error .comparator, t') := by
  have hrun : ((calls 64 bumpAllocator).run ⟨emptyHeap Nat, fun _ => none⟩
      [.op (.create 0), .op (.on 0 (.insertRange 0 [2, 1]))]).any (fun world =>
        (world.lists 0).isSome && ((released 64).sortNodes (Foundation.insertionSort Ptr) 0
          lessByValue ⟨0, some 0, world⟩).any fun r =>
            match r.1 with
            | .error r => r = .comparator
            | .ok _ => false) = true := by decide +kernel
  obtain ⟨world, hworld, hrest⟩ := (Option.any_eq_true _ _).mp hrun
  obtain ⟨hl, hsort⟩ := Bool.and_eq_true_iff.mp hrest
  obtain ⟨⟨r, t'⟩, hx, hr⟩ := (Option.any_eq_true _ _).mp hsort
  cases r with
  | ok _ => cases hr
  | error r =>
    obtain rfl : r = .comparator := of_decide_eq_true hr
    exact ⟨world, t', hworld, Machine.Reachable.run (.init fun _ => rfl) hworld, hl, hx⟩

/-- The rule for a list of two elements whose first comparison throws. -/
theorem comparator_exception_loses_elements_two :
    ∃ (world : World Nat) (t' : Execution (World Nat)),
    (calls 64 bumpAllocator).run ⟨emptyHeap Nat, fun _ => none⟩
      [.op (.create 0), .op (.on 0 (.insertRange 0 [2, 1]))] = some world ∧
    (released 64).sortNodes (Foundation.insertionSort Ptr) 0 lessByValue ⟨0, some 0, world⟩ =
      some (.error .comparator, t') ∧
    ¬ Intact [0] world t'.data ∧ Lost [0] world t'.data := by
  obtain ⟨world, t', hrun, hr, hl, hx⟩ := exists_thrown_sort
  exact ⟨world, t', hrun, hx,
    (comparator_exception_loses_elements 64 bumpAllocator hr lessByValue 0 0).1 _ 0 hl _ _ hx⟩

/-- The `sort` of two elements, left by its first comparison, leaves none. -/
theorem sort_not_strong : ∃ (world : World Nat) (t' : Execution (World Nat)),
    (calls 64 bumpAllocator).run ⟨emptyHeap Nat, fun _ => none⟩
      [.op (.create 0), .op (.on 0 (.insertRange 0 [2, 1]))] = some world ∧
    (released 64).sortNodes (Foundation.insertionSort Ptr) 0 lessByValue ⟨0, some 0, world⟩ =
      some (.error .comparator, t') ∧ ¬ Intact [0] world t'.data := by
  obtain ⟨world, t', hrun, hr, hl, hx⟩ := exists_thrown_sort
  obtain ⟨e, hw⟩ := Call.alive_of_reachable hr
  obtain ⟨stump, cells, he⟩ := hw.exists_entry hl
  have hwp := wp_sortNodes lessByValue (t := ⟨0, some 0, world⟩)
    (released_sound 64) (Foundation.insertionSort Ptr) hw he
  unfold wp at hwp
  rw [hx] at hwp
  exact ⟨world, t', hrun, hx, hwp.2.2.not_intact⟩

end Garbage.RandomAccessList
