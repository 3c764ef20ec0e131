import Garbage.RandomAccessList.Destruction
import Garbage.RandomAccessList.Ranks

/-!
# `remove_if` and `unique`

Both walk over a list and erase behind them.  The loop of `remove_if` goes on
only by an erasure: at an element that stays it turns for ever, so the call ends
exactly if no element stays (`remove_if_filters_iff`).  The loop of `unique` goes
on in both cases, and keeps the greedy subsequence (`unique_keeps_greedy`).

`removeIfWithin p n` is `remove_if(p)`, stuck unless it ends within `n` rounds.
-/

namespace Garbage.RandomAccessList

open Foundation (Prog Side)
open Foundation.Prog
open AvlTreeStump

variable {α ε : Type} {cells ca cb gone : List (Cell α)} {s t : Tree α} {p : α → Bool}

/-! ### `remove_if` -/

namespace Implementation

variable (this : Implementation α ε)

/-- A round of the loop of `remove_if`. -/
def removeIfRound (p : α → Bool) (end_ current : Ptr) : Prog (Tree α) ε (Ptr ⊕ PUnit) :=
  if current = end_ then pure (.inr PUnit.unit)
  else do
    let value ← Container.dereference current
    if p value then do
      match ← this.erase current with
      | none => stuck
      | some current => pure (.inl current)
    else pure (.inl current)

/-- `remove_if(p)`, if it ends within `n` rounds. -/
def removeIfWithin (p : α → Bool) (n : Nat) : Prog (Tree α) ε PUnit := do
  let current ← this.getBegin
  let end_ ← Container.end_
  loop (this.removeIfRound p end_) n current

/-- `remove(value)`, with the `==` of the elements. -/
def removeWithin (eq : α → α → Bool) (value : α) (n : Nat) : Prog (Tree α) ε PUnit :=
  this.removeIfWithin (fun x => eq x value) n

end Implementation

/-- The elements for which `p` holds are taken out and destroyed. -/
structure Filtered (p : α → Bool) (s t : Tree α) : Prop where
  elements : t.elements = s.elements.filter fun c => !p c.2
  destroyed : Destroyed (s.elements.filter fun c => p c.2) s.heap t.heap

/-- A loop, given enough rounds, ends and filters. -/
def Filters (p : α → Bool) (x : Nat → Prog (Tree α) ε PUnit) (s : Tree α) : Prop :=
  ∃ n t, x n s = some (.ok PUnit.unit, t) ∧ Filtered p s t

namespace Implementation.Sound

variable {this : Implementation α ε} {moves : Prop} {E : ε → Tree α → Prop}
  {R : List (Cell α) → Tree α → Prop}

theorem wp_removeIfRounds_all (hS : this.Sound moves) (hT : Tracks this.deleteAndGetNext R E)
    (hp : ∀ c ∈ cells, p c.2 = true) (n : Nat) (hn : cells.length < n) (hH : Holds s cells)
    (hR : R [] s) :
    wp (loop (this.removeIfRound p s.stump.end_) n (startOf s.stump.end_ cells))
      (fun _ s' => Holds s' [] ∧ R cells s') E s := by
  refine wp_loop (I := fun n current s' => ∃ gone rest : List (Cell α), cells = gone ++ rest ∧
    n = rest.length ∧ current = startOf s.stump.end_ rest ∧ Holds s' ([] ++ rest) ∧
    SameEnds s.stump s'.stump ∧ R gone s') ?_ n cells.length _ s
    ⟨[], cells, rfl, rfl, rfl, hH, ⟨rfl, rfl⟩, hR⟩ hn
  rintro n current s' ⟨gone, rest, rfl, rfl, rfl, hH', hends, hR'⟩
  unfold Implementation.removeIfRound
  cases rest with
  | nil =>
    rw [startOf_nil, if_pos rfl, wp_pure, List.append_nil]
    exact ⟨hH', hR'⟩
  | cons c rest =>
    have hne : c.1 ≠ s.stump.end_ := fun he => hH'.not_gap (.inr (he.trans hends.2.symm))
    rw [startOf_cons, if_neg hne, wp_bind]
    refine Container.wp_dereference hH' (v := c.2) (by simp) ?_
    rw [if_pos (hp c (by simp)), wp_bind]
    refine ((hS.wp_erase (v := c.2) hH').and (hT gone hH' hR')).imp ?_
    rintro x s'' ⟨⟨rfl, hC⟩, hR''⟩
    dsimp only
    rw [wp_pure]
    exact ⟨rest.length, Nat.lt_succ_self _, gone ++ [c], rest, by simp, rfl, by rw [hends.2],
      hC.holds, hends.trans hC.ends, hR''⟩

/-- The loop does not get past an element that stays, however many rounds it has. -/
theorem not_wp_removeIfRounds (hS : this.Sound moves) (n : Nat) : ∀ {ca cb : List (Cell α)}
    {s : Tree α}, Holds s (ca ++ cb) → (∃ c ∈ cb, p c.2 = false) →
      ¬ wp (loop (this.removeIfRound p s.stump.end_) n (startOf s.stump.end_ cb))
        (fun _ _ => True) (fun _ _ => False) s := by
  induction n with
  | zero => exact fun _ _ h => h
  | succ n ih =>
    intro ca cb s hH hstays hwp
    obtain ⟨c, cb, rfl⟩ := List.exists_cons_of_ne_nil (List.ne_nil_of_mem hstays.choose_spec.1)
    have hne : c.1 ≠ s.stump.end_ := fun he => hH.not_gap (.inr he)
    rw [loop, wp_bind] at hwp
    unfold Implementation.removeIfRound at hwp
    rw [startOf_cons, if_neg hne, wp_bind] at hwp
    have hvalue : (Container.dereference c.1 : Prog (Tree α) ε α) s = some (.ok c.2, s) :=
      eq_of_wp (Container.wp_dereference (v := c.2) hH (by simp) ⟨rfl, rfl⟩)
    have hwp' := (wp_iff_of_ok hvalue).mp hwp
    by_cases hp : p c.2 = true
    · rw [if_pos hp, wp_bind] at hwp'
      -- the erasure goes on to a list that still has the element
      have herase := (hS.wp_erase (E := fun _ _ => False) (v := c.2) hH).and hwp'
      obtain ⟨x, s₁, -, ⟨rfl, hC⟩, hrest⟩ := herase.returns
      dsimp only at hrest
      rw [wp_pure] at hrest
      dsimp only at hrest
      rw [← hC.ends.2] at hrest
      refine ih hC.holds ?_ hrest
      obtain ⟨d, hd, hpd⟩ := hstays
      rcases List.mem_cons.mp hd with rfl | hd
      · rw [hp] at hpd
        cases hpd
      · exact ⟨d, hd, hpd⟩
    · rw [if_neg hp, wp_pure] at hwp'
      exact ih hH hstays hwp'

end Implementation.Sound

/-- When the loop over the elements of a list filters. -/
theorem Holds.filters_iff (w : Nat) (p : α → Bool) (hH : Holds s cells) :
    Filters p ((released w : Implementation α Empty).removeIfWithin p) s ↔
      ∀ c ∈ s.elements, p c.2 = true := by
  have hS := released_sound (α := α) (ε := Empty) w
  rw [hH.elements_eq]
  constructor
  · rintro ⟨n, t, hx, -⟩
    by_contra hstays
    have hstays' : ∃ c ∈ cells, p c.2 = false := by simpa using hstays
    refine hS.not_wp_removeIfRounds n (show Holds s ([] ++ cells) from hH) hstays' ?_
    have hwp := (wp_iff_of_ok (Q := fun _ _ => True) (E := fun _ _ => False) hx).mpr trivial
    unfold Implementation.removeIfWithin at hwp
    rw [wp_bind] at hwp
    have hfirst : (released w : Implementation α Empty).getBegin s =
        some (.ok (startOf s.stump.end_ cells), s) :=
      eq_of_wp (hS.getBegin (s := s) hH ⟨rfl, rfl⟩)
    exact (wp_iff_of_ok hfirst).mp hwp
  · intro hp
    have hwp : wp ((released w : Implementation α Empty).removeIfWithin p (cells.length + 1))
        (fun _ t => Holds t [] ∧ Destroyed cells s.heap t.heap) (fun _ _ => False) s := by
      unfold Implementation.removeIfWithin
      rw [wp_bind]
      refine hS.getBegin hH ?_
      rw [wp_bind, Container.wp_end_]
      exact hS.wp_removeIfRounds_all (tracks_destroyed s.heap) hp _ (Nat.lt_succ_self _) hH
        (Destroyed.refl _)
    obtain ⟨_, t, hx, ht, hd⟩ := hwp.returns
    refine ⟨cells.length + 1, t, hx, ?_, ?_⟩
    · rw [ht.elements_eq, hH.elements_eq]
      exact (List.filter_eq_nil_iff.mpr fun c hc => by simp [hp c hc]).symm
    · rw [hH.elements_eq, List.filter_eq_self.mpr hp]
      exact hd

/-- **When `remove_if` ends.**  On a list of a reachable world, `remove_if(p)`
ends with the elements for which `p` is false, the others destroyed once, if and
only if there are none of the first kind; and `remove(value)` likewise. -/
theorem remove_if_filters_iff (w : Nat) (alloc : Allocator) {world : World α} {l : Nat}
    {stump : AvlTreeStump} (hr : (calls w alloc).Reachable world)
    (hl : world.lists l = some stump) :
    (∀ p : α → Bool,
      Filters p ((released w : Implementation α Empty).removeIfWithin p) ⟨world.heap, stump⟩ ↔
        ∀ c ∈ Tree.elements ⟨world.heap, stump⟩, p c.2 = true) ∧
    ∀ (eq : α → α → Bool) (value : α),
      Filters (fun x => eq x value) ((released w : Implementation α Empty).removeWithin eq value)
          ⟨world.heap, stump⟩ ↔
        ∀ c ∈ Tree.elements ⟨world.heap, stump⟩, eq c.2 value = true := by
  obtain ⟨cells, hH⟩ := exists_holds hr hl
  exact ⟨fun p => hH.filters_iff w p, fun eq value => hH.filters_iff w fun x => eq x value⟩

theorem exists_filterable : ∃ (world : World Nat) (stump : AvlTreeStump),
    (calls 64 bumpAllocator).run ⟨emptyHeap Nat, fun _ => none⟩
      [.op (.create 0), .op (.on 0 (.insertRange 0 [5, 7]))] = some world ∧
    (calls 64 bumpAllocator).Reachable world ∧ world.lists 0 = some stump ∧
    (Tree.elements ⟨world.heap, stump⟩).map Prod.snd = [5, 7] := by
  obtain ⟨world, hrun, hr, hsizes, helements⟩ := exists_world 64
    [.create 0, .on 0 (.insertRange 0 [5, 7])] (m := _) rfl
  obtain ⟨stump, cells, hl, hH, hcells, -⟩ := exists_tree_of_size (l := 0) (n := 2) hr
    (by rw [hsizes]; rfl)
  refine ⟨world, stump, hrun, hr, hl, ?_⟩
  rw [hH.elements_eq, ← hcells, helements 0]
  rfl

theorem remove_if_filters_iff_all : ∃ (world : World Nat) (stump : AvlTreeStump),
    (calls 64 bumpAllocator).run ⟨emptyHeap Nat, fun _ => none⟩
      [.op (.create 0), .op (.on 0 (.insertRange 0 [5, 7]))] = some world ∧
    (Filters (fun x => 3 < x) ((released 64 : Implementation Nat Empty).removeIfWithin
        fun x => 3 < x) ⟨world.heap, stump⟩ ↔
      ∀ c ∈ Tree.elements ⟨world.heap, stump⟩, decide (3 < c.2) = true) := by
  obtain ⟨world, stump, hrun, hr, hl, -⟩ := exists_filterable
  exact ⟨world, stump, hrun, (remove_if_filters_iff 64 bumpAllocator hr hl).1 _⟩

/-- `remove_if` turns for ever at the 7 that stays. -/
theorem remove_if_turns_for_ever : ∃ (world : World Nat) (stump : AvlTreeStump),
    (calls 64 bumpAllocator).run ⟨emptyHeap Nat, fun _ => none⟩
      [.op (.create 0), .op (.on 0 (.insertRange 0 [5, 7]))] = some world ∧
    world.lists 0 = some stump ∧
    ¬ Filters (fun x => x == 5) ((released 64 : Implementation Nat Empty).removeIfWithin
      fun x => x == 5) ⟨world.heap, stump⟩ := by
  obtain ⟨world, stump, hrun, hr, hl, hvalues⟩ := exists_filterable
  obtain ⟨cells, hH⟩ := exists_holds hr hl
  refine ⟨world, stump, hrun, hl, fun hfilters => ?_⟩
  have hall := (hH.filters_iff 64 _).mp hfilters
  have h7 : 7 ∈ (Tree.elements ⟨world.heap, stump⟩).map Prod.snd := by
    rw [hvalues]
    decide
  obtain ⟨c, hc, hc7⟩ := List.mem_map.mp h7
  have h := hall c hc
  rw [hc7] at h
  exact absurd h (by decide)

/-! ### `unique` -/

/-- **`unique` keeps the greedy subsequence.**  On a list of a reachable world,
`unique(p)` ends.  The elements left are the first one and each later one that `p`
tells from the last one kept before it, in their nodes and in order; the others
were destroyed once. -/
theorem unique_keeps_greedy (w : Nat) (alloc : Allocator) {world : World α} {l : Nat}
    {stump : AvlTreeStump} (hr : (calls w alloc).Reachable world)
    (hl : world.lists l = some stump) (p : α → α → Bool) : ∃ (t : Tree α) (gone : List (Cell α)),
    (released w : Implementation α Empty).unique p ⟨world.heap, stump⟩ =
      some (.ok PUnit.unit, t) ∧
    t.elements = uniqueList (fun x y => p x.2 y.2) (Tree.elements ⟨world.heap, stump⟩) ∧
    (Tree.elements ⟨world.heap, stump⟩).Perm (gone ++ t.elements) ∧
    Destroyed gone world.heap t.heap := by
  obtain ⟨cells, hH⟩ := exists_holds hr hl
  have hwp := (released_sound (ε := Empty) w).wp_unique_tracking (E := fun _ _ => False)
    (tracks_destroyed world.heap) p hH (Destroyed.refl _)
  obtain ⟨_, t, hx, hC, gone, hperm, hd⟩ := hwp.returns
  refine ⟨t, gone, hx, ?_, ?_, hd⟩
  · rw [hC.holds.elements_eq, hH.elements_eq]
  · rw [hC.holds.elements_eq, hH.elements_eq]
    exact hperm

theorem unique_keeps_greedy_two : ∃ (world : World Nat) (stump : AvlTreeStump) (t : Tree Nat),
    (calls 64 bumpAllocator).run ⟨emptyHeap Nat, fun _ => none⟩
      [.op (.create 0), .op (.on 0 (.insertRange 0 [5, 7]))] = some world ∧
    (released 64 : Implementation Nat Empty).unique (fun x y => y < x) ⟨world.heap, stump⟩ =
      some (.ok PUnit.unit, t) ∧
    t.elements.map Prod.snd = [5] := by
  obtain ⟨world, stump, hrun, hr, hl, hvalues⟩ := exists_filterable
  obtain ⟨t, gone, hx, helements, -⟩ := unique_keeps_greedy 64 bumpAllocator hr hl fun x y => y < x
  refine ⟨world, stump, t, hrun, hx, ?_⟩
  rw [helements, map_uniqueList (q := fun x y => decide (y < x)) fun _ _ => rfl, hvalues]
  rfl

end Garbage.RandomAccessList
