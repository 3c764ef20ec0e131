import Garbage.RandomAccessList.Rollback

/-!
# Insertions and exceptions

An `Insertion` is a call of `emplace`, `insert(pos, count, value)` or
`insert(pos, first, last)`.  With no exception propagating on entry it does all or
nothing, wherever it fails (`Insertion.wp_exec`).

The cleanups ask `std::uncaught_exception()`, not whether their own block failed.
So under an exception that propagates already, a node that was made is given back
at once, and the insertion goes on with a node that is not allocated.  Only the
insertion of nothing does not depend on other exceptions
(`foreign_exception_iff_empty`).
-/

namespace Garbage.RandomAccessList

open Foundation (Prog Machine Execution)
open Foundation.Prog
open Foundation.Execution

variable {α β ε : Type}

/-- The calls that put elements in. -/
inductive Insertion (α : Type) where
  | emplace (value : Reference α)
  | count (n : Nat) (value : Reference α)
  | range (cursor : Cursor α)

/-- What an insertion before `pos` did: it made the nodes of `news`, and then put
them in, in order. -/
structure Inserted (ca news cb : List (Cell α)) (s s' : Tree α) (first : Ptr) : Prop where
  first_eq : first = startOf s.stump.end_ (news ++ cb)
  changed : Changed s s' (ca ++ cb) (ca ++ news ++ cb)
  made : ∃ h, Made news s.heap h ∧ Edits (nodes news ++ own s.stump (ca ++ cb)) h s'.heap

theorem Inserted.fresh {ca news cb : List (Cell α)} {s s' : Tree α} {first : Ptr}
    (hI : Inserted ca news cb s s' first) : ∀ c ∈ news, c.1 ∉ s.heap.live := by
  obtain ⟨h, hM, -⟩ := hI.made
  exact fun c hc => hM.grown.fresh c.1 (fst_mem_nodes hc)

namespace Insertion

/-- The program of an insertion before `pos`. -/
def exec (this : Implementation α Thrown) (alloc : Allocator) (pos : Ptr) :
    Insertion α → Prog (Execution (Tree α)) Thrown Ptr
  | emplace value => Throwing.emplace this alloc pos value
  | count n value => Throwing.insertCount this alloc pos n value
  | range cursor => Throwing.insertRange this alloc pos cursor

/-- The arguments are valid, and denote the values `vs`. -/
def Gives (h : Heap α) (vs : List α) : Insertion α → Prop
  | emplace value => ∃ v, vs = [v] ∧ value.Denotes h v
  | count n value => ∃ v, vs = List.replicate n v ∧ value.Denotes h v
  | range cursor => cursor.Gives h vs

/-- Nothing is put in: the count is 0 or the source is empty. -/
def PutsNothing : Insertion α → Prop
  | emplace _ => False
  | count n _ => n = 0
  | range cursor => Throwing.atEnd cursor = true

theorem Gives.putsNothing_iff {ins : Insertion α} {h : Heap α} {vs : List α}
    (hg : ins.Gives h vs) : ins.PutsNothing ↔ vs = [] := by
  cases ins with
  | emplace value =>
    obtain ⟨v, rfl, -⟩ := hg
    exact ⟨False.elim, nofun⟩
  | count n value =>
    obtain ⟨v, rfl, -⟩ := hg
    exact (List.replicate_eq_nil_iff v).symm
  | range cursor => rw [PutsNothing, Cursor.Gives.atEnd_eq hg, List.isEmpty_iff]

end Insertion

/-! ### All or nothing -/

variable {this : Implementation α Thrown} {moves : Prop} {alloc : Allocator}
  {t : Execution (Tree α)} {ca cb news : List (Cell α)} {ins : Insertion α} {vs : List α}
  {value : Reference α} {v : α}

theorem Constructed.wp_insert (hS : this.Sound moves) {t' : Execution (Tree α)}
    {E : Thrown → Execution (Tree α) → Prop} (hC : Constructed news t t')
    (hH : Holds t.data (ca ++ cb)) :
    wp (within (this.insertNodesFromListAndReturnFirstInserted (nodes news)
        (startOf t.data.stump.end_ cb)))
      (fun x t'' => Continues t t'' ∧ Inserted ca news cb t.data t''.data x) E t' := by
  have hG := hC.made.grown
  have hfresh : ∀ c ∈ news, c.1 ∉ t.data.heap.live := fun c hc => hG.fresh c.1 (fst_mem_nodes hc)
  rw [wp_within]
  refine (hS.wp_insertLoose hH hC.made.loose hC.made.one hfresh hG.outside hC.stump).imp ?_
  rintro x s' ⟨hx, hchanged, hedits⟩
  refine ⟨(continues_withData_right _).mpr hC.continues, hx, hchanged, t'.data.heap, hC.made, ?_⟩
  exact hedits

theorem wp_insertFilled (hS : this.Sound moves)
    {fill : Prog (Execution (Tree α × List Ptr)) Thrown PUnit} (hu : t.uncaught = 0)
    (hH : Holds t.data (ca ++ cb))
    (hfill : ∀ t₀ : Execution (Tree α × List Ptr), t₀.uncaught = 0 → Filling t.data [] t₀ →
      Throwing.Fills fill t.data vs t₀ []) :
    wp (do
      let nodes ← Throwing.constructNodes fill
      within (this.insertNodesFromListAndReturnFirstInserted nodes (startOf t.data.stump.end_ cb)))
      (fun x t' => Continues t t' ∧ ∃ news : List (Cell α), news.map Prod.snd = vs ∧
        Inserted ca news cb t.data t'.data x) (fun _ t' => RolledBack t t') t := by
  rw [wp_bind]
  refine (Throwing.wp_constructNodes hu hfill).imp ?_
  rintro x t₁ ⟨news, hvs, rfl, hC⟩
  refine (hC.wp_insert hS hH).imp ?_
  rintro x t' ⟨hcont, hI⟩
  exact ⟨hcont, news, hvs, hI⟩

/-- **An insertion does all or nothing.** -/
theorem Insertion.wp_exec (hS : this.Sound moves) (hu : t.uncaught = 0)
    (hH : Holds t.data (ca ++ cb)) (hg : ins.Gives t.data.heap vs) :
    wp (ins.exec this alloc (startOf t.data.stump.end_ cb))
      (fun x t' => Continues t t' ∧ ∃ news : List (Cell α), news.map Prod.snd = vs ∧
        Inserted ca news cb t.data t'.data x) (fun _ t' => RolledBack t t') t := by
  cases ins with
  | emplace value =>
    obtain ⟨v, rfl, hv⟩ := hg
    show wp (do
      let node ← Throwing.makeNode alloc value
      within (this.insertBefore (startOf t.data.stump.end_ cb) node)) _ _ t
    rw [wp_bind]
    refine (Throwing.wp_makeNode hu hv).imp fun p t₁ hC => ?_
    have hinsert := hC.wp_insert hS (E := fun _ t' => RolledBack t t') hH
    rw [wp_within] at hinsert ⊢
    refine ((wp_bind _ _).mp hinsert).imp ?_
    rintro x s' ⟨hcont, hI⟩
    exact ⟨hcont, [(p, v)], rfl, hI⟩
  | count n value =>
    obtain ⟨v, rfl, hv⟩ := hg
    exact wp_insertFilled hS hu hH fun t₀ hu₀ hF => Throwing.fillCount_fills hv n hu₀ hF
  | range cursor =>
    exact wp_insertFilled hS hu hH fun t₀ hu₀ hF => Throwing.fillRange_fills hS hg hu₀ hF

/-! ### Nothing to put in -/

theorem Throwing.wp_constructNodes_nothing
    {fill : Prog (Execution (Tree α × List Ptr)) Thrown PUnit}
    (hfill : ∀ t₀ : Execution (Tree α × List Ptr),
      wp fill (fun _ t' => Continues t₀ t' ∧ t'.data = t₀.data)
        (fun _ t' => Raised t₀ t' ∧ t'.data = t₀.data) t₀) :
    wp (constructNodes fill) (fun x t' => x = [] ∧ Continues t t' ∧ t'.data = t.data)
      (fun _ t' => Raised t t' ∧ t'.data = t.data) t := by
  have hclear : ∀ {t' : Execution (Tree α × List Ptr)} {Q : PUnit → _ → Prop}
      {E : Thrown → _ → Prop}, t'.data = (t.data, []) → Q PUnit.unit t' →
      wp (whenUnwinding clearAndDispose) Q E t' := by
    intro t' Q E hdata hQ
    rw [wp_whenUnwinding]
    refine ⟨fun _ => ?_, fun _ => hQ⟩
    unfold clearAndDispose
    rw [wp_bind, wp_getLocal, wp_bind, wp_outer, hdata]
    show wp (pure PUnit.unit) _ _ _
    rw [wp_pure, wp_setLocal]
    have hself : t'.withData (t.data, ([] : List Ptr)) = t' := hdata ▸ withData_self t'
    rwa [← hself] at hQ
  unfold constructNodes
  rw [wp_withLocal, wp_bind, wp_scopeExit]
  refine wp_mono ?_ ?_ (hfill (t.withData (t.data, [])))
  · rintro _ t₁ ⟨hcont, hdata⟩
    refine hclear hdata ?_
    rw [wp_getLocal, hdata]
    exact ⟨rfl, by simpa using hcont, rfl⟩
  · rintro e t₁ ⟨hR, hdata⟩
    refine hclear hdata ?_
    exact ⟨by simpa using hR, by rw [withData_data, hdata]; rfl⟩

theorem Insertion.wp_exec_nothing (hp : ins.PutsNothing) (pos : Ptr) :
    wp (ins.exec this alloc pos) (fun x t' => x = pos ∧ Continues t t' ∧ t'.data = t.data)
      (fun _ t' => Raised t t' ∧ t'.data = t.data) t := by
  have hnodes : ∀ {fill : Prog (Execution (Tree α × List Ptr)) Thrown PUnit},
      (∀ t₀ : Execution (Tree α × List Ptr), wp fill
        (fun _ t' => Continues t₀ t' ∧ t'.data = t₀.data)
        (fun _ t' => Raised t₀ t' ∧ t'.data = t₀.data) t₀) →
      wp (do
        let nodes ← Throwing.constructNodes fill
        within (this.insertNodesFromListAndReturnFirstInserted nodes pos))
        (fun x t' => x = pos ∧ Continues t t' ∧ t'.data = t.data)
        (fun _ t' => Raised t t' ∧ t'.data = t.data) t := by
    intro fill hfill
    rw [wp_bind]
    refine (Throwing.wp_constructNodes_nothing hfill).imp ?_
    rintro x t₁ ⟨rfl, hcont, hdata⟩
    rw [wp_within]
    exact ⟨rfl, (continues_withData_right _).mpr hcont, hdata⟩
  cases ins with
  | emplace value => exact hp.elim
  | count n value =>
    obtain rfl : n = 0 := hp
    exact hnodes fun t₀ => ⟨.refl t₀, rfl⟩
  | range cursor =>
    refine hnodes fun t₀ => ?_
    unfold Throwing.fillRange
    rw [wp_bind, wp_outer, wp_within, wp_get]
    obtain ⟨n, hn⟩ : ∃ n, Throwing.roundsOf t₀.data.1.heap cursor = n + 1 := by
      cases cursor <;> exact ⟨_, rfl⟩
    show wp (loop _ (Throwing.roundsOf t₀.data.1.heap cursor) cursor) _ _ t₀
    rw [hn, loop, wp_bind]
    unfold Throwing.fillRound
    rw [wp_bind]
    refine wp_mayThrow (fun t₁ hcont hdata => ?_) fun t₁ hR hdata => ⟨hR, hdata⟩
    rw [if_pos (show Throwing.atEnd cursor = true from hp)]
    exact ⟨hcont, hdata⟩

/-! ### Foreign exceptions -/

section Foreign

/-- Under a foreign exception the node that was made is given back at once. -/
theorem Throwing.wp_makeNode_foreign {E : Thrown → Execution (Tree α) → Prop}
    (hu : 0 < t.uncaught) (hf : t.failAt = none) (hv : value.Denotes t.data.heap v) :
    wp (makeNode alloc value) (fun p t' => p ∉ t'.data.heap.live) E t := by
  have hfresh := alloc.fresh t.data.heap.allocations t.data.heap.live
  unfold makeNode allocateNodeInternal constructNode
  rw [wp_bind, wp_bind, wp_mayThrow_of_none hf, wp_within, wp_allocate]
  generalize alloc.pick t.data.heap.allocations t.data.heap.live = p at hfresh
  have hG := Grown.add t.data.heap hfresh (TAvlTreeNode.make none)
  rw [wp_bind, wp_scopeExit, wp_bind]
  refine (wp_mayThrow_of_none ?_).mpr ?_
  · exact hf
  rw [wp_within, wp_bind]
  refine wp_getValue (hv.grown hG) ?_
  rw [wp_store]
  refine ⟨List.mem_cons_self, wp_dealocateNodeIfRaised List.mem_cons_self (fun _ => ?_)
    fun hzero => absurd hzero (Nat.ne_of_gt hu)⟩
  show p ∉ (p :: t.data.heap.live).erase p
  rwa [List.erase_cons_head]

theorem Throwing.not_wp_pushNode {t : Execution (Tree α × List Ptr)}
    {k : Prog (Execution (Tree α × List Ptr)) Thrown β}
    {Q : β → Execution (Tree α × List Ptr) → Prop}
    {E : Thrown → Execution (Tree α × List Ptr) → Prop} (hu : 0 < t.uncaught)
    (hf : t.failAt = none) (hv : value.Denotes t.data.1.heap v) :
    ¬ wp (do
      let node ← outer (makeNode alloc value)
      pushBack node
      k) Q E t := by
  refine not_wp_bind ?_
  rw [wp_outer]
  refine (wp_makeNode_foreign (t := t.withData t.data.1) hu hf hv).imp fun p t' hp h => hp ?_
  unfold pushBack at h
  rw [wp_bind, wp_bind, wp_outer, wp_within, wp_store] at h
  exact h.1

theorem Throwing.not_wp_fillRound (hS : this.Sound moves) {t : Execution (Tree α × List Ptr)}
    {cursor : Cursor α} {Q : Cursor α ⊕ PUnit → Execution (Tree α × List Ptr) → Prop}
    {E : Thrown → Execution (Tree α × List Ptr) → Prop} (hu : 0 < t.uncaught)
    (hf : t.failAt = none) (hc : cursor.Gives t.data.1.heap (v :: vs)) :
    ¬ wp (fillRound this alloc cursor) Q E t := by
  unfold fillRound
  refine not_wp_bind ((wp_mayThrow_of_none hf).mpr ?_)
  rw [hc.atEnd_eq, if_neg (by simp)]
  refine not_wp_bind ((wp_mayThrow_of_none hf).mpr (not_wp_bind ?_))
  rw [wp_outer, wp_within]
  refine (wp_next hS hc (.refl _)).imp ?_
  rintro ⟨value, cursor'⟩ s' ⟨rfl, hv, -⟩
  refine not_wp_bind ((wp_mayThrow_of_none hf).mpr ?_)
  exact not_wp_pushNode hu hf hv

/-- A loop that makes a node is stuck. -/
theorem Throwing.not_wp_insertFilled {fill : Prog (Execution (Tree α × List Ptr)) Thrown PUnit}
    {insert : List Ptr → Prog (Execution (Tree α)) Thrown Ptr}
    {Q : Ptr → Execution (Tree α) → Prop} {E : Thrown → Execution (Tree α) → Prop}
    (hfill : ∀ {Q' E'}, ¬ wp fill Q' E' (t.withData (t.data, []))) :
    ¬ wp (do
      let nodes ← constructNodes fill
      insert nodes) Q E t := by
  unfold constructNodes
  rw [wp_bind, wp_withLocal, wp_bind, wp_scopeExit]
  exact hfill

/-- **Under a foreign exception** an insertion of something is stuck. -/
theorem Insertion.not_wp_exec (w : Nat) {Q : Ptr → Execution (Tree α) → Prop}
    {E : Thrown → Execution (Tree α) → Prop} (hu : 0 < t.uncaught) (hf : t.failAt = none)
    (hg : ins.Gives t.data.heap vs) (hp : ¬ ins.PutsNothing) (pos : Ptr) :
    ¬ wp (ins.exec (released w) alloc pos) Q E t := by
  have hne : vs ≠ [] := fun h => hp (hg.putsNothing_iff.mpr h)
  cases ins with
  | emplace value =>
    obtain ⟨v, rfl, hv⟩ := hg
    refine not_wp_bind ((Throwing.wp_makeNode_foreign hu hf hv).imp fun p t' hp h => hp ?_)
    rw [wp_within] at h
    change wp (AvlTreeStump.insertBefore (some pos) p) _ _ _ at h
    unfold AvlTreeStump.insertBefore at h
    rw [wp_bind, wp_store] at h
    exact h.1
  | count n value =>
    obtain ⟨v, rfl, hv⟩ := hg
    obtain ⟨n, rfl⟩ := Nat.exists_eq_succ_of_ne_zero hp
    exact Throwing.not_wp_insertFilled fun {_ _} => Throwing.not_wp_pushNode hu hf hv
  | range cursor =>
    obtain ⟨v, vs, rfl⟩ := List.exists_cons_of_ne_nil hne
    refine Throwing.not_wp_insertFilled fun {_ _} h => ?_
    unfold Throwing.fillRange at h
    rw [wp_bind, wp_outer, wp_within, wp_get] at h
    obtain ⟨n, hn⟩ : ∃ n, Throwing.roundsOf t.data.heap cursor = n + 1 := by
      cases cursor <;> exact ⟨_, rfl⟩
    change wp (loop _ (Throwing.roundsOf t.data.heap cursor) cursor) _ _
      (t.withData (t.data, [])) at h
    rw [hn, loop, wp_bind] at h
    exact Throwing.not_wp_fillRound (released_sound w) (t := t.withData (t.data, [])) hu hf hg h

end Foreign

theorem exists_singleton (v : Nat) : ∃ (world : World Nat) (stump : AvlTreeStump),
    (calls 64 bumpAllocator).run ⟨emptyHeap Nat, fun _ => none⟩
      [.op (.create 0), .op (.on 0 (.emplace 0 v))] = some world ∧
    (calls 64 bumpAllocator).Reachable world ∧ world.lists 0 = some stump ∧
    (Tree.elements ⟨world.heap, stump⟩).map Prod.snd = [v] := by
  obtain ⟨world, hrun, hr, hsizes, helements⟩ := exists_world 64
    [.create 0, .on 0 (.emplace 0 v)] (m := _) rfl
  obtain ⟨stump, cells, hl, hH, hcells, -⟩ := exists_tree_of_size (l := 0) (n := 1) hr
    (by rw [hsizes]; rfl)
  refine ⟨world, stump, hrun, hr, hl, ?_⟩
  rw [hH.elements_eq, ← hcells, helements 0]
  rfl

/-- The iterator to the position `pos` of a list. -/
def Tree.iteratorTo (s : Tree α) (pos : Nat) : Ptr := startOf s.stump.end_ (s.elements.drop pos)

/-- With `uncaught` exceptions propagating, and nothing thrown, the insertion leaves
the same list as with none, returns the same iterator, and the same nodes are
allocated. -/
def Insertion.Independent (this : Implementation α Thrown) (alloc : Allocator) (pos : Ptr)
    (s : Tree α) (uncaught : Nat) (ins : Insertion α) : Prop :=
  ∃ (first : Ptr) (t t₀ : Execution (Tree α)),
    ins.exec this alloc pos ⟨uncaught, none, s⟩ = some (.ok first, t) ∧
    ins.exec this alloc pos ⟨0, none, s⟩ = some (.ok first, t₀) ∧
    t.data.elements = t₀.data.elements ∧ t.data.heap.live.Perm t₀.data.heap.live

/-- **When foreign exceptions make no difference.**  For every list, every place in
it and every valid insertion: called under an exception that propagates already, the
insertion does what it does without one, if and only if it puts nothing in. -/
theorem foreign_exception_iff_empty (w : Nat) (alloc : Allocator) (s : Tree α) (pos : Ptr)
    {ins : Insertion α} {vs : List α} (hg : ins.Gives s.heap vs) {uncaught : Nat}
    (hu : 0 < uncaught) :
    ins.Independent (released w) alloc pos s uncaught ↔ ins.PutsNothing := by
  constructor
  · rintro ⟨first, t, -, hx, -⟩
    by_contra hp
    have hwp := (wp_iff_of_ok (Q := fun _ _ => True) (E := fun _ _ => True) hx).mpr trivial
    exact Insertion.not_wp_exec w hu rfl hg hp pos hwp
  · intro hp
    have hsame : ∀ n : Nat, ins.exec (released w) alloc pos ⟨n, none, s⟩ =
        some (.ok pos, ⟨n, none, s⟩) := by
      intro n
      refine eq_of_wp (wp_mono ?_ ?_ (Insertion.wp_exec_nothing hp pos))
      · rintro x t ⟨rfl, hcont, hdata⟩
        exact ⟨rfl, hcont.eq_of_data rfl hdata⟩
      · rintro _ t ⟨hR, -⟩
        exact hR.failAt rfl
    exact ⟨pos, _, _, hsame uncaught, hsame 0, rfl, List.Perm.refl _⟩

theorem foreign_exception_iff_empty_none : ∃ (world : World Nat) (stump : AvlTreeStump),
    (calls 64 bumpAllocator).run ⟨emptyHeap Nat, fun _ => none⟩
      [.op (.create 0), .op (.on 0 (.emplace 0 5))] = some world ∧ world.lists 0 = some stump ∧
    (Insertion.Independent (released 64) bumpAllocator
        (Tree.iteratorTo ⟨world.heap, stump⟩ 0) ⟨world.heap, stump⟩ 1 (.count 0 (.value 7)) ↔
      (Insertion.count 0 (.value 7) : Insertion Nat).PutsNothing) := by
  obtain ⟨world, stump, hrun, hr, hl, -⟩ := exists_singleton 5
  have hg : (Insertion.count 0 (.value 7) : Insertion Nat).Gives world.heap [] := ⟨7, rfl, rfl⟩
  exact ⟨world, stump, hrun, hl,
    foreign_exception_iff_empty 64 bumpAllocator ⟨world.heap, stump⟩ _ hg Nat.one_pos⟩

/-- Under a foreign exception, `emplace` into a list of one element is stuck. -/
theorem emplace_not_independent : ∃ (world : World Nat) (stump : AvlTreeStump),
    (calls 64 bumpAllocator).run ⟨emptyHeap Nat, fun _ => none⟩
      [.op (.create 0), .op (.on 0 (.emplace 0 5))] = some world ∧ world.lists 0 = some stump ∧
    ¬ Insertion.Independent (released 64) bumpAllocator
      (Tree.iteratorTo ⟨world.heap, stump⟩ 0) ⟨world.heap, stump⟩ 1 (.emplace (.value 7)) := by
  obtain ⟨world, stump, hrun, hr, hl, -⟩ := exists_singleton 5
  refine ⟨world, stump, hrun, hl, ?_⟩
  rintro ⟨first, t, -, hx, -⟩
  have hwp := (wp_iff_of_ok (Q := fun _ _ => True) (E := fun _ _ => True) hx).mpr trivial
  have hg : (Insertion.emplace (.value 7) : Insertion Nat).Gives world.heap [7] := ⟨7, rfl, rfl⟩
  exact Insertion.not_wp_exec 64 Nat.one_pos rfl hg id _ hwp

end Garbage.RandomAccessList
