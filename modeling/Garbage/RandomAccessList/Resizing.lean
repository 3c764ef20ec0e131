import Garbage.RandomAccessList.Insertions

/-!
# `resize`

`resize(count, value)` is to leave the first elements of the list, with their
indices, and to add copies of `value` behind them.  It takes the elements that are
too many from the end, but those that are missing it inserts at `cbegin()`, in front
of the others.

So a list that has elements and grows is not resized but shifted
(`resize_iff`).
-/

namespace Garbage.RandomAccessList

open Foundation (Prog Machine Execution)
open Foundation.Prog
open Foundation.Execution

variable {α ε : Type}

namespace Throwing

variable (this : Implementation α Thrown) (alloc : Allocator)

/-- Both overloads of `resize`; `construct` is what is done for the argument of
`insert`. -/
def resizeBy (construct : Prog (Execution (Tree α)) Thrown PUnit) (count : Nat)
    (value : Reference α) : Prog (Execution (Tree α)) Thrown PUnit := do
  let containerSize ← within Container.size
  if count ≥ containerSize then do
    let pos ← within this.getBegin
    construct
    let _ ← insertCount this alloc pos (count - containerSize) value
    pure PUnit.unit
  else within (this.popBackTimes (containerSize - count))

def resize (count : Nat) (value : Reference α) : Prog (Execution (Tree α)) Thrown PUnit :=
  resizeBy this alloc (pure PUnit.unit) count value

/-- `resize(count)`, which constructs a temporary `value_type()`. -/
def resizeDefault (valueType : α) (count : Nat) : Prog (Execution (Tree α)) Thrown PUnit :=
  resizeBy this alloc (mayThrow .construction) count (.value valueType)

end Throwing

/-- The list has its first `count` elements, at their indices, and copies of `v`
behind them if they are less. -/
def Resized (count : Nat) (v : α) (s s' : Tree α) : Prop :=
  ∃ news : List (Cell α), news.map Prod.snd = List.replicate (count - s.elements.length) v ∧
    s'.elements = s.elements.take count ++ news

/-- Wherever the call fails, and if it does not fail: it returns with a resized list,
or throws and the list is as before. -/
def Resizes (resize : Prog (Execution (Tree α)) Thrown PUnit) (count : Nat) (v : α) (s : Tree α)
    (uncaught : Nat) : Prop :=
  ∀ failAt : Option Nat, wp resize (fun _ t' => Resized count v s t'.data)
    (fun _ t' => t'.data.stump = s.stump ∧ Grown [] s.heap t'.data.heap) ⟨uncaught, failAt, s⟩

variable {this : Implementation α Thrown} {moves : Prop} {alloc : Allocator} {s : Tree α}
  {cells : List (Cell α)} {value : Reference α} {v : α} {count uncaught : Nat}
  {construct : Prog (Execution (Tree α)) Thrown PUnit}

/-- What is done for the argument of `insert` leaves the list. -/
def LeavesData (construct : Prog (Execution (Tree α)) Thrown PUnit) : Prop :=
  ∀ t, wp construct (fun _ t' => Continues t t' ∧ t'.data = t.data)
    (fun _ t' => Raised t t' ∧ t'.data = t.data) t

/-- The call until it comes to `insert` or to `pop_back`. -/
theorem wp_resizeBy {Q : PUnit → Execution (Tree α) → Prop}
    {E : Thrown → Execution (Tree α) → Prop} {t : Execution (Tree α)} (hS : this.Sound moves)
    (hH : Holds t.data cells) :
    wp (Throwing.resizeBy this alloc construct count value) Q E t ↔
      (cells.length ≤ count → wp construct (fun _ t₁ =>
        wp (Throwing.insertCount this alloc (startOf t.data.stump.end_ cells)
          (count - cells.length) value) (fun _ t' => Q PUnit.unit t') E t₁) E t) ∧
      (count < cells.length →
        wp (within (this.popBackTimes (cells.length - count))) Q E t) := by
  have hsize : (within Container.size : Prog (Execution (Tree α)) Thrown Nat) t =
      some (.ok cells.length, t) := by
    refine eq_of_wp ((wp_within _).mpr (Container.wp_size hH ⟨rfl, rfl⟩))
  have hbegin : (within this.getBegin) t = some (.ok (startOf t.data.stump.end_ cells), t) :=
    eq_of_wp ((wp_within _).mpr (hS.getBegin hH ⟨rfl, rfl⟩))
  unfold Throwing.resizeBy
  rw [wp_bind, wp_iff_of_ok hsize, wp_ite, wp_bind, wp_iff_of_ok hbegin, wp_bind]
  simp only [wp_bind, wp_pure, ge_iff_le, not_le]

theorem LeavesData.eq (hc : LeavesData construct) {t : Execution (Tree α)}
    (hf : t.failAt = none) : construct t = some (.ok PUnit.unit, t) := by
  refine eq_of_wp (wp_mono ?_ ?_ (hc t))
  · rintro _ t' ⟨hcont, hdata⟩
    exact ⟨rfl, hcont.eq_of_data hf hdata⟩
  · rintro _ t' ⟨hR, -⟩
    exact hR.failAt hf

/-- The new elements are in front of the old ones. -/
theorem not_resized_of_front {s' : Tree α} {news : List (Cell α)} (hH : Holds s cells)
    (hI : Inserted [] news cells s s' (startOf s.stump.end_ (news ++ cells))) (hne : cells ≠ [])
    (hnews : news ≠ []) (hlen : cells.length ≤ count) : ¬ Resized count v s s' := by
  rintro ⟨more, -, helements⟩
  rw [hI.changed.holds.elements_eq, hH.elements_eq, List.take_of_length_le hlen] at helements
  obtain ⟨c, cells, rfl⟩ := List.exists_cons_of_ne_nil hne
  obtain ⟨d, news, rfl⟩ := List.exists_cons_of_ne_nil hnews
  obtain ⟨rfl, -⟩ := List.cons.inj helements
  exact hI.fresh d List.mem_cons_self (hH.live d.1 (fst_mem_own _ List.mem_cons_self))

theorem wp_shrink {t : Execution (Tree α)} {E : Thrown → Execution (Tree α) → Prop}
    (hS : this.Sound moves) (hH : Holds t.data cells) (hlt : count < cells.length) :
    wp (within (this.popBackTimes (cells.length - count)))
      (fun _ t' => Resized count v t.data t'.data) E t := by
  rw [wp_within]
  refine (hS.wp_popBackTimes _ hH (Nat.sub_le _ _)).imp fun _ s' hC => ⟨[], ?_, ?_⟩
  · rw [hH.elements_eq, Nat.sub_eq_zero_of_le (Nat.le_of_lt hlt)]
    rfl
  · rw [withData_data, hC.holds.elements_eq, hH.elements_eq, List.append_nil]
    congr 1
    omega

theorem wp_insertFront {t : Execution (Tree α)} (hS : this.Sound moves) (hu : t.uncaught = 0)
    (hH : Holds t.data cells) (n : Nat) (hv : value.Denotes t.data.heap v) :
    wp (Throwing.insertCount this alloc (startOf t.data.stump.end_ cells) n value)
      (fun _ t' => Continues t t' ∧ ∃ news : List (Cell α),
        news.map Prod.snd = List.replicate n v ∧
        Inserted [] news cells t.data t'.data (startOf t.data.stump.end_ (news ++ cells)))
      (fun _ t' => RolledBack t t') t := by
  have hg : (Insertion.count n value).Gives t.data.heap (List.replicate n v) := ⟨v, rfl, hv⟩
  refine (Insertion.wp_exec hS hu (show Holds t.data ([] ++ cells) from hH) hg).imp ?_
  rintro x t' ⟨hcont, news, hvalues, hI⟩
  obtain rfl := hI.first_eq
  exact ⟨hcont, news, hvalues, hI⟩

/-- A list that is to grow is not resized, but if it is empty and nothing propagates. -/
theorem Holds.not_resizes (w : Nat) (alloc : Allocator) (hH : Holds s cells)
    (hc : LeavesData construct) (hv : value.Denotes s.heap v) (hlt : cells.length < count)
    (hor : cells.length = 0 → uncaught ≠ 0) :
    ¬ Resizes (Throwing.resizeBy (released w) alloc construct count value) count v s uncaught := by
  have hS := released_sound (α := α) (ε := Thrown) w
  have hn : count - cells.length ≠ 0 := Nat.sub_ne_zero_of_lt hlt
  intro h
  have hcall := ((wp_resizeBy hS hH).mp (h none)).1 (Nat.le_of_lt hlt)
  rw [wp_iff_of_ok (hc.eq rfl)] at hcall
  by_cases hu : uncaught = 0
  · subst hu
    have hne : cells ≠ [] := fun he => hor (by rw [he]; rfl) rfl
    have hinsert : wp (Throwing.insertCount (released w) alloc (startOf s.stump.end_ cells)
        (count - cells.length) value) (fun _ t' => ¬ Resized count v s t'.data)
        (fun _ _ => False) ⟨0, none, s⟩ := by
      refine wp_mono ?_ ?_ (wp_insertFront (t := ⟨0, none, s⟩) hS rfl hH (count - cells.length) hv)
      · rintro x t' ⟨-, news, hvalues, hI⟩
        refine not_resized_of_front hH hI hne ?_ (Nat.le_of_lt hlt)
        rintro rfl
        exact hn ((List.replicate_eq_nil_iff v).mp hvalues.symm)
      · rintro _ t' hR
        exact hR.raised.failAt rfl
    obtain ⟨x, t', hx, hnot⟩ := hinsert.returns
    exact hnot ((wp_iff_of_ok hx).mp hcall)
  · have hg : (Insertion.count (count - cells.length) value).Gives s.heap
        (List.replicate (count - cells.length) v) := ⟨v, rfl, hv⟩
    exact Insertion.not_wp_exec w (t := ⟨uncaught, none, s⟩) (Nat.pos_of_ne_zero hu) rfl hg hn _
      hcall

/-- **When a list is resized.** -/
theorem Holds.resizes_iff (w : Nat) (alloc : Allocator) (hH : Holds s cells)
    (hc : LeavesData construct) (hv : value.Denotes s.heap v) :
    Resizes (Throwing.resizeBy (released w) alloc construct count value) count v s uncaught ↔
      count ≤ cells.length ∨ cells.length = 0 ∧ uncaught = 0 := by
  have hS := released_sound (α := α) (ε := Thrown) w
  constructor
  · intro h
    by_contra hnot
    rw [not_or, not_and, not_le] at hnot
    exact hH.not_resizes w alloc hc hv hnot.1 hnot.2 h
  · intro hcond failAt
    refine (wp_resizeBy hS hH).mpr ⟨fun hle => ?_, fun hlt => wp_shrink hS hH hlt⟩
    refine wp_mono ?_ ?_ (hc _)
    · rintro _ t₁ ⟨hcont, hdata⟩
      obtain rfl : t₁.data = s := hdata
      rcases hcond with hlen | ⟨hempty, hu⟩
      · obtain rfl : cells.length = count := Nat.le_antisymm hle hlen
        rw [Nat.sub_self]
        have hnothing : (Insertion.count 0 value).PutsNothing := rfl
        refine wp_mono ?_ ?_ (Insertion.wp_exec_nothing hnothing _)
        · rintro _ t' ⟨-, -, hdata'⟩
          refine ⟨[], ?_, ?_⟩
          · rw [hH.elements_eq, Nat.sub_self]
            rfl
          · rw [hdata', hH.elements_eq, List.take_length, List.append_nil]
        · rintro _ t' ⟨-, hdata'⟩
          rw [hdata']
          exact ⟨rfl, .refl _⟩
      · obtain rfl := List.eq_nil_of_length_eq_zero hempty
        refine wp_mono ?_ ?_ (wp_insertFront hS (hcont.uncaught.trans hu) hH _ hv)
        · rintro _ t' ⟨-, news, hvalues, hI⟩
          refine ⟨news, ?_, ?_⟩
          · rw [hH.elements_eq]
            exact hvalues
          · rw [hI.changed.holds.elements_eq, hH.elements_eq]
            simp
        · rintro _ t' hR
          exact ⟨hR.stump, hR.heap⟩
    · rintro _ t' ⟨-, hdata⟩
      rw [hdata]
      exact ⟨rfl, .refl _⟩

theorem leavesData_pure : LeavesData (α := α) (pure PUnit.unit) := fun t => ⟨.refl t, rfl⟩

theorem leavesData_mayThrow (e : Thrown) : LeavesData (α := α) (mayThrow e) :=
  fun _ => wp_mayThrow (fun _ hcont hdata => ⟨hcont, hdata⟩) fun _ hR hdata => ⟨hR, hdata⟩

/-- **`resize` is right where it does not grow a list of some elements.**  For every
list of a reachable world, every count and every valid value, which may be one of the
list: wherever it fails or does not, `resize(count, value)` leaves a resized list or
the list as it was, if and only if the count is not greater than the size, or the list
is empty and no exception propagates already.  The same holds of `resize(count)`. -/
theorem resize_iff (w : Nat) (alloc : Allocator) {world : World α} {l : Nat}
    {stump : AvlTreeStump} (hr : (calls w alloc).Reachable world)
    (hl : world.lists l = some stump) (count uncaught : Nat) :
    (∀ (value : Reference α) (v : α), value.Denotes world.heap v →
      (Resizes (Throwing.resize (released w) alloc count value) count v ⟨world.heap, stump⟩
          uncaught ↔
        count ≤ (world.elements l).length ∨ (world.elements l).length = 0 ∧ uncaught = 0)) ∧
    ∀ valueType : α,
      (Resizes (Throwing.resizeDefault (released w) alloc valueType count) count valueType
          ⟨world.heap, stump⟩ uncaught ↔
        count ≤ (world.elements l).length ∨ (world.elements l).length = 0 ∧ uncaught = 0) := by
  obtain ⟨cells, hH⟩ := exists_holds hr hl
  have helements : world.elements l = cells := by
    rw [World.elements, hl]
    exact hH.elements_eq
  rw [helements]
  exact ⟨fun value v hv => hH.resizes_iff w alloc leavesData_pure hv,
    fun valueType => hH.resizes_iff w alloc (leavesData_mayThrow _) rfl⟩

theorem resize_iff_singleton : ∃ (world : World Nat) (stump : AvlTreeStump),
    (calls 64 bumpAllocator).run ⟨emptyHeap Nat, fun _ => none⟩
      [.op (.create 0), .op (.on 0 (.emplace 0 5))] = some world ∧ world.lists 0 = some stump ∧
    (Resizes (Throwing.resize (released 64) bumpAllocator 0 (.value 7)) 0 7
        ⟨world.heap, stump⟩ 0 ↔
      0 ≤ (world.elements 0).length ∨ (world.elements 0).length = 0 ∧ 0 = 0) := by
  obtain ⟨world, stump, hrun, hr, hl, -⟩ := exists_singleton 5
  exact ⟨world, stump, hrun, hl, (resize_iff 64 bumpAllocator hr hl 0 0).1 (.value 7) 7 rfl⟩

/-- A list of one element does not grow to two by `resize`: the new element comes
first. -/
theorem resize_shifts : ∃ (world : World Nat) (stump : AvlTreeStump),
    (calls 64 bumpAllocator).run ⟨emptyHeap Nat, fun _ => none⟩
      [.op (.create 0), .op (.on 0 (.emplace 0 5))] = some world ∧ world.lists 0 = some stump ∧
    ¬ Resizes (Throwing.resize (released 64) bumpAllocator 2 (.value 7)) 2 7
      ⟨world.heap, stump⟩ 0 := by
  obtain ⟨world, stump, hrun, hr, hl, hvalues⟩ := exists_singleton 5
  obtain ⟨cells, hH⟩ := exists_holds hr hl
  refine ⟨world, stump, hrun, hl, ?_⟩
  rw [hH.elements_eq] at hvalues
  have hlen := congrArg List.length hvalues
  rw [List.length_map] at hlen
  refine hH.not_resizes 64 bumpAllocator leavesData_pure rfl ?_ ?_
  · rw [hlen]
    decide
  · rw [hlen]
    exact nofun

end Garbage.RandomAccessList
