import Garbage.RandomAccessList.Ranks

/-!
# The splice of one element

`splice(pos, other, it)` calls the splice of a range and hands down `it` and the
end of `other`.  So what goes into the list is everything from `it` on
(`exec_spliceFrom`), and that is one element exactly if `it` is the last one
(`splice_moves_element_iff`).
-/

namespace Garbage.RandomAccessList

open Foundation (Prog Machine)
open Foundation.Prog

variable {α : Type} {world world' : World α} {e : Nat → Option (Entry α)} {l pos other it w : Nat}

/-- The element at `it` goes right before `pos`, and no other one moves. -/
def MovesElement (world world' : World α) (l pos other it : Nat) : Prop :=
  ∃ c, (world.elements other)[it]? = some c ∧
    world'.elements l = (world.elements l).take pos ++ c :: (world.elements l).drop pos ∧
    world'.elements other = (world.elements other).eraseIdx it ∧
    ∀ k, k ≠ l → k ≠ other → world'.elements k = world.elements k

/-- **What moves** is all from `it` on. -/
theorem exec_spliceFrom (w : Nat) (alloc : Allocator) (hr : (calls w alloc).Reachable world)
    (hv : (Call.spliceFrom l pos other it : Call α).Valid world.sizes) : ∃ world' : World α,
    (released w : Implementation α Empty).exec alloc (.spliceFrom l pos other it) world =
      some (.ok PUnit.unit, world') ∧
    world'.elements l = (world.elements l).take pos ++ (world.elements other).drop it ++
      (world.elements l).drop pos ∧
    world'.elements other = (world.elements other).take it ∧
    ∀ k, k ≠ l → k ≠ other → world'.elements k = world.elements k := by
  obtain ⟨e, hw⟩ := Call.alive_of_reachable hr
  rw [hw.sizes_eq] at hv
  obtain ⟨hne, ⟨m, hm, hit⟩, n, hn, hpos⟩ := hv
  obtain ⟨so, co, hother, rfl⟩ := exists_entry hm
  obtain ⟨stump, cells, hl, rfl⟩ := exists_entry hn
  obtain ⟨ca, cb, rfl, rfl⟩ := exists_split hpos
  obtain ⟨da, db, rfl, rfl⟩ := exists_split hit
  obtain ⟨_, world', hx, e', hw', he'⟩ := (Call.wp_spliceFrom_moves (E := fun _ _ => False)
    (released_sound (ε := Empty) w) hw hne hother hl (fun _ => trivial) alloc).returns
  refine ⟨world', hx, ?_, ?_, fun k hkl hko => ?_⟩
  · rw [hw'.elements_eq, he', Function.update_self, hw.elements_of_entry hl,
      hw.elements_of_entry hother, List.take_left, List.drop_left, List.drop_left]
    rfl
  · rw [hw'.elements_eq, he', Function.update_of_ne hne.symm, Function.update_self,
      hw.elements_of_entry hother, List.take_left]
    rfl
  · rw [hw'.elements_eq, he', Function.update_of_ne hkl, Function.update_of_ne hko,
      hw.elements_eq]

/-- **When one element moves.**  The splice of an element that can be
dereferenced moves exactly that element if and only if it is the last one of its
list. -/
theorem splice_moves_element_iff (w : Nat) (alloc : Allocator)
    (hr : (calls w alloc).Reachable world)
    (hv : (Call.spliceFrom l pos other it : Call α).Valid world.sizes)
    (hit : it < (world.elements other).length) :
    (∃ world', (released w : Implementation α Empty).exec alloc (.spliceFrom l pos other it) world =
      some (.ok PUnit.unit, world') ∧ MovesElement world world' l pos other it) ↔
      it + 1 = (world.elements other).length := by
  obtain ⟨world₁, hx, hl, hother, hrest⟩ := exec_spliceFrom w alloc hr hv
  constructor
  · rintro ⟨world', hx', c, -, -, hother', -⟩
    obtain rfl : world₁ = world' := congrArg Prod.snd (Option.some.inj (hx.symm.trans hx'))
    have hlen := congrArg List.length (hother.symm.trans hother')
    rw [List.length_take_of_le (Nat.le_of_lt hit), List.length_eraseIdx_of_lt hit] at hlen
    omega
  · intro hlast
    refine ⟨world₁, hx, (world.elements other)[it], List.getElem?_eq_getElem hit, ?_, ?_, hrest⟩
    · rw [hl, List.drop_eq_getElem_cons hit, List.drop_eq_nil_of_le (Nat.le_of_eq hlast.symm)]
      simp
    · rw [hother, List.eraseIdx_eq_take_drop_succ,
        List.drop_eq_nil_of_le (Nat.le_of_eq hlast.symm), List.append_nil]

theorem exists_spliceable (it : Nat) (hit : it < 2) : ∃ world : World Nat,
    (calls 64 bumpAllocator).run ⟨emptyHeap Nat, fun _ => none⟩
      [.op (.create 0), .op (.create 1), .op (.on 0 (.insertRange 0 [5, 7]))] = some world ∧
    (calls 64 bumpAllocator).Reachable world ∧
    (Call.spliceFrom 1 0 0 it : Call Nat).Valid world.sizes ∧
    (world.elements 0).length = 2 := by
  obtain ⟨world, hrun, hr, hsizes, helements⟩ := exists_world 64
    [.create 0, .create 1, .on 0 (.insertRange 0 [5, 7])] (m := _) rfl
  refine ⟨world, hrun, hr, ?_, ?_⟩
  · rw [hsizes]
    exact ⟨by decide, ⟨2, rfl, Nat.le_of_lt hit⟩, 0, rfl, Nat.le_refl 0⟩
  · rw [← List.length_map (f := Prod.snd), helements 0]
    rfl

theorem splice_moves_element_iff_last : ∃ world : World Nat,
    (calls 64 bumpAllocator).run ⟨emptyHeap Nat, fun _ => none⟩
      [.op (.create 0), .op (.create 1), .op (.on 0 (.insertRange 0 [5, 7]))] = some world ∧
    ((∃ world', (released 64 : Implementation Nat Empty).exec bumpAllocator (.spliceFrom 1 0 0 1)
      world = some (.ok PUnit.unit, world') ∧ MovesElement world world' 1 0 0 1) ↔
      1 + 1 = (world.elements 0).length) := by
  obtain ⟨world, hrun, hr, hv, hlen⟩ := exists_spliceable 1 (by decide)
  exact ⟨world, hrun, splice_moves_element_iff 64 bumpAllocator hr hv (by rw [hlen]; decide)⟩

/-- The splice of the first one of two elements takes the second one along. -/
theorem splice_moves_two : ∃ world : World Nat,
    (calls 64 bumpAllocator).run ⟨emptyHeap Nat, fun _ => none⟩
      [.op (.create 0), .op (.create 1), .op (.on 0 (.insertRange 0 [5, 7]))] = some world ∧
    (Call.spliceFrom 1 0 0 0 : Call Nat).Valid world.sizes ∧
    0 < (world.elements 0).length ∧
    ¬ ∃ world', (released 64 : Implementation Nat Empty).exec bumpAllocator (.spliceFrom 1 0 0 0)
      world = some (.ok PUnit.unit, world') ∧ MovesElement world world' 1 0 0 0 := by
  obtain ⟨world, hrun, hr, hv, hlen⟩ := exists_spliceable 0 (by decide)
  refine ⟨world, hrun, hv, by rw [hlen]; decide, ?_⟩
  rintro ⟨world', hx', c, -, -, hother', -⟩
  obtain ⟨world₁, hx, -, hother, -⟩ := exec_spliceFrom 64 bumpAllocator hr hv
  obtain rfl : world₁ = world' := congrArg Prod.snd (Option.some.inj (hx.symm.trans hx'))
  have hlen' := congrArg List.length (hother.symm.trans hother')
  rw [List.take_zero, List.length_eraseIdx_of_lt (by rw [hlen]; decide), hlen] at hlen'
  exact absurd hlen' (by decide)

end Garbage.RandomAccessList
