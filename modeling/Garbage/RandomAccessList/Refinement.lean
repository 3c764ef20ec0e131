import Garbage.RandomAccessList.Simulation

/-!
# The lists are lists

A list `Shows` some values: it passes its own check, its nodes from left to
right are the two gap nodes and between them nodes with these values, and
`size()` is their number.  A run of valid operations from a world without lists
never gets stuck, and then every list shows what the same run makes of plain
lists (`refines_plain_lists`).
-/

namespace Garbage.RandomAccessList

open Foundation (Prog Machine)
open Foundation.Prog
open AvlTreeStump

variable {α : Type} {w : World α} {e : Nat → Option (Entry α)}

/-- The list passes its own check and is one of `values`. -/
structure Tree.Shows (t : Tree α) (values : List α) : Prop where
  checked : (selfCheckIfConstructed : Prog (Tree α) Empty PUnit) t = some (.ok PUnit.unit, t)
  elements : ∃ ns : List Ptr, inorderOf t = t.stump.beforeBegin :: (ns ++ [t.stump.end_]) ∧
    ns.map (fun p => (t.heap.node p).value) = values.map some
  size : (Container.size : Prog (Tree α) Empty Nat) t = some (.ok values.length, t)

/-- The list variables show the plain lists `m`. -/
def World.Agrees (w : World α) (m : Nat → Option (List α)) : Prop :=
  ∀ l, match w.lists l, m l with
    | none, none => True
    | some stump, some values => Tree.Shows ⟨w.heap, stump⟩ values
    | _, _ => False

/-- A program that leaves the state runs to its result. -/
theorem eq_of_wp {σ ε β : Type} {x : Prog σ ε β} {b : β} {s : σ}
    (h : wp x (fun b' s' => b' = b ∧ s' = s) (fun _ _ => False) s) : x s = some (.ok b, s) := by
  obtain ⟨b', s', hx, rfl, rfl⟩ := h.returns
  exact hx

theorem Holds.shows {t : Tree α} {cells : List (Cell α)} (hH : Holds t cells) :
    t.Shows (cells.map Prod.snd) := by
  refine ⟨eq_of_wp (wp_selfCheckIfConstructed hH ⟨rfl, rfl⟩), ⟨nodes cells, hH.inorderOf_eq, ?_⟩,
    ?_⟩
  · rw [nodes, List.map_map, List.map_map]
    exact List.map_congr_left hH.values
  · rw [List.length_map]
    exact eq_of_wp (Container.wp_size hH ⟨rfl, rfl⟩)

theorem World.Holds.sizes_eq (hw : w.Holds e) :
    w.sizes = fun l => (contents e l).map List.length := by
  funext l
  show w.sizes l = (contents e l).map List.length
  unfold World.sizes contents
  rw [hw.lists]
  dsimp only
  cases he : e l with
  | none => rfl
  | some x =>
    rw [Option.map_some, Option.bind_some, (hw.owns.holds l x he).shows.size, List.length_map]
    rfl

theorem World.Holds.agrees (hw : w.Holds e) :
    w.Agrees fun l => (contents e l).map (List.map Prod.snd) := by
  intro l
  unfold contents
  rw [hw.lists]
  dsimp only
  cases he : e l with
  | none => trivial
  | some x => exact (hw.owns.holds l x he).shows

theorem World.holds_of_init {alloc : Allocator} (hw : (machine alloc).init w) :
    w.Holds fun _ => none :=
  ⟨⟨fun _ _ hx => (nomatch hx), fun _ _ _ => List.disjoint_nil_left _⟩, funext hw⟩

/-- **A valid step** never gets stuck. -/
theorem Op.next_eq (alloc : Allocator) (op : Op α) (hw : w.Holds e) (hv : op.Valid w.sizes) :
    ∃ w', (machine alloc).next w op = some w' ∧ op.Done w e w' := by
  have hv' : op.Valid fun l => (contents e l).map List.length := hw.sizes_eq ▸ hv
  obtain ⟨_, w', hx, hdone⟩ :=
    Prog.wp.returns (op.wp_exec (ε := Empty) (E := fun _ _ => False) alloc hw hv')
  refine ⟨w', ?_, hdone⟩
  rw [machine]
  dsimp only
  rw [if_pos hv, hx]

theorem Op.valid_of_next {alloc : Allocator} (op : Op α) {w' : World α}
    (hn : (machine alloc).next w op = some w') : op.Valid w.sizes := by
  by_contra hv
  rw [machine] at hn
  dsimp only at hn
  rw [if_neg hv] at hn
  cases hn

/-- A step of the program is a valid one. -/
theorem Op.done_of_next {alloc : Allocator} {op : Op α} {w' : World α} (hw : w.Holds e)
    (hn : (machine alloc).next w op = some w') : op.Done w e w' := by
  obtain ⟨w'', hn', hdone⟩ := op.next_eq alloc hw (op.valid_of_next hn)
  exact Option.some.inj (hn'.symm.trans hn) ▸ hdone

/-- A step does to the plain lists what it does to the nodes. -/
theorem Op.Done.map_snd {op : Op α} {w' : World α} (hdone : op.Done w e w') :
    ∃ e', w'.Holds e' ∧ (fun l => (contents e' l).map (List.map Prod.snd)) =
      op.lists id op.values fun l => (contents e l).map (List.map Prod.snd) := by
  obtain ⟨news, e', hvalues, -, hw', he', -⟩ := hdone
  refine ⟨e', hw', ?_⟩
  have hmap := @Op.map_lists α _ _ Prod.snd Prod.snd id (fun _ => rfl) op news (contents e)
  rw [he', hmap, hvalues]

/-- Runs of the program follow runs on plain lists. -/
theorem run_holds (alloc : Allocator) (ops : List (Op α)) :
    ∀ {w : World α} {e : Nat → Option (Entry α)} {m : Nat → Option (List α)}, w.Holds e →
      (plain α).run (fun l => (contents e l).map (List.map Prod.snd)) ops = some m →
      ∃ w' e', (machine alloc).run w ops = some w' ∧ w'.Holds e' ∧
        m = fun l => (contents e' l).map (List.map Prod.snd) := by
  induction ops with
  | nil =>
    intro w e m hw hm
    exact ⟨w, e, rfl, hw, (Option.some.inj hm).symm⟩
  | cons op ops ih =>
    intro w e m hw hm
    obtain ⟨m₁, hm₁, hm⟩ := Option.bind_eq_some_iff.mp hm
    rw [plain] at hm₁
    dsimp only at hm₁
    split at hm₁
    · rename_i hv
      have hv' : op.Valid w.sizes := by
        rw [hw.sizes_eq]
        simpa [Function.comp_def] using hv
      obtain ⟨w₁, hn, hdone⟩ := op.next_eq alloc hw hv'
      obtain ⟨e₁, hw₁, he₁⟩ := hdone.map_snd
      rw [← Option.some.inj hm₁, ← he₁] at hm
      obtain ⟨w', e', hr, hw', he'⟩ := ih hw₁ hm
      refine ⟨w', e', ?_, hw', he'⟩
      rw [Machine.run_cons, hn]
      exact hr
    · cases hm₁

/-- **The lists refine plain lists.**  A run of valid operations, from any memory
in which there is no list yet, ends in a world whose lists all pass their own
check and show what the same run makes of plain lists. -/
theorem refines_plain_lists (alloc : Allocator) (ops : List (Op α))
    {w : World α} (hw : (machine alloc).init w) {m : Nat → Option (List α)}
    (hm : (plain α).run (fun _ => none) ops = some m) :
    ∃ w', (machine alloc).run w ops = some w' ∧ w'.Agrees m := by
  obtain ⟨w', e', hr, hw', rfl⟩ := run_holds alloc ops (World.holds_of_init hw) hm
  exact ⟨w', hr, hw'.agrees⟩

/-- The allocator that hands out the address after the highest one in use. -/
def bumpAllocator : Allocator where
  pick _ live := live.foldr max 0 + 1
  fresh _ live := by
    intro hm
    have hle : ∀ l : List Ptr, ∀ p ∈ l, p ≤ l.foldr max 0 := by
      intro l
      induction l with
      | nil => intro p hp; cases hp
      | cons q l ih =>
        intro p hp
        rcases List.mem_cons.mp hp with rfl | hp
        · exact Nat.le_max_left _ _
        · exact Nat.le_trans (ih p hp) (Nat.le_max_right _ _)
    exact Nat.not_succ_le_self _ (hle live _ hm)

/-- A memory in which nothing is allocated. -/
def emptyHeap (α : Type) : Heap α :=
  { node := fun _ => TAvlTreeNode.make none, live := [], allocations := 0 }

/-- Two lists: elements are put in, taken out, turned round and spliced. -/
theorem refines_plain_lists_two :
    ∃ w', (machine bumpAllocator).run ⟨emptyHeap Nat, fun _ => none⟩
        [.create 0, .create 1, .on 0 (.insertRange 0 [3, 1, 2]), .on 0 (.erase 1),
          .on 1 (.emplace 0 7), .on 0 .reverse, .splice 1 0 0, .swap 0 1] = some w' ∧
      w'.Agrees fun l => if l = 0 then some [2, 3, 7] else if l = 1 then some [] else none := by
  have hm : ∃ m, (plain Nat).run (fun _ => none)
      [.create 0, .create 1, .on 0 (.insertRange 0 [3, 1, 2]), .on 0 (.erase 1),
        .on 1 (.emplace 0 7), .on 0 .reverse, .splice 1 0 0, .swap 0 1] = some m ∧
      m = fun l => if l = 0 then some [2, 3, 7] else if l = 1 then some [] else none := by
    refine ⟨_, rfl, funext fun l => ?_⟩
    match l with
    | 0 => rfl
    | 1 => rfl
    | l + 2 => rfl
  obtain ⟨m, hm, rfl⟩ := hm
  exact refines_plain_lists bumpAllocator _ (fun _ => rfl) hm

end Garbage.RandomAccessList
