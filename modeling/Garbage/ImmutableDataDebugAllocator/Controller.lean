import Garbage.Foundation.Machine
import Mathlib.Data.List.Basic
import Mathlib.Data.List.Nodup

/-!
# The blocks of the debug allocator

`ImmutableDataDebugAllocatorController` takes each block from `VirtualAlloc` and
keeps the start and the size of all of them in `m_blocks`, in the order of their
allocation.  `deallocate` looks for the first block that has the pointer between
its start and its end, both included, frees it and erases it from `m_blocks`.
The calls are serialised by a mutex.

The operating system keeps `regions`.  It hands out a region apart from all
others, or none.  `live` is what the client has allocated and not given back.
The three are the same as long as no deallocation meets, before the block asked
for, one that ends where that block starts (`exact_iff_unambiguous`).
-/

namespace Garbage.ImmutableDataDebugAllocator

open Foundation (Machine)

/-- A block: its start and its size. -/
structure Block where
  first : Nat
  second : Nat
  deriving DecidableEq

namespace Block

def end_ (b : Block) : Nat := b.first + b.second

/-- The test of `deallocate`. -/
def contains (memoryPtr : Nat) (b : Block) : Bool := b.first ≤ memoryPtr ∧ memoryPtr ≤ b.end_

def startsAt (memoryPtr : Nat) (b : Block) : Bool := b.first = memoryPtr

/-- Two regions without a common byte. -/
def Apart (a b : Block) : Prop := a.end_ ≤ b.first ∨ b.end_ ≤ a.first

instance (a b : Block) : Decidable (Apart a b) :=
  inferInstanceAs (Decidable (a.end_ ≤ b.first ∨ b.end_ ≤ a.first))

@[simp] theorem contains_iff {p : Nat} {b : Block} :
    b.contains p = true ↔ b.first ≤ p ∧ p ≤ b.end_ := decide_eq_true_iff

@[simp] theorem startsAt_iff {p : Nat} {b : Block} : b.startsAt p = true ↔ b.first = p :=
  decide_eq_true_iff

end Block

structure State where
  blocks : List Block
  regions : List Block
  live : List Block
  deriving DecidableEq

/-- What the controller is asked for, and what it gets from outside. -/
inductive Action
  /-- `emplaced`: `emplace_back` got memory; `result`: what `VirtualAlloc` returned -/
  | allocate (size : Nat) (emplaced : Bool) (result : Option Nat)
  | deallocate (memoryPtr : Nat)

/-! ### The operating system -/

/-- `VirtualAlloc` may return `result`. -/
def VirtualAlloc (s : State) (size : Nat) (result : Option Nat) : Prop :=
  ∀ p ∈ result, ∀ r ∈ s.regions, Block.Apart r ⟨p, size⟩

instance (s : State) (size : Nat) (result : Option Nat) : Decidable (VirtualAlloc s size result) :=
  inferInstanceAs (Decidable (∀ p ∈ result, ∀ r ∈ s.regions, Block.Apart r ⟨p, size⟩))

/-- `VirtualFree` of the region that starts at `p`. -/
def virtualFree (p : Nat) (s : State) : State :=
  { s with regions := s.regions.eraseP (Block.startsAt p) }

/-! ### The controller -/

def allocate (size : Nat) (emplaced : Bool) (result : Option Nat) (s : State) :
    State × Option Nat :=
  if emplaced then
    let blocks := s.blocks ++ [⟨0, 0⟩]
    match result with
    | none => ({ s with blocks := blocks.dropLast }, none)
    | some p => ({ s with blocks := blocks.dropLast ++ [⟨p, size⟩]
                          regions := s.regions ++ [⟨p, size⟩] }, some p)
  else (s, none)

def deallocate (memoryPtr : Nat) (s : State) : State :=
  match s.blocks.find? (Block.contains memoryPtr) with
  | none => s
  | some block =>
    { virtualFree block.first s with blocks := s.blocks.eraseP (Block.contains memoryPtr) }

/-- The controller and its client, who deallocates what is live. -/
def machine : Machine State Action where
  init s := s = ⟨[], [], []⟩
  next s
    | .allocate size emplaced result =>
      if 0 < size ∧ VirtualAlloc s size result then
        match allocate size emplaced result s with
        | (s', none) => some s'
        | (s', some p) => some { s' with live := s'.live ++ [⟨p, size⟩] }
      else none
    | .deallocate memoryPtr =>
      if s.live.any (Block.startsAt memoryPtr) then
        some { deallocate memoryPtr s with live := s.live.eraseP (Block.startsAt memoryPtr) }
      else none

/-! ### What should hold -/

/-- `m_blocks` is exactly the set of live allocations, and so are the regions
that are not freed. -/
structure Exact (s : State) : Prop where
  nodup : s.blocks.Nodup
  blocks : ∀ b, b ∈ s.blocks ↔ b ∈ s.live
  regions : ∀ b, b ∈ s.regions ↔ b ∈ s.live

/-- No block that ends where the block asked for starts stands before it. -/
def Unambiguous (s : State) : Action → Prop
  | .allocate _ _ _ => True
  | .deallocate memoryPtr => s.live.any (Block.startsAt memoryPtr) →
      ∀ b ∈ s.blocks.takeWhile (fun b => !b.startsAt memoryPtr), b.end_ ≠ memoryPtr

/-- The blocks, the regions and the live allocations are the same list of regions
apart from each other. -/
structure Invariant (s : State) : Prop where
  blocks : s.blocks = s.live
  regions : s.regions = s.live
  apart : s.live.Pairwise Block.Apart
  positive : ∀ b ∈ s.live, 0 < b.second

/-! ### The search -/

variable {l : List Block} {a b : Block} {p : Nat}

theorem Block.ne_of_apart (h : Block.Apart a b) (ha : 0 < a.second) : a ≠ b := by
  rintro rfl
  unfold Block.Apart Block.end_ at h
  omega

theorem nodup_of_apart (hl : l.Pairwise Block.Apart) (hpos : ∀ b ∈ l, 0 < b.second) : l.Nodup :=
  hl.imp_of_mem fun ha _ h => Block.ne_of_apart h (hpos _ ha)

/-- A block with a pointer in it, that is not its start, ends where the block of
the pointer starts. -/
theorem Block.end_eq_of_contains (h : Block.Apart a b) (hb : 0 < b.second) (hstart : b.first = p)
    (hne : a.first ≠ p) (hc : a.first ≤ p ∧ p ≤ a.end_) : a.end_ = p := by
  unfold Block.Apart Block.end_ at *
  omega

theorem Block.contains_of_startsAt (h : a.startsAt p = true) : a.contains p = true := by
  rw [Block.startsAt_iff] at h
  rw [Block.contains_iff, Block.end_]
  omega

/-- **The search is right** if no block before the right one ends at the pointer. -/
theorem eraseP_contains (hl : l.Pairwise Block.Apart) (hpos : ∀ b ∈ l, 0 < b.second)
    (hlive : l.any (Block.startsAt p) = true)
    (hbefore : ∀ b ∈ l.takeWhile (fun b => !b.startsAt p), b.end_ ≠ p) :
    l.eraseP (Block.contains p) = l.eraseP (Block.startsAt p) ∧
      ∃ b, l.find? (Block.contains p) = some b ∧ b.first = p := by
  induction l with
  | nil => cases hlive
  | cons a l ih =>
    obtain ⟨ha, hl⟩ := List.pairwise_cons.mp hl
    cases hstart : a.startsAt p with
    | true =>
      have hc := Block.contains_of_startsAt hstart
      rw [List.eraseP_cons_of_pos hc, List.eraseP_cons_of_pos hstart, List.find?_cons_of_pos hc]
      exact ⟨rfl, a, rfl, by simpa [Block.startsAt] using hstart⟩
    | false =>
      have hlive' : l.any (Block.startsAt p) = true := by simpa [hstart] using hlive
      obtain ⟨b, hb, hbp⟩ := List.any_eq_true.mp hlive'
      have hbefore' : a.end_ ≠ p := hbefore a (by simp [hstart])
      have hnot : ¬ a.startsAt p = true := by simp [hstart]
      have hc : ¬ a.contains p = true := by
        rw [Block.startsAt_iff] at hbp hnot
        rw [Block.contains_iff]
        exact fun hc => hbefore' (Block.end_eq_of_contains (ha b hb) (hpos b (by simp [hb])) hbp
          hnot hc)
      obtain ⟨herase, hfind⟩ := ih hl (fun b hb => hpos b (by simp [hb])) hlive' fun b hb =>
        hbefore b (by simp [hstart, hb])
      rw [List.eraseP_cons_of_neg hc, List.eraseP_cons_of_neg hnot, herase,
        List.find?_cons_of_neg hc]
      exact ⟨rfl, hfind⟩

/-- **The search is wrong** if there is one: another block goes. -/
theorem exists_erased (hl : l.Nodup)
    (hbefore : ∃ b ∈ l.takeWhile (fun b => !b.startsAt p), b.end_ = p) :
    ∃ c ∈ l, c.startsAt p = false ∧ c ∉ l.eraseP (Block.contains p) := by
  induction l with
  | nil => obtain ⟨b, hb, -⟩ := hbefore; cases hb
  | cons a l ih =>
    obtain ⟨b, hb, hend⟩ := hbefore
    obtain ⟨ha, hl⟩ := List.nodup_cons.mp hl
    cases hstart : a.startsAt p with
    | true => simp [hstart] at hb
    | false =>
      cases hc : a.contains p with
      | true =>
        refine ⟨a, by simp, hstart, ?_⟩
        rwa [List.eraseP_cons_of_pos hc]
      | false =>
        simp only [List.takeWhile_cons, hstart, Bool.not_false, if_true, List.mem_cons] at hb
        have hne : b ≠ a := by
          rintro rfl
          have hc' : b.contains p = true := by
            rw [Block.contains_iff, ← hend]
            exact ⟨Nat.le_add_right _ _, Nat.le_refl _⟩
          exact absurd hc' (by simp [hc])
        obtain ⟨c, hcl, hcs, hce⟩ := ih hl ⟨b, hb.resolve_left hne, hend⟩
        refine ⟨c, by simp [hcl], hcs, ?_⟩
        rw [List.eraseP_cons_of_neg (by simp [hc]), List.mem_cons, not_or]
        exact ⟨fun he => ha (he ▸ hcl), hce⟩

/-! ### Runs -/

variable {s s' : State}

theorem Invariant.exact (hs : Invariant s) : Exact s := by
  refine ⟨?_, fun b => by rw [hs.blocks], fun b => by rw [hs.regions]⟩
  rw [hs.blocks]
  exact nodup_of_apart hs.apart hs.positive

/-- What an allocation leaves: nothing new, or one more block. -/
theorem allocate_cases {size : Nat} {emplaced : Bool} {result : Option Nat}
    (hn : machine.next s (.allocate size emplaced result) = some s') :
    s' = s ∨ ∃ p, 0 < size ∧ (∀ r ∈ s.regions, Block.Apart r ⟨p, size⟩) ∧
      s' = ⟨s.blocks ++ [⟨p, size⟩], s.regions ++ [⟨p, size⟩], s.live ++ [⟨p, size⟩]⟩ := by
  unfold machine allocate at hn
  dsimp only at hn
  split at hn
  · next hok =>
    obtain ⟨hsize, hvirtual⟩ := hok
    cases emplaced with
    | false => exact .inl (Option.some.inj hn).symm
    | true =>
      simp only [if_true, List.dropLast_concat] at hn
      cases result with
      | none => exact .inl (Option.some.inj hn).symm
      | some p => exact .inr ⟨p, hsize, hvirtual p rfl, (Option.some.inj hn).symm⟩
  · cases hn

/-- A deallocation erases the first block with the pointer in it. -/
theorem blocks_deallocate (p : Nat) :
    (deallocate p s).blocks = s.blocks.eraseP (Block.contains p) := by
  unfold deallocate
  split
  · next hfind => exact (List.eraseP_of_forall_not (List.find?_eq_none.mp hfind)).symm
  · rfl

theorem deallocate_eq (p : Nat) (hlive : s.live.any (Block.startsAt p) = true) :
    machine.next s (.deallocate p) =
      some { deallocate p s with live := s.live.eraseP (Block.startsAt p) } := if_pos hlive

theorem any_of_deallocate {p : Nat} (hn : machine.next s (.deallocate p) = some s') :
    s.live.any (Block.startsAt p) = true := by
  by_contra hlive
  cases hn.symm.trans (if_neg hlive)

theorem Invariant.next {a : Action} (hs : Invariant s) (ha : Unambiguous s a)
    (hn : machine.next s a = some s') : Invariant s' := by
  obtain ⟨hblocks, hregions, hapart, hpos⟩ := hs
  cases a with
  | allocate size emplaced result =>
    rcases allocate_cases hn with rfl | ⟨p, hsize, hnew, rfl⟩
    · exact ⟨hblocks, hregions, hapart, hpos⟩
    · refine ⟨by rw [hblocks], by rw [hregions], ?_, fun b hb => ?_⟩
      · refine List.pairwise_append.mpr ⟨hapart, List.pairwise_singleton _ _, fun a ha b hb => ?_⟩
        rw [List.mem_singleton.mp hb]
        exact hnew a (hregions ▸ ha)
      · rcases List.mem_append.mp hb with hb | hb
        · exact hpos b hb
        · rw [List.mem_singleton.mp hb]
          exact hsize
  | deallocate p =>
    have hlive := any_of_deallocate hn
    have hbefore := ha hlive
    rw [hblocks] at hbefore
    obtain ⟨herase, b, hfind, hb⟩ := eraseP_contains hapart hpos hlive hbefore
    rw [deallocate_eq p hlive] at hn
    obtain rfl := Option.some.inj hn
    have hsub : (s.live.eraseP (Block.startsAt p)).Sublist s.live := List.eraseP_sublist
    unfold deallocate
    rw [hblocks, hfind]
    refine ⟨herase, ?_, hapart.sublist hsub, fun b hb => hpos b (hsub.subset hb)⟩
    show s.regions.eraseP (Block.startsAt b.first) = _
    rw [hb, hregions]

/-- The deallocation that is not unambiguous loses a live block. -/
theorem not_exact_of_ambiguous {a : Action} (hs : Invariant s) (ha : ¬ Unambiguous s a) :
    ∃ s', machine.next s a = some s' ∧ ¬ Exact s' := by
  cases a with
  | allocate size emplaced result => exact absurd trivial ha
  | deallocate p =>
    obtain ⟨hlive, hbefore⟩ := Classical.not_imp.mp ha
    refine ⟨_, deallocate_eq p hlive, fun hexact => ?_⟩
    have hnodup := nodup_of_apart hs.apart hs.positive
    have hex : ∃ b ∈ s.live.takeWhile (fun b => !b.startsAt p), b.end_ = p := by
      rw [hs.blocks] at hbefore
      simpa using hbefore
    obtain ⟨c, hc, hstart, hgone⟩ := exists_erased hnodup hex
    have hkept : c ∈ s.live.eraseP (Block.startsAt p) :=
      (List.mem_eraseP_of_neg (by simp [hstart])).mpr hc
    have hblock : c ∈ (deallocate p s).blocks := (hexact.blocks c).mpr hkept
    rw [blocks_deallocate, hs.blocks] at hblock
    exact hgone hblock

/-- **When the controller frees the right blocks.**  Along a run `m_blocks` and
the regions are in every state exactly the live allocations, if and only if no
deallocation finds, before the block asked for, one that ends where that block
starts. -/
theorem exact_iff_unambiguous (actions : List Action) :
    machine.AllStates Exact ⟨[], [], []⟩ actions ↔
      machine.AllSteps Unambiguous ⟨[], [], []⟩ actions :=
  Machine.allStates_iff_allSteps (I := Invariant) (fun _ hs => hs.exact)
    (fun _ _ _ hs ha hn => hs.next ha hn) (fun _ _ hs ha => not_exact_of_ambiguous hs ha) actions
    ⟨[], [], []⟩ ⟨rfl, rfl, List.Pairwise.nil, nofun⟩

/-- Two adjacent blocks: to give the second one back frees the first one. -/
theorem frees_the_neighbour : machine.run ⟨[], [], []⟩ [.allocate 0x10000 true (some 0x10000),
      .allocate 0x10000 true (some 0x20000), .deallocate 0x20000] =
    some ⟨[⟨0x20000, 0x10000⟩], [⟨0x20000, 0x10000⟩], [⟨0x10000, 0x10000⟩]⟩ := by
  decide

end Garbage.ImmutableDataDebugAllocator
