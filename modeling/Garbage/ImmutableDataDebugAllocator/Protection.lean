import Garbage.ImmutableDataDebugAllocator.Controller

/-!
# Who may write

`Protect` makes the pages of all blocks read-only, and `UnProtect`, which the destructor
of an `ImmutableDataDebugAllocatorUnProtector` calls, makes them writable again.  Both go
through `m_blocks` and ask the operating system for one block after the other, so a block
that is allocated in between keeps its own protection: it is writable.

`Process` is a controller with the table of the pages.  What the client expects of its
blocks is a list of them with a mark, `Expected`; the table is the one of this list
(`Guarded`), as long as the controller frees the right blocks.
-/

namespace Garbage.ImmutableDataDebugAllocator

open Foundation (Machine)

inductive Protection
  | pageReadWrite
  | pageReadOnly
  deriving DecidableEq

/-- The protection of a block that `Protect` has reached, or has not. -/
def Protection.ofMark : Bool → Protection
  | true => pageReadOnly
  | false => pageReadWrite

/-- The protections by the number of the page; `none` where a page is not committed. -/
abbrev PageTable : Type := Nat → Option Protection

/-! ### Pages -/

namespace Block

variable (P : Nat)

def firstPage (b : Block) : Nat := b.first / P

/-- The page after the last one. -/
def endPage (b : Block) : Nat := (b.end_ + P - 1) / P

/-- A byte of the block is on the page `k`. -/
def onPage (k : Nat) (b : Block) : Bool := b.firstPage P ≤ k ∧ k < b.endPage P

/-- Two regions without a common page. -/
def PageApart (a b : Block) : Prop := a.endPage P ≤ b.firstPage P ∨ b.endPage P ≤ a.firstPage P

instance (a b : Block) : Decidable (PageApart P a b) :=
  inferInstanceAs (Decidable (_ ∨ _))

variable {P} {a b : Block} {k : Nat}

@[simp] theorem onPage_iff : b.onPage P k = true ↔ b.firstPage P ≤ k ∧ k < b.endPage P :=
  decide_eq_true_iff

theorem onPage_of_byte (hP : 0 < P) {x : Nat} (hfirst : b.first ≤ x) (hend : x < b.end_) :
    b.onPage P (x / P) = true := by
  refine onPage_iff.mpr ⟨Nat.div_le_div_right hfirst, ?_⟩
  have hnext : (x + P) / P = x / P + 1 := Nat.add_div_right x hP
  have hle : (x + P) / P ≤ (b.end_ + P - 1) / P := Nat.div_le_div_right (by omega)
  rw [endPage]
  omega

theorem PageApart.apart (hP : 0 < P) (h : PageApart P a b) : Apart a b := by
  have hbefore {a b : Block} (h : a.endPage P ≤ b.firstPage P) : a.end_ ≤ b.first := by
    have hend : a.end_ ≤ a.endPage P * P := by
      have := Nat.lt_div_mul_add hP (a := a.end_ + P - 1)
      rw [endPage]
      omega
    exact Nat.le_trans hend (Nat.le_trans (Nat.mul_le_mul_right P h) (Nat.div_mul_le_self _ P))
  exact h.imp hbefore hbefore

theorem PageApart.symm (h : PageApart P a b) : PageApart P b a := h.elim .inr .inl

theorem PageApart.onPage (h : PageApart P a b) (ha : a.onPage P k = true) :
    b.onPage P k = false := by
  rw [onPage_iff] at ha
  rw [Bool.eq_false_iff, ne_eq, onPage_iff]
  rcases h with h | h <;> omega

end Block

/-- The pages of a block get a protection, or are given back. -/
def PageTable.set (P : Nat) (b : Block) (x : Option Protection) (pages : PageTable) : PageTable :=
  fun k => if b.onPage P k then x else pages k

/-! ### The controller and the pages -/

/-- A controller, the table of the pages, and whether each `ALLOCATOR_ASSERT` held. -/
structure Process where
  controller : State
  pages : PageTable
  asserted : Bool

/-- `VirtualProtect`: it fails unless the pages are those of one region. -/
def virtualProtect (P : Nat) (regions : List Block) (b : Block) (protection : Protection)
    (pages : PageTable) : PageTable × Bool :=
  if regions.any fun r => r.firstPage P ≤ b.firstPage P ∧ b.endPage P ≤ r.endPage P then
    (pages.set P b (some protection), true)
  else (pages, false)

/-- The loop of `Protect` and of `UnProtect`. -/
def virtualProtectEach (P : Nat) (regions : List Block) (protection : Protection) :
    List Block → PageTable × Bool → PageTable × Bool
  | [], r => r
  | block :: blocks, (pages, asserted) =>
    let (pages, result) := virtualProtect P regions block protection pages
    virtualProtectEach P regions protection blocks (pages, asserted && result)

namespace Process

variable (P : Nat)

def setProtection (protection : Protection) (s : Process) : Process :=
  let r := virtualProtectEach P s.controller.regions protection s.controller.blocks
    (s.pages, s.asserted)
  { s with pages := r.1, asserted := r.2 }

def protect (s : Process) : Process := s.setProtection P .pageReadOnly

/-- `UnProtect`; the destructor of an `ImmutableDataDebugAllocatorUnProtector`. -/
def unProtect (s : Process) : Process := s.setProtection P .pageReadWrite

/-- `VirtualAlloc` commits the pages of the new region for reading and writing. -/
def allocate (size : Nat) (emplaced : Bool) (result : Option Nat) (s : Process) :
    Process × Option Nat :=
  match ImmutableDataDebugAllocator.allocate size emplaced result s.controller with
  | (controller, none) => ({ s with controller := controller }, none)
  | (controller, some p) =>
    ({ s with
        controller := controller
        pages := s.pages.set P ⟨p, size⟩ (some .pageReadWrite) }, some p)

/-- `VirtualFree` gives back the pages of the region that starts where the block does. -/
def deallocate (memoryPtr size : Nat) (s : Process) : Process :=
  match s.controller.blocks.find? (Block.contains memoryPtr) with
  | none => { s with asserted := false }
  | some block =>
    let controller := ImmutableDataDebugAllocator.deallocate memoryPtr s.controller
    match s.controller.regions.find? (Block.startsAt block.first) with
    | none => { s with controller := controller, asserted := false }
    | some region =>
      { controller := controller
        pages := s.pages.set P region none
        asserted := s.asserted && size ≤ block.second }

def mayRead (x : Nat) (s : Process) : Bool := (s.pages (x / P)).isSome

def mayWrite (x : Nat) (s : Process) : Bool := s.pages (x / P) = some .pageReadWrite

end Process

/-! ### What the client expects -/

/-- What the client has allocated, with a mark at what is protected. -/
abbrev Expected : Type := List (Block × Bool)

namespace Expected

def blocks (e : Expected) : List Block := e.map Prod.fst

/-- `Protect` marks all blocks, `UnProtect` none. -/
def mark (protected_ : Bool) (e : Expected) : Expected := e.map fun be => (be.1, protected_)

/-- The table of the pages that it stands for. -/
def table (P : Nat) (e : Expected) : PageTable := fun k =>
  (e.find? fun be => be.1.onPage P k).map fun be => Protection.ofMark be.2

end Expected

inductive Call
  | allocate (size : Nat) (emplaced : Bool) (result : Option Nat)
  | deallocate (memoryPtr size : Nat)
  | protect
  | unProtect

/-- A controller and its client, who deallocates what is live with the size it had asked for.
The operating system hands out pages that no other region has. -/
def processMachine (P : Nat) : Machine (Process × Expected) Call where
  init s := s = (⟨⟨[], [], []⟩, fun _ => none, true⟩, [])
  next s
    | .allocate size emplaced result =>
      if 0 < size ∧ ∀ p ∈ result, ∀ r ∈ s.1.controller.regions, Block.PageApart P r ⟨p, size⟩ then
        match s.1.allocate P size emplaced result with
        | (s', none) => some (s', s.2)
        | (s', some p) =>
          some ({ s' with
            controller := { s'.controller with live := s'.controller.live ++ [⟨p, size⟩] } },
            s.2 ++ [(⟨p, size⟩, false)])
      else none
    | .deallocate memoryPtr size =>
      if ⟨memoryPtr, size⟩ ∈ s.1.controller.live then
        let s' := s.1.deallocate P memoryPtr size
        some ({ s' with
          controller := { s'.controller with
            live := s.1.controller.live.eraseP (Block.startsAt memoryPtr) } },
          s.2.eraseP fun be => be.1.startsAt memoryPtr)
      else none
    | .protect => some (s.1.protect P, s.2.mark true)
    | .unProtect => some (s.1.unProtect P, s.2.mark false)

def Call.Unambiguous (s : Process × Expected) : Call → Prop
  | .deallocate memoryPtr _ =>
    ImmutableDataDebugAllocator.Unambiguous s.1.controller (.deallocate memoryPtr)
  | .allocate _ _ _ | .protect | .unProtect => True

/-! ### The table of a list -/

section Tables

variable {P : Nat} {e : Expected} {b : Block} {p : Nat}

theorem Expected.table_cons (be : Block × Bool) (k : Nat) : Expected.table P (be :: e) k =
    if be.1.onPage P k then some (Protection.ofMark be.2) else e.table P k := by
  rw [table, List.find?_cons]
  cases be.1.onPage P k <;> rfl

theorem Expected.table_concat (hnew : ∀ r ∈ e.blocks, Block.PageApart P r b) (m : Bool) :
    Expected.table P (e ++ [(b, m)]) = (e.table P).set P b (some (Protection.ofMark m)) := by
  funext k
  rw [PageTable.set, table, List.find?_append]
  split
  · next hk =>
    have hnone : e.find? (fun be => be.1.onPage P k) = none := by
      refine List.find?_eq_none.mpr fun be hbe hon => ?_
      have happart := hnew be.1 (List.mem_map_of_mem hbe)
      simp [happart.onPage hon] at hk
    simp [hnone, hk]
  · next hk => simp [hk, table]

theorem Expected.table_eraseP (hapart : e.blocks.Pairwise (Block.PageApart P))
    (hfind : e.blocks.find? (Block.startsAt p) = some b) :
    Expected.table P (e.eraseP fun be => be.1.startsAt p) = (e.table P).set P b none := by
  induction e with
  | nil => cases hfind
  | cons be e ih =>
    obtain ⟨hbe, hapart⟩ := List.pairwise_cons.mp hapart
    funext k
    cases hstart : be.1.startsAt p with
    | true =>
      obtain rfl : be.1 = b := by simpa [blocks, hstart] using hfind
      rw [List.eraseP_cons_of_pos (by exact hstart), PageTable.set]
      split
      · next hk =>
        refine Option.map_eq_none_iff.mpr (List.find?_eq_none.mpr fun ce hce hon => ?_)
        have hce := hbe ce.1 (List.mem_map_of_mem hce)
        simp [hce.onPage hk] at hon
      · next hk => rw [table_cons, if_neg hk]
    | false =>
      have hfind : (blocks e).find? (Block.startsAt p) = some b := by
        simpa [blocks, hstart] using hfind
      rw [List.eraseP_cons_of_neg (by simp [hstart]), PageTable.set]
      have hih := congrFun (ih hapart hfind) k
      rw [table_cons, table_cons, hih, PageTable.set]
      by_cases hk : be.1.onPage P k
      · simp [hk, (hbe b (List.mem_of_find?_eq_some hfind)).onPage hk]
      · simp [hk]

theorem Expected.table_of_mem (hapart : e.blocks.Pairwise (Block.PageApart P)) {be : Block × Bool}
    (hbe : be ∈ e) {k : Nat} (hk : be.1.onPage P k = true) :
    e.table P k = some (Protection.ofMark be.2) := by
  induction e with
  | nil => cases hbe
  | cons ce e ih =>
    obtain ⟨hce, hapart⟩ := List.pairwise_cons.mp hapart
    rw [table_cons]
    rcases List.mem_cons.mp hbe with rfl | hbe
    · rw [if_pos hk]
    · have hoff := (hce be.1 (List.mem_map_of_mem hbe)).symm.onPage hk
      rw [if_neg (by simp [hoff])]
      exact ih hapart hbe

theorem Expected.exists_of_table {k : Nat} (h : (e.table P k).isSome = true) :
    ∃ be ∈ e, be.1.onPage P k = true := by
  rw [table, Option.isSome_map, List.find?_isSome] at h
  exact h

/-- The loop reaches the pages of all blocks. -/
theorem virtualProtectEach_eq {regions : List Block} (protection : Protection) (asserted : Bool)
    {blocks : List Block} (hblocks : ∀ b ∈ blocks, b ∈ regions) (pages : PageTable) :
    virtualProtectEach P regions protection blocks (pages, asserted) =
      (fun k => if blocks.any (Block.onPage P k) then some protection else pages k, asserted) := by
  induction blocks generalizing pages with
  | nil => rfl
  | cons b blocks ih =>
    have hregion : (regions.any fun r =>
        r.firstPage P ≤ b.firstPage P ∧ b.endPage P ≤ r.endPage P) = true :=
      List.any_eq_true.mpr ⟨b, hblocks b List.mem_cons_self, by simp⟩
    have hset : virtualProtect P regions b protection pages =
        (pages.set P b (some protection), true) := if_pos hregion
    simp only [virtualProtectEach, hset, Bool.and_true]
    rw [ih fun c hc => hblocks c (List.mem_cons_of_mem b hc)]
    refine Prod.ext (funext fun k => ?_) rfl
    simp only [PageTable.set, List.any_cons, Bool.or_eq_true]
    by_cases hk : b.onPage P k <;> simp [hk]

theorem Expected.table_mark (m : Bool) :
    (fun k => if e.blocks.any (Block.onPage P k) then some (Protection.ofMark m)
      else e.table P k) = (e.mark m).table P := by
  funext k
  have hfind : (e.mark m).table P k =
      (e.find? fun be => be.1.onPage P k).map fun _ => Protection.ofMark m := by
    rw [table, mark, List.find?_map, Option.map_map]
    rfl
  rw [hfind]
  split
  · next hany =>
    obtain ⟨b, hb, hk⟩ := List.any_eq_true.mp hany
    obtain ⟨be, hbe, rfl⟩ := List.mem_map.mp hb
    obtain ⟨ce, hce⟩ := Option.isSome_iff_exists.mp
      (List.find?_isSome.mpr ⟨be, hbe, hk⟩ : (e.find? fun be => be.1.onPage P k).isSome)
    simp [hce]
  · next hany =>
    have hnone : e.find? (fun be => be.1.onPage P k) = none := by
      refine List.find?_eq_none.mpr fun be hbe hk => hany ?_
      exact List.any_eq_true.mpr ⟨be.1, List.mem_map_of_mem hbe, hk⟩
    simp [hnone, table]

end Tables

/-! ### Runs -/

/-- The controller is right about its blocks, and the table about what the client expects. -/
structure Guarded (P : Nat) (s : Process × Expected) : Prop where
  invariant : Invariant s.1.controller
  live : s.1.controller.live = s.2.blocks
  apart : s.2.blocks.Pairwise (Block.PageApart P)
  pages : s.1.pages = s.2.table P
  asserted : s.1.asserted = true

section Runs

variable {P : Nat} {s s' : Process × Expected}

theorem Guarded.setProtection (hs : Guarded P s) (m : Bool) :
    Guarded P (s.1.setProtection P (.ofMark m), s.2.mark m) := by
  obtain ⟨hinvariant, hlive, hapart, hpages, hasserted⟩ := hs
  have hblocks : (s.2.mark m).blocks = s.2.blocks := by simp [Expected.blocks, Expected.mark]
  have hregions : ∀ b ∈ s.1.controller.blocks, b ∈ s.1.controller.regions := fun b hb => by
    rwa [hinvariant.regions, ← hinvariant.blocks]
  have heach := @virtualProtectEach_eq P _ (.ofMark m) s.1.asserted _ hregions s.1.pages
  refine ⟨hinvariant, hlive.trans hblocks.symm, hblocks ▸ hapart, ?_, ?_⟩
  · simp only [Process.setProtection, heach]
    rw [hinvariant.blocks, hlive, hpages]
    exact Expected.table_mark m
  · simp only [Process.setProtection, heach]
    exact hasserted

/-- What an allocation leaves: nothing new, or one more block. -/
theorem processMachine_allocate {size : Nat} {emplaced : Bool} {result : Option Nat}
    (hn : (processMachine P).next s (.allocate size emplaced result) = some s') :
    s' = s ∨ ∃ p, 0 < size ∧
      (∀ r ∈ s.1.controller.regions, Block.PageApart P r ⟨p, size⟩) ∧
      s' = (⟨⟨s.1.controller.blocks ++ [⟨p, size⟩], s.1.controller.regions ++ [⟨p, size⟩],
          s.1.controller.live ++ [⟨p, size⟩]⟩,
        s.1.pages.set P ⟨p, size⟩ (some .pageReadWrite), s.1.asserted⟩,
        s.2 ++ [(⟨p, size⟩, false)]) := by
  dsimp only [processMachine] at hn
  split at hn
  · next hok =>
    obtain ⟨hsize, hfresh⟩ := hok
    unfold Process.allocate ImmutableDataDebugAllocator.allocate at hn
    cases emplaced with
    | false => exact .inl (Option.some.inj hn).symm
    | true =>
      simp only [if_true, List.dropLast_concat] at hn
      cases result with
      | none => exact .inl (Option.some.inj hn).symm
      | some p => exact .inr ⟨p, hsize, hfresh p rfl, (Option.some.inj hn).symm⟩
  · cases hn

theorem Guarded.allocate (hP : 0 < P) (hs : Guarded P s) {size : Nat} {emplaced : Bool}
    {result : Option Nat}
    (hn : (processMachine P).next s (.allocate size emplaced result) = some s') :
    Guarded P s' := by
  obtain rfl | ⟨p, hsize, hfresh, rfl⟩ := processMachine_allocate hn
  · exact hs
  · obtain ⟨hinvariant, hlive, hapart, hpages, hasserted⟩ := hs
    have hnew : ∀ r ∈ s.2.blocks, Block.PageApart P r ⟨p, size⟩ := fun r hr =>
      hfresh r (by rwa [hinvariant.regions, hlive])
    have hnext : machine.next s.1.controller (.allocate size true (some p)) =
        some ⟨s.1.controller.blocks ++ [⟨p, size⟩], s.1.controller.regions ++ [⟨p, size⟩],
          s.1.controller.live ++ [⟨p, size⟩]⟩ := by
      have hvirtual : VirtualAlloc s.1.controller size (some p) := by
        intro q hq r hr
        obtain rfl := Option.some.inj hq
        exact (hfresh r hr).apart hP
      simp [machine, hsize, hvirtual, ImmutableDataDebugAllocator.allocate]
    have hblocks : Expected.blocks (s.2 ++ [(⟨p, size⟩, false)]) = s.2.blocks ++ [⟨p, size⟩] :=
      List.map_append
    refine ⟨hinvariant.next (a := .allocate size true (some p)) trivial hnext, ?_, ?_, ?_,
      hasserted⟩
    · rw [hblocks, ← hlive]
    · rw [hblocks]
      refine List.pairwise_append.mpr ⟨hapart, List.pairwise_singleton _ _, fun r hr c hc => ?_⟩
      rw [List.mem_singleton.mp hc]
      exact hnew r hr
    · show s.1.pages.set P ⟨p, size⟩ (some .pageReadWrite) = _
      rw [hpages]
      exact (Expected.table_concat hnew false).symm

/-- The blocks start at different places. -/
theorem Invariant.eq_of_first {c : State} (h : Invariant c) {a b : Block} (ha : a ∈ c.live)
    (hb : b ∈ c.live) (hfirst : a.first = b.first) : a = b := by
  have hapart {a b : Block} (ha : a ∈ c.live) (hb : b ∈ c.live) (hab : Block.Apart a b)
      (hfirst : a.first = b.first) : a = b := by
    have hpos := h.positive a ha
    have hpos' := h.positive b hb
    unfold Block.Apart Block.end_ at hab
    omega
  refine List.Pairwise.forall_of_forall_of_flip (R := fun a b => a.first = b.first → a = b)
    (fun _ _ _ => rfl) ?_ ?_ ha hb hfirst
  · exact h.apart.imp_of_mem fun ha hb hab => hapart ha hb hab
  · exact h.apart.imp_of_mem fun ha hb hab hfirst => (hapart ha hb hab hfirst.symm).symm

theorem Guarded.deallocate (hs : Guarded P s) {memoryPtr size : Nat}
    (hc : Unambiguous s.1.controller (.deallocate memoryPtr))
    (hmem : ⟨memoryPtr, size⟩ ∈ s.1.controller.live) :
    Guarded P ({ s.1.deallocate P memoryPtr size with
      controller := { (s.1.deallocate P memoryPtr size).controller with
        live := s.1.controller.live.eraseP (Block.startsAt memoryPtr) } },
      s.2.eraseP fun be => be.1.startsAt memoryPtr) := by
  obtain ⟨hinvariant, hlive, hapart, hpages, hasserted⟩ := hs
  have hany : s.1.controller.live.any (Block.startsAt memoryPtr) = true :=
    List.any_eq_true.mpr ⟨_, hmem, by simp⟩
  have hnext := hinvariant.next hc (deallocate_eq memoryPtr hany)
  have hbefore := hc hany
  rw [hinvariant.blocks] at hbefore
  -- the search finds the block asked for, and so does the operating system
  obtain ⟨-, b, hfind, hb⟩ := eraseP_contains hinvariant.apart hinvariant.positive hany hbefore
  have hlives : b ∈ s.1.controller.live := List.mem_of_find?_eq_some hfind
  obtain rfl : b = ⟨memoryPtr, size⟩ := hinvariant.eq_of_first hlives hmem hb
  have hregion : s.2.blocks.find? (Block.startsAt memoryPtr) = some ⟨memoryPtr, size⟩ := by
    rw [← hlive]
    obtain ⟨r, hr⟩ := Option.isSome_iff_exists.mp (List.find?_isSome.mpr ⟨_, hmem, by simp⟩ :
      (s.1.controller.live.find? (Block.startsAt memoryPtr)).isSome)
    have hfirst : r.first = memoryPtr := by simpa using List.find?_some hr
    rwa [hinvariant.eq_of_first (List.mem_of_find?_eq_some hr) hmem hfirst] at hr
  have hregions : s.1.controller.regions.find? (Block.startsAt memoryPtr) =
      some ⟨memoryPtr, size⟩ := by rw [hinvariant.regions, hlive, hregion]
  have hdeallocate : s.1.deallocate P memoryPtr size =
      ⟨ImmutableDataDebugAllocator.deallocate memoryPtr s.1.controller,
        s.1.pages.set P ⟨memoryPtr, size⟩ none, true⟩ := by
    simp [Process.deallocate, hinvariant.blocks, hfind, hregions, hasserted]
  have hblocks : Expected.blocks (s.2.eraseP fun be => be.1.startsAt memoryPtr) =
      s.2.blocks.eraseP (Block.startsAt memoryPtr) := by
    rw [Expected.blocks, Expected.blocks, List.eraseP_map]
    rfl
  rw [hdeallocate]
  refine ⟨hnext, ?_, ?_, ?_, rfl⟩
  · rw [hblocks, hlive]
  · rw [hblocks]
    exact hapart.sublist List.eraseP_sublist
  · rw [hpages]
    exact (Expected.table_eraseP hapart hregion).symm

theorem Guarded.next (hP : 0 < P) (hs : Guarded P s) {c : Call} (hc : c.Unambiguous s)
    (hn : (processMachine P).next s c = some s') : Guarded P s' := by
  cases c with
  | allocate size emplaced result => exact hs.allocate hP hn
  | deallocate memoryPtr size =>
    dsimp only [processMachine] at hn
    split at hn
    · next hmem =>
      obtain rfl := Option.some.inj hn
      exact hs.deallocate hc hmem
    · cases hn
  | protect => exact Option.some.inj hn ▸ hs.setProtection true
  | unProtect => exact Option.some.inj hn ▸ hs.setProtection false

theorem guarded_of_reachable (hP : 0 < P)
    (h : (processMachine P).ReachableBy (fun s c => c.Unambiguous s) s) : Guarded P s := by
  refine h.invariant (I := Guarded P) ?_ fun _ _ _ hs hc hn => hs.next hP hc hn
  rintro _ rfl
  exact ⟨⟨rfl, rfl, List.Pairwise.nil, nofun⟩, rfl, List.Pairwise.nil, rfl, rfl⟩

/-- **Who may write.**  In every run of unambiguous calls no assertion fails, and `m_blocks` is
what the client has allocated.  The client can read each of its blocks, and write to it unless
`Protect` has reached it since its allocation and the last `UnProtect`.  A page of none of its
blocks cannot be read. -/
theorem guards_blocks (hP : 0 < P)
    (h : (processMachine P).ReachableBy (fun s c => c.Unambiguous s) s) :
    s.1.asserted = true ∧ s.1.controller.blocks = s.2.blocks ∧
    (∀ be ∈ s.2, ∀ x, be.1.first ≤ x → x < be.1.end_ →
      s.1.mayRead P x = true ∧ (s.1.mayWrite P x = true ↔ be.2 = false)) ∧
    ∀ x, s.1.mayRead P x = true → ∃ be ∈ s.2, be.1.onPage P (x / P) = true := by
  obtain ⟨hinvariant, hlive, hapart, hpages, hasserted⟩ := guarded_of_reachable hP h
  refine ⟨hasserted, hinvariant.blocks.trans hlive, fun be hbe x hfirst hend => ?_, fun x hx => ?_⟩
  · have htable := Expected.table_of_mem hapart hbe (Block.onPage_of_byte hP hfirst hend)
    rw [Process.mayRead, Process.mayWrite, hpages, htable]
    cases be.2 <;> simp [Protection.ofMark]
  · rw [Process.mayRead, hpages] at hx
    exact Expected.exists_of_table hx

end Runs

/-- The second block comes after `Protect`, and the first one is given back. -/
theorem guards_blocks_two : ∃ s, (processMachine 0x1000).run
      (⟨⟨[], [], []⟩, fun _ => none, true⟩, [])
      [.allocate 0x1800 true (some 0x10000), .protect, .allocate 0x20 true (some 0x20000),
        .deallocate 0x10000 0x1800] = some s ∧
    s.2 = [(⟨0x20000, 0x20⟩, false)] ∧ s.1.asserted = true ∧
    s.1.mayRead 0x1000 0x11000 = false ∧ s.1.mayWrite 0x1000 0x2001F = true := by
  have hinit : (processMachine 0x1000).ReachableBy (fun s c => c.Unambiguous s)
      (⟨⟨[], [], []⟩, fun _ => none, true⟩, []) := .init rfl
  have hsteps : (processMachine 0x1000).AllSteps (fun s c => c.Unambiguous s)
      (⟨⟨[], [], []⟩, fun _ => none, true⟩, [])
      [.allocate 0x1800 true (some 0x10000), .protect, .allocate 0x20 true (some 0x20000),
        .deallocate 0x10000 0x1800] :=
    .cons rfl trivial (.cons rfl trivial (.cons rfl trivial
      (.cons rfl (fun _ _ hb => (List.not_mem_nil hb).elim) trivial)))
  obtain ⟨hasserted, -, hbytes, -⟩ := guards_blocks (by decide) (hinit.run hsteps rfl)
  have hwrite := (hbytes (⟨0x20000, 0x20⟩, false) (List.mem_singleton_self _) 0x2001F
    (by decide) (by decide)).2.mpr rfl
  exact ⟨_, rfl, rfl, hasserted, rfl, hwrite⟩

end Garbage.ImmutableDataDebugAllocator
