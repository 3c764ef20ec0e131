import Garbage.Foundation.Handles
import Garbage.Foundation.Machine

/-!
# The handles of the small single block allocator

A handle has an `intrusive_ptr` to an implementation with the pool, or a null one.
A default construction takes raw memory, constructs an implementation there and
points to it; a scope guard deallocates the memory again if
`std::uncaught_exception()`, which also holds while an exception from outside
propagates.  Copies share the implementation.  `release` deallocates the memory
with the last handle, and does not run the destructor.

`objects` has the count of each implementation that was constructed and not
destructed.  `Exact`: an implementation is constructed, in allocated memory and
with the right count as long as handles point to it, and no longer
(`exact_iff_clean`).  The counts and the memory are right even where a last handle goes
(`counts_of_reachable`); what is missing there is the destructor alone.
-/

namespace Garbage.SmallSingleBlockAllocator

open Foundation (Machine Handles)

structure State where
  handles : Handles Nat Nat
  /-- the raw memory from the allocator -/
  allocated : Nat → Bool
  /-- the count of the implementation at an address -/
  objects : Nat → Option Nat

inductive Action
  /-- `memory`: what the allocator returned, `none` also where it threw;
  `constructs`: the pool was constructed; `propagating`: an exception propagates -/
  | default (h : Nat) (memory : Option Nat) (constructs propagating : Bool)
  | copy (h other : Nat)
  | assign (h other : Nat)
  | swap (l r : Nat)
  | destroy (h : Nat)

/-! ### The counted pointers -/

def deallocate (p : Nat) (s : State) : Option State :=
  if s.allocated p then some { s with allocated := Function.update s.allocated p false } else none

def addRef (p : Nat) (s : State) : Option State :=
  if s.allocated p then
    (s.objects p).map fun count =>
      { s with objects := Function.update s.objects p (some (count + 1)) }
  else none

def release (p : Nat) (s : State) : Option State :=
  if s.allocated p then
    match s.objects p with
    | some (count + 1) =>
      let s := { s with objects := Function.update s.objects p (some count) }
      if count = 0 then deallocate p s else some s
    | _ => none
  else none

/-- `intrusive_ptr_add_ref` unless the pointer is null. -/
def addRefOpt (o : Option Nat) (s : State) : Option State :=
  match o with
  | none => some s
  | some p => addRef p s

/-- `intrusive_ptr_release` unless the pointer is null. -/
def releaseOpt (o : Option Nat) (s : State) : Option State :=
  match o with
  | none => some s
  | some p => release p s

def retarget (h : Nat) (o : Option Nat) (s : State) : State :=
  { s with handles := s.handles.retarget h o }

/-! ### The handles -/

def preallocate (h : Nat) (memory : Option Nat) (constructs propagating : Bool) (s : State) :
    Option State :=
  match memory with
  | none => some s
  | some pimpl =>
    let s := { s with allocated := Function.update s.allocated pimpl true
                      objects := Function.update s.objects pimpl none }
    if constructs then do
      let s := { s with objects := Function.update s.objects pimpl (some 0) }
      let s ← addRef pimpl s
      let s := retarget h (some pimpl) s
      if propagating then deallocate pimpl s else some s
    -- the exception of the constructor is what the scope guard sees
    else deallocate pimpl s

/-- The assignment of an `intrusive_ptr`, by a temporary one. -/
def assign (h other : Nat) (s : State) : Option State := do
  let old := s.handles.target h
  let s ← addRefOpt (s.handles.target other) s
  releaseOpt old (retarget h (s.handles.target other) s)

def swap (l r : Nat) (s : State) : State :=
  retarget r (s.handles.target l) (retarget l (s.handles.target r) s)

def next (s : State) : Action → Option State
  | .default h memory constructs propagating =>
    if hh : h ∉ s.handles.names then
      if ∀ p ∈ memory, s.allocated p = false then
        preallocate h memory constructs propagating { s with handles := s.handles.add h none hh }
      else none
    else none
  | .copy h other =>
    if hh : h ∉ s.handles.names then
      if other ∈ s.handles.names then do
        let s' ← addRefOpt (s.handles.target other) s
        some { s' with handles := s.handles.add h (s.handles.target other) hh }
      else none
    else none
  | .assign h other =>
    if h ∈ s.handles.names ∧ other ∈ s.handles.names then assign h other s else none
  | .swap l r => if l ∈ s.handles.names ∧ r ∈ s.handles.names then some (swap l r s) else none
  | .destroy h =>
    if h ∈ s.handles.names then
      releaseOpt (s.handles.target h) { s with handles := s.handles.remove h }
    else none

def start : State := ⟨Handles.empty, fun _ => false, fun _ => none⟩

def machine : Machine State Action where
  init s := s = start
  next := next

/-! ### What should hold -/

/-- The memory and the counts are right for `f p` references to each `p`. -/
structure Counts (s : State) (f : Nat → Nat) : Prop where
  allocated : ∀ p, s.allocated p = true ↔ 0 < f p
  count : ∀ p, 0 < f p → s.objects p = some (f p)

/-- An implementation is constructed, counts its handles and is in allocated
memory exactly while handles point to it. -/
structure Exact (s : State) : Prop where
  counts : Counts s s.handles.refs
  destructed : ∀ p, s.handles.refs p = 0 → s.objects p = none

/-- The handle is the last one of its implementation. -/
def IsLast (s : State) (h p : Nat) : Prop := s.handles.target h = some p ∧ s.handles.refs p = 1

/-- The step makes an implementation while another exception propagates. -/
def MakesWhilePropagating (s : State) : Action → Prop
  | .default h memory constructs propagating => h ∉ s.handles.names ∧
      (∃ p ∈ memory, s.allocated p = false) ∧ constructs = true ∧ propagating = true
  | _ => False

/-- The last handle of an implementation goes, or goes to another one. -/
def DropsLast (s : State) : Action → Prop
  | .assign h other => (h ∈ s.handles.names ∧ other ∈ s.handles.names) ∧
      ∃ p, IsLast s h p ∧ s.handles.target other ≠ some p
  | .destroy h => h ∈ s.handles.names ∧ ∃ p, IsLast s h p
  | _ => False

/-! ### References -/

section References

open Foundation.Handles (point point_some)

variable {s : State} {f : Nat → Nat} {o : Option Nat} {q : Nat}

theorem Counts.congr {g : Nat → Nat} (h : Counts s f) (hfg : ∀ p, f p = g p) : Counts s g := by
  rwa [← funext hfg]

theorem Counts.handles (h : Counts s f) (H : Handles Nat Nat) : Counts { s with handles := H } f :=
  ⟨h.allocated, h.count⟩

theorem addRef_eq (h : Counts s f) (hq : 0 < f q) : addRef q s =
    some { s with objects := Function.update s.objects q (some (f q + 1)) } := by
  unfold addRef
  rw [if_pos ((h.allocated q).mpr hq), h.count q hq]
  rfl

theorem Counts.addRef (h : Counts s f) (hq : 0 < f q) :
    Counts { s with objects := Function.update s.objects q (some (f q + 1)) }
      (fun p => f p + point (some q) p) := by
  refine ⟨fun p => ?_, fun p hp => ?_⟩
  · have hp := h.allocated p
    have hq' := h.allocated q
    rw [point_some]
    dsimp only
    grind
  · have hp' := h.count p
    rw [point_some] at hp ⊢
    dsimp only
    rw [Function.update_apply]
    grind

/-- One more reference. -/
theorem Counts.addRefOpt (h : Counts s f) (ho : ∀ p, o = some p → 0 < f p) :
    ∃ s', addRefOpt o s = some s' ∧ s'.handles = s.handles ∧ Counts s' (fun p => f p + point o p) ∧
      ∀ p, f p = 0 → s'.objects p = s.objects p := by
  cases o with
  | none => exact ⟨s, rfl, rfl, h.congr fun p => by simp, fun _ _ => rfl⟩
  | some q =>
    refine ⟨_, addRef_eq h (ho q rfl), rfl, h.addRef (ho q rfl), fun p hp => ?_⟩
    have hpq : p ≠ q := by
      rintro rfl
      exact absurd (ho p rfl) (by omega)
    exact Function.update_of_ne hpq ..

theorem release_eq (h : Counts s f) (hq : 0 < f q) : release q s =
    some { s with allocated := fun p => if p = q ∧ f q = 1 then false else s.allocated p
                  objects := Function.update s.objects q (some (f q - 1)) } := by
  have halloc := (h.allocated q).mpr hq
  obtain ⟨n, hn⟩ : ∃ n, f q = n + 1 := ⟨f q - 1, by omega⟩
  unfold release
  rw [if_pos halloc, h.count q hq, hn]
  dsimp only
  by_cases hz : n = 0
  · subst hz
    unfold deallocate
    dsimp only
    rw [if_pos rfl, if_pos halloc]
    congr 2
    funext p
    simp [Function.update_apply]
  · rw [if_neg hz]
    congr 2
    funext p
    simp [hz]

theorem Counts.release (h : Counts s f) (hq : 0 < f q) :
    Counts { s with allocated := fun p => if p = q ∧ f q = 1 then false else s.allocated p
                    objects := Function.update s.objects q (some (f q - 1)) }
      (fun p => f p - point (some q) p) := by
  refine ⟨fun p => ?_, fun p hp => ?_⟩
  · have hp := h.allocated p
    rw [point_some]
    dsimp only
    grind
  · have hp' := h.count p
    rw [point_some] at hp ⊢
    dsimp only
    rw [Function.update_apply]
    grind

/-- One reference less.  The last one leaves an implementation that counts 0. -/
theorem Counts.releaseOpt (h : Counts s f) (ho : ∀ p, o = some p → 0 < f p) :
    ∃ s', releaseOpt o s = some s' ∧ s'.handles = s.handles ∧ Counts s' (fun p => f p - point o p) ∧
      ∀ p, f p - point o p = 0 → s'.objects p = if o = some p then some 0 else s.objects p := by
  cases o with
  | none => exact ⟨s, rfl, rfl, h.congr fun p => by simp, fun _ _ => (if_neg nofun).symm⟩
  | some q =>
    refine ⟨_, release_eq h (ho q rfl), rfl, h.release (ho q rfl), fun p hp => ?_⟩
    rw [point_some] at hp
    dsimp only
    rw [Function.update_apply]
    grind

end References

/-! ### The operations -/

variable {s s' : State} {h other : Nat}

open Foundation.Handles (point)

/-- What an operation leaves if the counts were right: right counts, and no
implementation that nobody points to unless the last handle was dropped. -/
def Leaves (s s' : State) (drops : Prop) : Prop :=
  Counts s' s'.handles.refs ∧ ((∀ p, s.handles.refs p = 0 → s.objects p = none) →
    ((∀ p, s'.handles.refs p = 0 → s'.objects p = none) ↔ ¬ drops))

theorem Leaves.exact_iff {drops : Prop} (h : Leaves s s' drops) (hs : Exact s) :
    Exact s' ↔ ¬ drops := by
  rw [← h.2 hs.destructed]
  exact ⟨fun hs' => hs'.destructed, fun hs' => ⟨h.1, hs'⟩⟩

/-- A handle to nothing. -/
theorem null_leaves (hs : Counts s s.handles.refs) (hh : h ∉ s.handles.names) :
    Leaves s { s with handles := s.handles.add h none hh } False := by
  have hrefs (p : Nat) : (s.handles.add h none hh).refs p = s.handles.refs p := by
    rw [Handles.refs_add hh, Handles.point_none, Nat.add_zero]
  refine ⟨(hs.handles _).congr fun p => (hrefs p).symm, fun hnone => ?_⟩
  exact iff_of_true (fun p hp => hnone p ((hrefs p).symm.trans hp)) not_false

theorem copy_leaves (hs : Counts s s.handles.refs) (hh : h ∉ s.handles.names)
    (ho : other ∈ s.handles.names) :
    ∃ s', next s (.copy h other) = some s' ∧ Leaves s s' False := by
  obtain ⟨s₁, heq, -, hc, hobj⟩ := hs.addRefOpt fun p hp => Handles.refs_pos ho hp
  have hrefs (p : Nat) := Handles.refs_add (o := s.handles.target other) (p := p) hh
  refine ⟨{ s₁ with handles := s.handles.add h (s.handles.target other) hh }, ?_, ?_, ?_⟩
  · dsimp only [next]
    rw [dif_pos hh, if_pos ho, heq]
    rfl
  · exact (hc.handles _).congr fun p => (hrefs p).symm
  · intro hnone
    refine iff_of_true (fun p hp => ?_) not_false
    have hp' : s.handles.refs p = 0 := by
      have hadd := (hrefs p).symm.trans hp
      omega
    exact (hobj p hp').trans (hnone p hp')

/-- A release after which a handle less points to `o`. -/
theorem release_leaves {s₀ : State} {f : Nat → Nat} {o : Option Nat} (hc : Counts s₀ f)
    (hf : ∀ p, f p = s₀.handles.refs p + point o p)
    (hbase : ∀ p, f p = 0 → s.handles.refs p = 0 ∧ s₀.objects p = s.objects p) :
    ∃ s', releaseOpt o s₀ = some s' ∧
      Leaves s s' (∃ p, o = some p ∧ s₀.handles.refs p = 0) := by
  have hpos (p : Nat) (hp : o = some p) : 0 < f p := by
    rw [hf p, Foundation.Handles.point, if_pos hp]
    exact Nat.succ_pos _
  have hrefs (p : Nat) : f p - point o p = s₀.handles.refs p := by
    rw [hf p, Nat.add_sub_cancel]
  obtain ⟨s', heq, hhandles, hc', hobj⟩ := hc.releaseOpt hpos
  refine ⟨s', heq, hc'.congr fun p => by rw [hhandles, hrefs], fun hnone => ?_⟩
  rw [hhandles]
  constructor
  · rintro hs' ⟨p, rfl, hp⟩
    have hp' := hobj p ((hrefs p).trans hp)
    rw [if_pos rfl, hs' p hp] at hp'
    exact nomatch hp'
  · intro hdrop p hp
    have hne : o ≠ some p := fun ho => hdrop ⟨p, ho, hp⟩
    have hfp : f p = 0 := by
      rw [hf p, hp, Foundation.Handles.point, if_neg hne]
    rw [hobj p ((hrefs p).trans hp), if_neg hne, (hbase p hfp).2]
    exact hnone p (hbase p hfp).1

theorem destroy_leaves (hs : Counts s s.handles.refs) (hh : h ∈ s.handles.names) :
    ∃ s', next s (.destroy h) = some s' ∧ Leaves s s' (∃ p, IsLast s h p) := by
  have hrefs (p : Nat) := Handles.refs_remove (p := p) hh
  obtain ⟨s', heq, hleaves⟩ := release_leaves (s := s) (hs.handles (s.handles.remove h))
    (fun p => (hrefs p).symm) fun p hp => ⟨hp, rfl⟩
  refine ⟨s', (if_pos hh).trans heq, ?_⟩
  have hdrops : (∃ p, s.handles.target h = some p ∧ (s.handles.remove h).refs p = 0) ↔
      ∃ p, IsLast s h p := by
    refine exists_congr fun p => and_congr_right fun hp => ?_
    have hremove := hrefs p
    rw [Foundation.Handles.point, if_pos hp] at hremove
    omega
  rwa [← hdrops]

theorem assign_leaves (hs : Counts s s.handles.refs) (hh : h ∈ s.handles.names)
    (ho : other ∈ s.handles.names) : ∃ s', next s (.assign h other) = some s' ∧
      Leaves s s' (∃ p, IsLast s h p ∧ s.handles.target other ≠ some p) := by
  have hrefs (p : Nat) := Handles.refs_retarget (o := s.handles.target other) (p := p) hh
  obtain ⟨s₁, hadd, hhandles, hc, hobj⟩ := hs.addRefOpt fun p hp => Handles.refs_pos ho hp
  obtain ⟨s', heq, hleaves⟩ := release_leaves (s := s) (o := s.handles.target h)
    (hc.handles (s.handles.retarget h (s.handles.target other))) (fun p => (hrefs p).symm)
    fun p hp => ⟨by omega, hobj p (by omega)⟩
  refine ⟨s', ?_, ?_⟩
  · dsimp only [next]
    rw [if_pos ⟨hh, ho⟩, assign, hadd, Option.bind_eq_bind, Option.bind_some, retarget, hhandles]
    exact heq
  · have hdrops : (∃ p, s.handles.target h = some p ∧
          (s.handles.retarget h (s.handles.target other)).refs p = 0) ↔
        ∃ p, IsLast s h p ∧ s.handles.target other ≠ some p := by
      refine exists_congr fun p => ?_
      rw [IsLast, and_assoc]
      refine and_congr_right fun hp => ?_
      have hpos := Handles.refs_pos hh hp
      have hretarget := hrefs p
      rw [Foundation.Handles.point, Foundation.Handles.point, if_pos hp] at hretarget
      by_cases hother : s.handles.target other = some p
      · rw [if_pos hother] at hretarget
        exact iff_of_false (by omega) fun hlast => hlast.2 hother
      · rw [if_neg hother] at hretarget
        rw [and_iff_left hother]
        omega
    rwa [← hdrops]

theorem swap_leaves {l r : Nat} (hs : Counts s s.handles.refs) (hl : l ∈ s.handles.names)
    (hr : r ∈ s.handles.names) :
    ∃ s', next s (.swap l r) = some s' ∧ Leaves s s' False := by
  refine ⟨_, if_pos ⟨hl, hr⟩, ?_⟩
  have hrefs (p : Nat) : (swap l r s).handles.refs p = s.handles.refs p := by
    have hleft := Handles.refs_retarget (o := s.handles.target r) (p := p) hl
    have hright := Handles.refs_retarget (H := s.handles.retarget l (s.handles.target r))
      (o := s.handles.target l) (p := p) hr
    have htarget : (s.handles.retarget l (s.handles.target r)).target r = s.handles.target r := by
      by_cases hrl : r = l
      · rw [hrl]
        exact Function.update_self ..
      · exact Function.update_of_ne hrl ..
    rw [htarget] at hright
    show ((s.handles.retarget l (s.handles.target r)).retarget r (s.handles.target l)).refs p = _
    omega
  refine ⟨(hs.handles _).congr fun p => (hrefs p).symm, fun hnone => ?_⟩
  exact iff_of_true (fun p hp => hnone p ((hrefs p).symm.trans hp)) not_false

/-! ### Default construction -/

section Default

variable {p : Nat}

theorem Counts.refs_fresh (hs : Counts s s.handles.refs) (hp : s.allocated p = false) :
    s.handles.refs p = 0 := by
  by_contra hne
  have halloc := (hs.allocated p).mpr (Nat.pos_of_ne_zero hne)
  exact Bool.false_ne_true (hp.symm.trans halloc)

/-- The pool could not be constructed: the handle stays null. -/
theorem failed_leaves (hs : Counts s s.handles.refs) (hh : h ∉ s.handles.names)
    (hp : s.allocated p = false) (propagating : Bool) :
    ∃ s', next s (.default h (some p) false propagating) = some s' ∧ Leaves s s' False := by
  have hfresh : ∀ q ∈ some p, s.allocated q = false := by
    intro q hq
    rwa [← Option.some.inj hq]
  have hrefs (q : Nat) : (s.handles.add h none hh).refs q = s.handles.refs q := by
    rw [Handles.refs_add hh, Foundation.Handles.point_none, Nat.add_zero]
  refine ⟨⟨s.handles.add h none hh, s.allocated, Function.update s.objects p none⟩, ?_,
    ⟨fun q => ?_, fun q hq => ?_⟩, fun hnone => iff_of_true (fun q hq => ?_) not_false⟩
  · dsimp only [next]
    rw [dif_pos hh, if_pos hfresh]
    dsimp only [preallocate, deallocate]
    rw [if_neg Bool.false_ne_true, if_pos (Function.update_self ..), Function.update_idem, ← hp,
      Function.update_eq_self]
  · rw [hrefs q]
    exact hs.allocated q
  · rw [hrefs q] at hq ⊢
    have hqp : q ≠ p := by
      rintro rfl
      exact absurd (hs.refs_fresh hp) (Nat.ne_of_gt hq)
    exact (Function.update_of_ne hqp ..).trans (hs.count q hq)
  · by_cases hqp : q = p
    · subst hqp
      exact Function.update_self ..
    · exact (Function.update_of_ne hqp ..).trans (hnone q ((hrefs q).symm.trans hq))

/-- The state with a new implementation at `p`. -/
def made (s : State) (h p : Nat) (hh : h ∉ s.handles.names) : State where
  handles := s.handles.add h (some p) hh
  allocated := Function.update s.allocated p true
  objects := Function.update s.objects p (some 1)

theorem next_default_made (hh : h ∉ s.handles.names) (hp : s.allocated p = false)
    (propagating : Bool) : next s (.default h (some p) true propagating) =
      if propagating then deallocate p (made s h p hh) else some (made s h p hh) := by
  have hfresh : ∀ q ∈ some p, s.allocated q = false := by
    intro q hq
    rwa [← Option.some.inj hq]
  have hadd : addRef p ⟨s.handles.add h none hh, Function.update s.allocated p true,
      Function.update (Function.update s.objects p none) p (some 0)⟩ =
        some ⟨s.handles.add h none hh, Function.update s.allocated p true,
          Function.update s.objects p (some 1)⟩ := by
    unfold addRef
    rw [if_pos (Function.update_self ..)]
    simp
  dsimp only [next]
  rw [dif_pos hh, if_pos hfresh]
  dsimp only [preallocate]
  rw [if_pos rfl, hadd]
  dsimp only [Option.bind_eq_bind, Option.bind_some, retarget, Handles.retarget, Handles.add]
  rw [Function.update_idem]
  rfl

theorem made_leaves (hs : Counts s s.handles.refs) (hh : h ∉ s.handles.names)
    (hp : s.allocated p = false) : Leaves s (made s h p hh) False := by
  have hself : (made s h p hh).handles.refs p = 1 := by
    rw [made, Handles.refs_add hh, hs.refs_fresh hp, Foundation.Handles.point, if_pos rfl]
  have hother (q : Nat) (hq : q ≠ p) : (made s h p hh).handles.refs q = s.handles.refs q := by
    rw [made, Handles.refs_add hh, Foundation.Handles.point_some, if_neg hq, Nat.add_zero]
  refine ⟨⟨fun q => ?_, fun q hpos => ?_⟩, fun hnone => iff_of_true (fun q hq => ?_) not_false⟩
  · by_cases hqp : q = p
    · subst hqp
      exact iff_of_true (Function.update_self ..) (hself ▸ Nat.one_pos)
    · rw [hother q hqp, ← hs.allocated q]
      exact iff_of_eq (congrArg (· = true) (Function.update_of_ne hqp ..))
  · by_cases hqp : q = p
    · subst hqp
      rw [hself]
      exact Function.update_self ..
    · rw [hother q hqp] at hpos ⊢
      exact (Function.update_of_ne hqp ..).trans (hs.count q hpos)
  · have hqp : q ≠ p := by
      rintro rfl
      exact Nat.one_ne_zero (hself.symm.trans hq)
    exact (Function.update_of_ne hqp ..).trans (hnone q (hother q hqp ▸ hq))

/-- The scope guard takes the memory away from the handle. -/
theorem freed_of_propagating (hh : h ∉ s.handles.names) (hp : s.allocated p = false) :
    ∃ s', next s (.default h (some p) true true) = some s' ∧ ¬ Counts s' s'.handles.refs := by
  refine ⟨{ made s h p hh with allocated := Function.update (made s h p hh).allocated p false },
    ?_, fun hcounts => ?_⟩
  · rw [next_default_made hh hp, if_pos rfl]
    exact if_pos (Function.update_self ..)
  · have hpos : 0 < (made s h p hh).handles.refs p :=
      Handles.refs_pos (List.mem_cons_self ..) (Function.update_self ..)
    have hfreed := (hcounts.allocated p).mpr hpos
    exact Bool.false_ne_true ((Function.update_self ..).symm.trans hfreed)

end Default

/-! ### All runs -/

/-- What the caller has to ask for: a new handle, or live ones; the allocator
returns memory that is not allocated. -/
def Possible (s : State) : Action → Prop
  | .default h memory _ _ => h ∉ s.handles.names ∧ ∀ p ∈ memory, s.allocated p = false
  | .copy h other => h ∉ s.handles.names ∧ other ∈ s.handles.names
  | .assign h other => h ∈ s.handles.names ∧ other ∈ s.handles.names
  | .swap l r => l ∈ s.handles.names ∧ r ∈ s.handles.names
  | .destroy h => h ∈ s.handles.names

/-- What a step from right counts leaves. -/
theorem Counts.next {a : Action} (hs : Counts s s.handles.refs) (ha : Possible s a)
    (hm : ¬ MakesWhilePropagating s a) :
    ∃ s', next s a = some s' ∧ Leaves s s' (DropsLast s a) := by
  cases a with
  | default h memory constructs propagating =>
    obtain ⟨hh, hfresh⟩ := ha
    cases memory with
    | none =>
      refine ⟨{ s with handles := s.handles.add h none hh }, ?_, null_leaves hs hh⟩
      dsimp only [SmallSingleBlockAllocator.next]
      rw [dif_pos hh, if_pos hfresh]
      rfl
    | some p =>
      have hp := hfresh p rfl
      cases constructs with
      | false => exact failed_leaves hs hh hp propagating
      | true =>
        cases propagating with
        | false => exact ⟨made s h p hh, next_default_made hh hp false, made_leaves hs hh hp⟩
        | true => exact absurd ⟨hh, ⟨p, rfl, hp⟩, rfl, rfl⟩ hm
  | copy h other => exact copy_leaves hs ha.1 ha.2
  | assign h other =>
    obtain ⟨s', hn, hleaves⟩ := assign_leaves hs ha.1 ha.2
    refine ⟨s', hn, ?_⟩
    rwa [DropsLast, and_iff_right (a := h ∈ s.handles.names ∧ other ∈ s.handles.names) ha]
  | swap l r => exact swap_leaves hs ha.1 ha.2
  | destroy h =>
    obtain ⟨s', hn, hleaves⟩ := destroy_leaves hs ha
    refine ⟨s', hn, ?_⟩
    rwa [DropsLast, and_iff_right (a := h ∈ s.handles.names) ha]

theorem possible_of_next {a : Action} {s' : State} (hn : next s a = some s') : Possible s a := by
  cases a with
  | default h memory constructs propagating =>
    dsimp only [next] at hn
    split at hn
    · next hh =>
      split at hn
      · next hfresh => exact ⟨hh, hfresh⟩
      · exact nomatch hn
    · exact nomatch hn
  | copy h other =>
    dsimp only [next] at hn
    split at hn
    · next hh =>
      split at hn
      · next ho => exact ⟨hh, ho⟩
      · exact nomatch hn
    · exact nomatch hn
  | assign h other => exact (Option.ite_none_right_eq_some.mp hn).1
  | swap l r => exact (Option.ite_none_right_eq_some.mp hn).1
  | destroy h => exact (Option.ite_none_right_eq_some.mp hn).1

/-- The counts, and the memory, are right in every run that makes no
implementation while another exception propagates. -/
theorem counts_of_reachable (hs : machine.ReachableBy (fun s a => ¬ MakesWhilePropagating s a) s) :
    Counts s s.handles.refs := by
  refine hs.invariant (I := fun s => Counts s s.handles.refs) ?_ ?_
  · intro s hs
    obtain rfl : s = start := hs
    exact ⟨fun p => iff_of_false Bool.false_ne_true (Nat.lt_irrefl 0),
      fun p hp => absurd hp (Nat.lt_irrefl 0)⟩
  · intro s a s' hs hm hn
    obtain ⟨s'', hn', hleaves⟩ := hs.next (possible_of_next hn) hm
    obtain rfl := Option.some.inj (hn.symm.trans hn')
    exact hleaves.1

/-- The step neither makes an implementation while another exception propagates
nor lets the last handle of one go. -/
def Clean (s : State) (a : Action) : Prop := ¬ MakesWhilePropagating s a ∧ ¬ DropsLast s a

theorem Exact.next {a : Action} (hs : Exact s) (ha : Possible s a) :
    ∃ s', next s a = some s' ∧ (Exact s' ↔ Clean s a) := by
  by_cases hm : MakesWhilePropagating s a
  · cases a with
    | default h memory constructs propagating =>
      obtain ⟨hh, ⟨p, rfl, hp⟩, rfl, rfl⟩ := hm
      obtain ⟨s', hn, hs'⟩ := freed_of_propagating hh hp
      exact ⟨s', hn, iff_of_false (fun h => hs' h.counts)
        fun hc => hc.1 ⟨hh, ⟨p, rfl, hp⟩, rfl, rfl⟩⟩
    | copy | assign | swap | destroy => exact hm.elim
  · obtain ⟨s', hn, hleaves⟩ := hs.counts.next ha hm
    exact ⟨s', hn, (hleaves.exact_iff hs).trans (and_iff_right hm).symm⟩

theorem possible_of_not_clean {a : Action} (ha : ¬ Clean s a) : Possible s a := by
  cases a with
  | default h memory constructs propagating =>
    have hm : MakesWhilePropagating s (.default h memory constructs propagating) := by
      by_contra hm
      exact ha ⟨hm, id⟩
    obtain ⟨hh, ⟨p, rfl, hp⟩, -, -⟩ := hm
    refine ⟨hh, fun q hq => ?_⟩
    rwa [← Option.some.inj hq]
  | copy h other => exact absurd ⟨id, id⟩ ha
  | assign h other =>
    by_contra hpossible
    exact ha ⟨id, fun hd => hpossible hd.1⟩
  | swap l r => exact absurd ⟨id, id⟩ ha
  | destroy h =>
    by_contra hpossible
    exact ha ⟨id, fun hd => hpossible hd.1⟩

theorem start_exact : Exact start :=
  ⟨⟨fun _ => iff_of_false Bool.false_ne_true (Nat.lt_irrefl 0),
    fun _ hp => absurd hp (Nat.lt_irrefl 0)⟩, fun _ _ => rfl⟩

theorem Exact.next_clean {a : Action} {s' : State} (hs : Exact s) (ha : Clean s a)
    (hn : machine.next s a = some s') : Exact s' := by
  obtain ⟨s'', hn', hiff⟩ := hs.next (possible_of_next hn)
  obtain rfl := Option.some.inj (hn.symm.trans hn')
  exact hiff.mpr ha

/-- **When the handles own their pools.**  Along a run every implementation is
constructed, in allocated memory and with the right count exactly while handles
point to it, if and only if all steps are clean.  No step of such a run fails. -/
theorem exact_iff_clean (actions : List Action) :
    (machine.AllStates Exact start actions ↔ machine.AllSteps Clean start actions) ∧
      (machine.AllSteps Clean start actions → machine.AllSteps
        (fun s a => Possible s a → (next s a).isSome) start actions) := by
  constructor
  · refine Machine.allStates_iff_allSteps (I := Exact) (fun _ hs => hs)
      (fun _ _ _ hs ha hn => hs.next_clean ha hn) (fun s a hs ha => ?_) actions start start_exact
    obtain ⟨s', hn, hiff⟩ := hs.next (possible_of_not_clean ha)
    exact ⟨s', hn, fun hs' => ha (hiff.mp hs')⟩
  · refine Machine.AllSteps.of_invariant (I := Exact)
      (fun _ _ _ hs ha hn => hs.next_clean ha hn) (fun s a hs _ hpossible => ?_) start_exact
    obtain ⟨s', hn, -⟩ := hs.next hpossible
    exact Option.isSome_of_eq_some hn

/-- One handle, made and destroyed: the memory of its pool is deallocated, and
nobody ran the destructor. -/
theorem destructor_never_runs : ∃ s, machine.run start [.default 0 (some 8) true false,
      .destroy 0] = some s ∧
    s.handles.refs 8 = 0 ∧ s.allocated 8 = false ∧ s.objects 8 = some 0 ∧ ¬ Exact s := by
  refine ⟨_, rfl, rfl, rfl, rfl, fun hexact => ?_⟩
  exact nomatch hexact.destructed 8 rfl

end Garbage.SmallSingleBlockAllocator
