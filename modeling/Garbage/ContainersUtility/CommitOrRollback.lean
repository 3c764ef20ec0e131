import Garbage.InplaceFixedDeque.UninitializedCopy
import Mathlib.Data.List.Nodup

/-!
# Commit or rollback

The uninitialized copies of `containers_utility.hpp` for forward and bidirectional
iterators, bounded and unbounded destinations, and the variant that also gives up
on overflow.  The memory records at which positions objects are constructed and
destroyed, in order.

`destination_begin` and the amount are advanced before the source, so when the source's
increment throws, the object of this round is in the range of the rollback.  When the
increment of the destination throws, it is not: that object stays.

**A copy commits or rolls back** (`copy_restores_iff`) exactly if no increment of the
destination throws that it comes to: it constructs what fits of the source, in order, or
it destroys what it has constructed, each object once; the last one first where the
iterators are bidirectional.  `copy_commits_or_rolls_back` says what a copy does in each
case, and `mirrors_copyLoop` that the copy of the inplace deque, which keeps no records,
is this one.
-/

namespace Garbage.ContainersUtility

open Foundation (Prog)
open Foundation.Prog
open InplaceFixedDeque (Round UninitializedCopyResult)

variable {T ε β : Type}

/-- Memory, and where objects were constructed and destroyed. -/
@[ext] structure Raw (T : Type) where
  objects : Nat → Option T
  constructed : List Nat
  destroyed : List Nat

inductive IteratorCategory
  | forward
  | bidirectional
  deriving DecidableEq

/-! ### The functions -/

/-- `new (static_cast<void*>(&*destination_begin)) value_type(*source_begin)` -/
def construct (position : Nat) (value : Except ε T) : Prog (Raw T) ε PUnit := do
  assert fun raw => raw.objects position = none
  match value with
  | .error e => raise e
  | .ok v => Prog.modify fun raw =>
    { raw with
      objects := Function.update raw.objects position (some v)
      constructed := raw.constructed ++ [position] }

def destroyValue (position : Nat) : Prog (Raw T) ε PUnit := do
  assert fun raw => raw.objects position ≠ none
  Prog.modify fun raw =>
    { raw with
      objects := Function.update raw.objects position none
      destroyed := raw.destroyed ++ [position] }

/-- `destroy` of the positions that its iterators go through. -/
def destroy : List Nat → Prog (Raw T) ε PUnit
  | [] => pure PUnit.unit
  | position :: positions => do
    destroyValue position
    destroy positions

/-- The positions of `[begin_, end_)` as `rollback` goes through them: a bidirectional
iterator is reversed. -/
def rollbackOrder (category : IteratorCategory) (begin_ end_ : Nat) : List Nat :=
  match category with
  | .forward => List.range' begin_ (end_ - begin_)
  | .bidirectional => (List.range' begin_ (end_ - begin_)).reverse

def rollback (category : IteratorCategory) (begin_ end_ : Nat) : Prog (Raw T) ε PUnit :=
  destroy (rollbackOrder category begin_ end_)

/-- `catch(...)` -/
def rollbackAndRethrow (category : IteratorCategory) (begin_ end_ : Nat) (e : ε) :
    Prog (Raw T) ε β := do
  rollback category begin_ end_
  raise e

section Copies

variable (category : IteratorCategory)

/-- The result, with the `ASSERT` on its amount. -/
def copyResult (saved amount destination : Nat) (consumed : Bool) :
    Prog (Raw T) ε UninitializedCopyResult := do
  assert fun _ => amount = destination - saved
  pure { unitializedIterator := destination, sucessfullInsertedItemsAmount := amount,
         transactionFullySuccessful := consumed }

def copyLoop (alternativeStopPredicate : Nat → Bool) (saved : Nat) :
    List (Round T ε) → Nat → Nat → Prog (Raw T) ε UninitializedCopyResult
  | [], amount, destination => copyResult saved amount destination true
  | round :: source, amount, destination =>
    if alternativeStopPredicate destination then do
      handle (construct destination round.construct)
        (rollbackAndRethrow category saved destination)
      match round.advanceDestination with
      | some e => rollbackAndRethrow category saved destination e
      | none =>
        match round.advanceSource with
        | some e => rollbackAndRethrow category saved (destination + 1) e
        | none => copyLoop alternativeStopPredicate saved source (amount + 1) (destination + 1)
    else copyResult saved amount destination false

/-- `uninitialized_copy_and_rollback_if_exception`; without an end of the destination
nothing stops it but the source. -/
def uninitializedCopyAndRollbackIfException (source : List (Round T ε)) (destinationBegin : Nat)
    (destinationEnd : Option Nat) : Prog (Raw T) ε UninitializedCopyResult :=
  match destinationEnd with
  | some destinationEnd =>
    copyLoop category (fun destination => destination ≠ destinationEnd) destinationBegin source 0
      destinationBegin
  | none => copyLoop category (fun _ => true) destinationBegin source 0 destinationBegin

def uninitializedCopyAndRollbackIfExceptionOrOverflow (source : List (Round T ε))
    (destinationBegin destinationEnd : Nat) : Prog (Raw T) ε UninitializedCopyResult := do
  let result ← uninitializedCopyAndRollbackIfException category source destinationBegin
    (some destinationEnd)
  if result.transactionFullySuccessful then pure result
  else
    rollback category destinationBegin destinationEnd
    pure { unitializedIterator := destinationBegin, sucessfullInsertedItemsAmount := 0,
           transactionFullySuccessful := false }

end Copies

/-! ### The memory on the way -/

/-- The objects `vs` constructed from `begin_` on. -/
def Raw.filled (raw : Raw T) (begin_ : Nat) (vs : List T) : Raw T where
  objects p := if begin_ ≤ p ∧ p < begin_ + vs.length then vs[p - begin_]? else raw.objects p
  constructed := raw.constructed ++ List.range' begin_ vs.length
  destroyed := raw.destroyed

/-- The objects from `begin_` on constructed and destroyed again. -/
def Raw.rolledBack (raw : Raw T) (category : IteratorCategory) (begin_ amount : Nat) : Raw T where
  objects := raw.objects
  constructed := raw.constructed ++ List.range' begin_ amount
  destroyed := raw.destroyed ++ rollbackOrder category begin_ (begin_ + amount)

/-- The positions from `begin_` on are raw memory. -/
def Raw.Free (raw : Raw T) (begin_ amount : Nat) : Prop :=
  ∀ p, begin_ ≤ p → p < begin_ + amount → raw.objects p = none

theorem Raw.Free.mono {raw : Raw T} {begin_ amount amount' : Nat} (h : raw.Free begin_ amount)
    (hle : amount' ≤ amount) : raw.Free begin_ amount' :=
  fun p h1 h2 => h p h1 (by omega)

@[simp] theorem Raw.filled_nil (raw : Raw T) (begin_ : Nat) : raw.filled begin_ [] = raw := by
  ext p : 2
  · show (if begin_ ≤ p ∧ p < begin_ + 0 then _ else _) = _
    rw [if_neg (by omega)]
  · simp [filled]
  · rfl

@[simp] theorem mem_rollbackOrder {category : IteratorCategory} {begin_ amount p : Nat} :
    p ∈ rollbackOrder category begin_ (begin_ + amount) ↔ begin_ ≤ p ∧ p < begin_ + amount := by
  cases category <;> simp [rollbackOrder, List.mem_range'_1]

theorem nodup_rollbackOrder (category : IteratorCategory) (begin_ end_ : Nat) :
    (rollbackOrder category begin_ end_).Nodup := by
  cases category
  · exact List.nodup_range'
  · exact List.nodup_reverse.mpr List.nodup_range'

section Steps

variable {Q : PUnit → Raw T → Prop} {E : ε → Raw T → Prop} {raw : Raw T} {begin_ : Nat}
  {vs : List T} {category : IteratorCategory}

theorem wp_construct_filled {value : Except ε T} (hfree : raw.Free begin_ (vs.length + 1))
    (hok : ∀ v, value = .ok v → Q PUnit.unit (raw.filled begin_ (vs ++ [v])))
    (hthrow : ∀ e, value = .error e → E e (raw.filled begin_ vs)) :
    wp (construct (begin_ + vs.length) value) Q E (raw.filled begin_ vs) := by
  simp only [construct, wp_bind, wp_assert]
  constructor
  · simp only [Raw.filled]
    rw [if_neg (by omega)]
    exact hfree _ (by omega) (by omega)
  cases value with
  | error e => exact hthrow e rfl
  | ok v =>
    rw [wp_modify]
    convert hok v rfl using 1
    ext p : 2
    · simp only [Raw.filled, List.length_append, List.length_singleton]
      by_cases hp : p = begin_ + vs.length
      · rw [hp, Function.update_self, if_pos (by omega), Nat.add_sub_cancel_left,
          List.getElem?_concat_length]
      · rw [Function.update_of_ne hp]
        by_cases hin : begin_ ≤ p ∧ p < begin_ + vs.length
        · rw [if_pos hin, if_pos (by omega), List.getElem?_append_left (by omega)]
        · rw [if_neg hin, if_neg (by omega)]
    · simp [Raw.filled, List.range'_concat]
    · rfl

theorem wp_destroy {positions : List Nat} (hnodup : positions.Nodup)
    (hlive : ∀ p ∈ positions, raw.objects p ≠ none)
    (hQ : Q PUnit.unit
      { raw with
        objects := fun p => if p ∈ positions then none else raw.objects p
        destroyed := raw.destroyed ++ positions }) :
    wp (destroy positions) Q E raw := by
  induction positions generalizing raw with
  | nil =>
    rw [destroy, wp_pure]
    simpa using hQ
  | cons position positions ih =>
    obtain ⟨hposition, hnodup⟩ := List.nodup_cons.mp hnodup
    simp only [destroy, destroyValue, wp_bind, wp_assert, wp_modify]
    refine ⟨hlive _ List.mem_cons_self, ih hnodup ?_ ?_⟩
    · intro p hp
      have hne : p ≠ position := fun he => hposition (he ▸ hp)
      simpa [hne] using hlive p (List.mem_cons_of_mem _ hp)
    · convert hQ using 1
      ext p : 2
      · by_cases hp : p = position
        · simp [hp]
        · simp [hp]
      · rfl
      · simp

theorem wp_rollback_filled {amount : Nat} (hle : amount ≤ vs.length)
    (hQ : Q PUnit.unit
      { objects := fun p => if begin_ ≤ p ∧ p < begin_ + amount then none
          else (raw.filled begin_ vs).objects p
        constructed := (raw.filled begin_ vs).constructed
        destroyed := raw.destroyed ++ rollbackOrder category begin_ (begin_ + amount) }) :
    wp (rollback category begin_ (begin_ + amount)) Q E (raw.filled begin_ vs) := by
  refine wp_destroy (nodup_rollbackOrder ..) ?_ ?_
  · intro p hp
    rw [mem_rollbackOrder] at hp
    simp only [Raw.filled]
    rw [if_pos (by omega), List.getElem?_eq_getElem (by omega)]
    simp
  · simp only [mem_rollbackOrder]
    exact hQ

theorem wp_rollback (hfree : raw.Free begin_ vs.length)
    (hQ : Q PUnit.unit (raw.rolledBack category begin_ vs.length)) :
    wp (rollback category begin_ (begin_ + vs.length)) Q E (raw.filled begin_ vs) := by
  refine wp_rollback_filled (Nat.le_refl _) ?_
  convert hQ using 1
  ext p : 2
  · by_cases hp : begin_ ≤ p ∧ p < begin_ + vs.length
    · simp only [Raw.rolledBack]
      rw [if_pos hp, hfree p hp.1 hp.2]
    · simp only [Raw.filled, Raw.rolledBack]
      rw [if_neg hp, if_neg hp]
  · rfl
  · rfl

/-- The rollback does not reach the last object. -/
theorem wp_rollback_leaves {v : T} (hfree : raw.Free begin_ vs.length)
    (hQ : Q PUnit.unit
      { objects := Function.update raw.objects (begin_ + vs.length) (some v)
        constructed := raw.constructed ++ List.range' begin_ (vs.length + 1)
        destroyed := raw.destroyed ++ rollbackOrder category begin_ (begin_ + vs.length) }) :
    wp (rollback category begin_ (begin_ + vs.length)) Q E (raw.filled begin_ (vs ++ [v])) := by
  refine wp_rollback_filled (by simp) ?_
  convert hQ using 1
  ext p : 2
  · simp only [Raw.filled, List.length_append, List.length_singleton]
    by_cases hp : p = begin_ + vs.length
    · rw [hp, if_neg (by omega), if_pos (by omega), Nat.add_sub_cancel_left,
        List.getElem?_concat_length, Function.update_self]
    · rw [Function.update_of_ne hp]
      by_cases hin : begin_ ≤ p ∧ p < begin_ + vs.length
      · rw [if_pos hin, hfree p hin.1 hin.2]
      · rw [if_neg hin, if_neg (by omega)]
  · simp [Raw.filled]
  · rfl

end Steps

/-! ### The copies -/

/-- The round constructs its object and goes on. -/
structure Completes (round : Round T ε) (v : T) : Prop where
  construct : round.construct = .ok v
  advanceDestination : round.advanceDestination = none
  advanceSource : round.advanceSource = none

/-- A round behind `amount` others throws `e`: what it leaves. -/
inductive Fails (category : IteratorCategory) (begin_ : Nat) (raw : Raw T) (amount : Nat)
    (round : Round T ε) (e : ε) : Raw T → Prop
  /-- the dereference of the source or the constructor -/
  | construct : round.construct = .error e →
      Fails category begin_ raw amount round e (raw.rolledBack category begin_ amount)
  | advanceSource {v : T} : round.construct = .ok v → round.advanceDestination = none →
      round.advanceSource = some e →
      Fails category begin_ raw amount round e (raw.rolledBack category begin_ (amount + 1))
  /-- the object of the round is behind the range of the rollback -/
  | advanceDestination {v : T} : round.construct = .ok v → round.advanceDestination = some e →
      Fails category begin_ raw amount round e
        { objects := Function.update raw.objects (begin_ + amount) (some v)
          constructed := raw.constructed ++ List.range' begin_ (amount + 1)
          destroyed := raw.destroyed ++ rollbackOrder category begin_ (begin_ + amount) }

/-- The first items of the source are constructed, as many as fit. -/
def Commits (capacity : Nat) (source : List (Round T ε)) (begin_ : Nat) (raw : Raw T)
    (r : UninitializedCopyResult) (raw' : Raw T) : Prop :=
  ∃ vs, List.Forall₂ Completes (source.take capacity) vs ∧ raw' = raw.filled begin_ vs ∧
    r = ⟨begin_ + vs.length, vs.length, decide (source.length ≤ capacity)⟩

/-- A round within the destination throws, and none before it. -/
def RollsBack (category : IteratorCategory) (capacity : Nat) (source : List (Round T ε))
    (begin_ : Nat) (raw : Raw T) (e : ε) (raw' : Raw T) : Prop :=
  ∃ before round rest vs, source = before ++ round :: rest ∧ before.length < capacity ∧
    List.Forall₂ Completes before vs ∧ Fails category begin_ raw before.length round e raw'

section Loop

variable {category : IteratorCategory} {raw : Raw T} {begin_ : Nat}

theorem wp_rollbackAndRethrow {vs : List T} {e : ε} {Q : β → Raw T → Prop} {E : ε → Raw T → Prop}
    (hfree : raw.Free begin_ vs.length) (hE : E e (raw.rolledBack category begin_ vs.length)) :
    wp (rollbackAndRethrow category begin_ (begin_ + vs.length) e) Q E (raw.filled begin_ vs) := by
  rw [rollbackAndRethrow, wp_bind]
  exact wp_rollback hfree hE

/-- One round behind the objects `vs`: it goes on, or it throws. -/
theorem wp_round {round : Round T ε} {vs : List T} {next : Prog (Raw T) ε β}
    {Q : β → Raw T → Prop} {E : ε → Raw T → Prop} (hfree : raw.Free begin_ (vs.length + 1))
    (hnext : ∀ v, Completes round v → wp next Q E (raw.filled begin_ (vs ++ [v])))
    (hE : ∀ e raw', Fails category begin_ raw vs.length round e raw' → E e raw') :
    wp (do
      handle (construct (begin_ + vs.length) round.construct)
        (rollbackAndRethrow category begin_ (begin_ + vs.length))
      match round.advanceDestination with
      | some e => rollbackAndRethrow category begin_ (begin_ + vs.length) e
      | none =>
        match round.advanceSource with
        | some e => rollbackAndRethrow category begin_ (begin_ + vs.length + 1) e
        | none => next) Q E (raw.filled begin_ vs) := by
  have hfree' : raw.Free begin_ vs.length := hfree.mono (Nat.le_succ _)
  rw [wp_bind, wp_handle]
  refine wp_construct_filled hfree (fun v hv => ?_) fun e he => ?_
  · cases hdestination : round.advanceDestination with
    | some e =>
      dsimp only
      rw [rollbackAndRethrow, wp_bind]
      refine wp_rollback_leaves hfree' ?_
      exact hE e _ (.advanceDestination hv hdestination)
    | none =>
      cases hsource : round.advanceSource with
      | some e =>
        have hlength : (vs ++ [v]).length = vs.length + 1 := by simp
        dsimp only
        rw [Nat.add_assoc, ← hlength]
        refine wp_rollbackAndRethrow (hlength ▸ hfree) ?_
        rw [hlength]
        exact hE e _ (.advanceSource hv hdestination hsource)
      | none => exact hnext v ⟨hv, hdestination, hsource⟩
  · exact wp_rollbackAndRethrow hfree' (hE e _ (.construct he))

variable (category) in
/-- **The loop** behind the objects `vs`. -/
theorem wp_copyLoop {capacity : Nat} (source : List (Round T ε)) (vs : List T)
    (hfree : raw.Free begin_ capacity) (hle : vs.length ≤ capacity) :
    wp (copyLoop category (fun p => p ≠ begin_ + capacity) begin_ source vs.length
        (begin_ + vs.length))
      (fun r raw' => ∃ ws, List.Forall₂ Completes (source.take (capacity - vs.length)) ws ∧
        raw' = raw.filled begin_ (vs ++ ws) ∧
        r = ⟨begin_ + (vs ++ ws).length, (vs ++ ws).length,
          decide (source.length ≤ capacity - vs.length)⟩)
      (fun e raw' => ∃ before round rest ws, source = before ++ round :: rest ∧
        vs.length + before.length < capacity ∧ List.Forall₂ Completes before ws ∧
        Fails category begin_ raw (vs.length + before.length) round e raw')
      (raw.filled begin_ vs) := by
  induction source generalizing vs with
  | nil =>
    simp only [copyLoop, copyResult, wp_bind, wp_assert, wp_pure]
    exact ⟨by omega, [], by simp, by simp, by simp⟩
  | cons round source ih =>
    rw [copyLoop, wp_ite]
    constructor
    · intro hroom
      have hlt : vs.length < capacity := by
        have : begin_ + vs.length ≠ begin_ + capacity := by simpa using hroom
        omega
      refine wp_round (hfree.mono hlt) (fun v hv => ?_) fun e raw' hfails => ?_
      · have hlength : (vs ++ [v]).length = vs.length + 1 := by simp
        have hnext := ih (vs ++ [v]) (by omega)
        have hstep : capacity - vs.length = capacity - (vs.length + 1) + 1 := by omega
        rw [hlength, ← Nat.add_assoc] at hnext
        refine wp_mono (fun r raw' h => ?_) (fun e raw' h => ?_) hnext
        · obtain ⟨ws, hws, hraw, hr⟩ := h
          refine ⟨v :: ws, ?_, by simpa using hraw, ?_⟩
          · rw [hstep, List.take_succ_cons]
            exact .cons hv hws
          · rw [hr, hstep]
            simp
        · obtain ⟨before, round', rest, ws, hsplit, hbefore, hws, hfails⟩ := h
          refine ⟨round :: before, round', rest, v :: ws, by rw [hsplit]; rfl, ?_, .cons hv hws, ?_⟩
          · simp only [List.length_cons]
            omega
          · rwa [List.length_cons, Nat.add_comm before.length 1, ← Nat.add_assoc]
      · exact ⟨[], round, source, [], rfl, hlt, .nil, hfails⟩
    · intro hfull
      have hroom : capacity - vs.length = 0 := by
        have : begin_ + vs.length = begin_ + capacity := by simpa using hfull
        omega
      simp only [copyResult, wp_bind, wp_assert, wp_pure, hroom]
      exact ⟨by omega, [], by simp, by simp, by simp⟩

variable (category) in
theorem wp_copy_bounded {capacity : Nat} (source : List (Round T ε))
    (hfree : raw.Free begin_ capacity) :
    wp (uninitializedCopyAndRollbackIfException category source begin_ (some (begin_ + capacity)))
      (Commits capacity source begin_ raw) (RollsBack category capacity source begin_ raw) raw := by
  have h := wp_copyLoop category source [] hfree (Nat.zero_le _)
  rw [Raw.filled_nil] at h
  refine wp_mono (fun r raw' h => h) (fun e raw' h => ?_) h
  simpa [RollsBack] using h

/-- Without an end the source alone stops the copy. -/
theorem copyLoop_unbounded (saved : Nat) (source : List (Round T ε)) (amount destination : Nat) :
    copyLoop category (fun _ => true) saved source amount destination =
      copyLoop category (fun p => p ≠ destination + source.length) saved source amount
        destination := by
  induction source generalizing amount destination with
  | nil => rfl
  | cons round source ih =>
    have hend : destination + (round :: source).length = destination + 1 + source.length := by
      simp only [List.length_cons]
      omega
    have hne : destination ≠ destination + 1 + source.length := by omega
    simp only [copyLoop, hend, hne, ih, ne_eq, not_false_eq_true, decide_true, if_true]

theorem wp_copy_unbounded (source : List (Round T ε)) (hfree : raw.Free begin_ source.length) :
    wp (uninitializedCopyAndRollbackIfException category source begin_ none)
      (Commits source.length source begin_ raw)
      (RollsBack category source.length source begin_ raw) raw := by
  have h := wp_copy_bounded category source hfree
  unfold uninitializedCopyAndRollbackIfException at h ⊢
  rwa [copyLoop_unbounded]

/-- The copy that also gives up on overflow: everything is constructed, or nothing is
left. -/
theorem wp_copy_orOverflow {capacity : Nat} (source : List (Round T ε))
    (hfree : raw.Free begin_ capacity) :
    wp (uninitializedCopyAndRollbackIfExceptionOrOverflow category source begin_
        (begin_ + capacity))
      (fun r raw' =>
        if source.length ≤ capacity then Commits capacity source begin_ raw r raw'
        else (∃ vs, List.Forall₂ Completes (source.take capacity) vs) ∧ r = ⟨begin_, 0, false⟩ ∧
          raw' = raw.rolledBack category begin_ capacity)
      (RollsBack category capacity source begin_ raw) raw := by
  rw [uninitializedCopyAndRollbackIfExceptionOrOverflow, wp_bind]
  refine (wp_copy_bounded category source hfree).imp fun r raw' h => ?_
  obtain ⟨vs, hvs, rfl, rfl⟩ := h
  rw [wp_ite]
  constructor
  · intro hfits
    have hfits : source.length ≤ capacity := by simpa using hfits
    rw [wp_pure, if_pos hfits]
    exact ⟨vs, hvs, rfl, rfl⟩
  · intro hoverflow
    have hoverflow : ¬ source.length ≤ capacity := by simpa using hoverflow
    -- the copy has reached the end of the destination
    have hlength : vs.length = capacity := by
      rw [← hvs.length_eq, List.length_take]
      omega
    rw [wp_bind, ← hlength]
    refine wp_rollback (hfree.mono (Nat.le_of_eq hlength)) ?_
    rw [wp_pure, if_neg (by omega)]
    exact ⟨⟨vs, hlength ▸ hvs⟩, rfl, rfl⟩

/-- Where the destination's increment does not throw, every object that was constructed
has been destroyed, once, in the order of the rollback. -/
theorem RollsBack.restored {capacity : Nat} {source : List (Round T ε)} {e : ε} {raw' : Raw T}
    (h : RollsBack category capacity source begin_ raw e raw')
    (hadvance : ∀ round ∈ source, round.advanceDestination ≠ some e) :
    ∃ amount, amount ≤ capacity ∧ raw' = raw.rolledBack category begin_ amount := by
  obtain ⟨before, round, rest, vs, rfl, hbefore, -, hfails⟩ := h
  cases hfails with
  | construct _ => exact ⟨_, Nat.le_of_lt hbefore, rfl⟩
  | advanceSource _ _ _ => exact ⟨_, hbefore, rfl⟩
  | advanceDestination _ he => exact absurd he (hadvance round (by simp))

/-- A copy that throws: which round does, what is left, and that nothing is left unless
the increment of the destination throws. -/
def Rethrows (category : IteratorCategory) (capacity : Nat) (source : List (Round T ε))
    (begin_ : Nat) (raw : Raw T) (e : ε) (raw' : Raw T) : Prop :=
  RollsBack category capacity source begin_ raw e raw' ∧
    ((∀ round ∈ source, round.advanceDestination ≠ some e) →
      ∃ amount, amount ≤ capacity ∧ raw' = raw.rolledBack category begin_ amount)

theorem RollsBack.rethrows {capacity : Nat} {source : List (Round T ε)} {e : ε} {raw' : Raw T}
    (h : RollsBack category capacity source begin_ raw e raw') :
    Rethrows category capacity source begin_ raw e raw' := ⟨h, h.restored⟩

/-- **A copy commits or rolls back**, into a bounded and into an unbounded destination;
the variant for overflow also rolls back where the source does not fit. -/
theorem copy_commits_or_rolls_back (category : IteratorCategory) (source : List (Round T ε))
    (begin_ : Nat) (raw : Raw T) :
    (∀ capacity, raw.Free begin_ capacity →
      wp (uninitializedCopyAndRollbackIfException category source begin_ (some (begin_ + capacity)))
          (Commits capacity source begin_ raw) (Rethrows category capacity source begin_ raw) raw ∧
        wp (uninitializedCopyAndRollbackIfExceptionOrOverflow category source begin_
            (begin_ + capacity))
          (fun r raw' =>
            if source.length ≤ capacity then Commits capacity source begin_ raw r raw'
            else (∃ vs, List.Forall₂ Completes (source.take capacity) vs) ∧
              r = ⟨begin_, 0, false⟩ ∧ raw' = raw.rolledBack category begin_ capacity)
          (Rethrows category capacity source begin_ raw) raw) ∧
      (raw.Free begin_ source.length →
        wp (uninitializedCopyAndRollbackIfException category source begin_ none)
          (Commits source.length source begin_ raw)
          (Rethrows category source.length source begin_ raw) raw) := by
  refine ⟨fun capacity hfree => ⟨?bounded, ?overflow⟩, fun hfree => ?unbounded⟩
  case bounded =>
    exact wp_mono (fun _ _ h => h) (fun _ _ h => h.rethrows) (wp_copy_bounded category source hfree)
  case overflow =>
    exact wp_mono (fun _ _ h => h) (fun _ _ h => h.rethrows) (wp_copy_orOverflow source hfree)
  case unbounded =>
    exact wp_mono (fun _ _ h => h) (fun _ _ h => h.rethrows) (wp_copy_unbounded source hfree)

/-! ### When everything is given back -/

/-- The copy comes to a round whose object is constructed and whose `++destination_begin`
throws. -/
def DestinationThrows (capacity : Nat) (source : List (Round T ε)) : Prop :=
  ∃ before round rest vs v e, source = before ++ round :: rest ∧ before.length < capacity ∧
    List.Forall₂ Completes before vs ∧ round.construct = .ok v ∧ round.advanceDestination = some e

/-- The exception of the round that throws, with every object that was constructed
destroyed, once, in the order of the rollback. -/
def Restores (category : IteratorCategory) (capacity : Nat) (source : List (Round T ε))
    (begin_ : Nat) (raw : Raw T) (e : ε) (raw' : Raw T) : Prop :=
  RollsBack category capacity source begin_ raw e raw' ∧
    ∃ amount, amount ≤ capacity ∧ raw' = raw.rolledBack category begin_ amount

/-- The first round that does not complete is at one place only. -/
theorem first_failing_unique {before before' rest rest' : List (Round T ε)}
    {round round' : Round T ε} {vs vs' : List T} (hbefore : List.Forall₂ Completes before vs)
    (hbefore' : List.Forall₂ Completes before' vs') (hround : ∀ v, ¬ Completes round v)
    (hround' : ∀ v, ¬ Completes round' v)
    (h : before ++ round :: rest = before' ++ round' :: rest') :
    before = before' ∧ round = round' := by
  induction hbefore generalizing before' vs' with
  | nil =>
    cases hbefore' with
    | nil => exact ⟨rfl, (List.cons.inj h).1⟩
    | cons hfirst _ => exact absurd ((List.cons.inj h).1 ▸ hfirst) (hround _)
  | cons hfirst _ ih =>
    cases hbefore' with
    | nil => exact absurd ((List.cons.inj h).1 ▸ hfirst) (hround' _)
    | cons _ hbefore' =>
      obtain ⟨rfl, htail⟩ := List.cons.inj h
      obtain ⟨rfl, rfl⟩ := ih hbefore' htail
      exact ⟨rfl, rfl⟩

theorem exists_completes {source : List (Round T ε)} {vs : List T}
    (h : List.Forall₂ Completes source vs) {round : Round T ε} (hmem : round ∈ source) :
    ∃ v, Completes round v := by
  induction h with
  | nil => cases hmem
  | cons hfirst _ ih =>
    rcases List.mem_cons.mp hmem with rfl | hmem
    · exact ⟨_, hfirst⟩
    · exact ih hmem

theorem Fails.not_completes {amount : Nat} {round : Round T ε} {e : ε} {raw' : Raw T}
    (h : Fails category begin_ raw amount round e raw') (v : T) : ¬ Completes round v := by
  intro hround
  cases h with
  | construct hthrow => cases hround.construct.symm.trans hthrow
  | advanceSource _ _ hthrow => cases hround.advanceSource.symm.trans hthrow
  | advanceDestination _ hthrow => cases hround.advanceDestination.symm.trans hthrow

/-- What is left of a round whose `++destination_begin` throws is not rolled back: one
object more is constructed than destroyed. -/
theorem Fails.ne_rolledBack {amount amount' : Nat} {round : Round T ε} {e e' : ε} {v : T}
    {raw' : Raw T} (h : Fails category begin_ raw amount round e raw')
    (hconstruct : round.construct = .ok v) (hadvance : round.advanceDestination = some e') :
    raw' ≠ raw.rolledBack category begin_ amount' := by
  cases h with
  | construct hthrow => cases hconstruct.symm.trans hthrow
  | advanceSource _ hnone _ => cases hadvance.symm.trans hnone
  | advanceDestination _ _ =>
    intro hraw
    have hconstructed := congrArg (fun raw => raw.constructed.length) hraw
    have hdestroyed := congrArg (fun raw => raw.destroyed.length) hraw
    have hlength (amount : Nat) :
        (rollbackOrder category begin_ (begin_ + amount)).length = amount := by
      cases category <;> simp [rollbackOrder]
    simp only [Raw.rolledBack, List.length_append, List.length_range'] at hconstructed
    simp only [Raw.rolledBack, List.length_append, hlength] at hdestroyed
    omega

theorem RollsBack.restores {capacity : Nat} {source : List (Round T ε)} {e : ε} {raw' : Raw T}
    (h : RollsBack category capacity source begin_ raw e raw')
    (hadvance : ¬ DestinationThrows capacity source) :
    Restores category capacity source begin_ raw e raw' := by
  refine ⟨h, ?_⟩
  obtain ⟨before, round, rest, vs, hsplit, hbefore, hvs, hfails⟩ := h
  cases hfails with
  | construct _ => exact ⟨_, Nat.le_of_lt hbefore, rfl⟩
  | advanceSource _ _ _ => exact ⟨_, hbefore, rfl⟩
  | advanceDestination hconstruct he =>
    exact absurd ⟨before, round, rest, vs, _, _, hsplit, hbefore, hvs, hconstruct, he⟩ hadvance

theorem Restores.not_destinationThrows {capacity : Nat} {source : List (Round T ε)} {e : ε}
    {raw' : Raw T} (h : Restores category capacity source begin_ raw e raw') :
    ¬ DestinationThrows capacity source := by
  rintro ⟨before, round, rest, vs, v, e', rfl, -, hvs, hconstruct, hadvance⟩
  obtain ⟨⟨before', round', rest', vs', hsplit, -, hvs', hfails⟩, amount, -, hraw⟩ := h
  have hround (w : T) : ¬ Completes round w := fun h => by
    cases h.advanceDestination.symm.trans hadvance
  obtain ⟨rfl, rfl⟩ := first_failing_unique hvs hvs' hround hfails.not_completes hsplit
  exact hfails.ne_rolledBack hconstruct hadvance hraw

/-- A copy that completes has met no increment of the destination that throws. -/
theorem not_destinationThrows_of_completes {capacity : Nat} {source : List (Round T ε)}
    {vs : List T} (h : List.Forall₂ Completes (source.take capacity) vs) :
    ¬ DestinationThrows capacity source := by
  rintro ⟨before, round, rest, ws, v, e, rfl, hbefore, -, -, hadvance⟩
  have hmem : round ∈ (before ++ round :: rest).take capacity := by
    rw [List.take_append, List.mem_append]
    obtain ⟨room, hroom⟩ := Nat.exists_eq_succ_of_ne_zero (Nat.sub_ne_zero_of_lt hbefore)
    rw [hroom, List.take_succ_cons]
    exact .inr List.mem_cons_self
  obtain ⟨w, hround⟩ := exists_completes h hmem
  cases hround.advanceDestination.symm.trans hadvance

/-- A copy with the outcomes `Q` and `Rethrows` gives everything back where it throws,
exactly if it comes to no increment of the destination that throws. -/
theorem wp_restores_iff {x : Prog (Raw T) ε UninitializedCopyResult} {capacity : Nat}
    {source : List (Round T ε)} {Q : UninitializedCopyResult → Raw T → Prop}
    (hx : wp x Q (Rethrows category capacity source begin_ raw) raw)
    (hQ : ∀ r raw', Q r raw' → ∃ vs, List.Forall₂ Completes (source.take capacity) vs) :
    wp x Q (Restores category capacity source begin_ raw) raw ↔
      ¬ DestinationThrows capacity source := by
  constructor
  · intro h
    obtain ⟨r, raw', -, hreturn, hthrow⟩ := h.outcome
    cases r with
    | ok r =>
      obtain ⟨vs, hvs⟩ := hQ r raw' (hreturn r rfl)
      exact not_destinationThrows_of_completes hvs
    | error e => exact (hthrow e rfl).not_destinationThrows
  · intro h
    exact wp_mono (fun _ _ hq => hq) (fun _ _ hthrow => hthrow.1.restores h) hx

/-- **A copy commits or rolls back**, in each of the three functions, exactly if it comes
to no increment of the destination that throws. -/
theorem copy_restores_iff (category : IteratorCategory) (source : List (Round T ε))
    (begin_ : Nat) (raw : Raw T) :
    (∀ capacity, raw.Free begin_ capacity →
      (wp (uninitializedCopyAndRollbackIfException category source begin_
              (some (begin_ + capacity)))
            (Commits capacity source begin_ raw) (Restores category capacity source begin_ raw) raw ↔
          ¬ DestinationThrows capacity source) ∧
        (wp (uninitializedCopyAndRollbackIfExceptionOrOverflow category source begin_
              (begin_ + capacity))
            (fun r raw' =>
              if source.length ≤ capacity then Commits capacity source begin_ raw r raw'
              else (∃ vs, List.Forall₂ Completes (source.take capacity) vs) ∧
                r = ⟨begin_, 0, false⟩ ∧ raw' = raw.rolledBack category begin_ capacity)
            (Restores category capacity source begin_ raw) raw ↔
          ¬ DestinationThrows capacity source)) ∧
      (raw.Free begin_ source.length →
        (wp (uninitializedCopyAndRollbackIfException category source begin_ none)
            (Commits source.length source begin_ raw)
            (Restores category source.length source begin_ raw) raw ↔
          ¬ DestinationThrows source.length source)) := by
  have hcommits (capacity : Nat) (r : UninitializedCopyResult) (raw' : Raw T)
      (h : Commits capacity source begin_ raw r raw') :
      ∃ vs, List.Forall₂ Completes (source.take capacity) vs := by
    obtain ⟨vs, hvs, -⟩ := h
    exact ⟨vs, hvs⟩
  obtain ⟨hbounded, hunbounded⟩ := copy_commits_or_rolls_back category source begin_ raw
  refine ⟨fun capacity hfree => ⟨?bounded, ?overflow⟩, fun hfree => ?unbounded⟩
  case bounded => exact wp_restores_iff (hbounded capacity hfree).1 (hcommits capacity)
  case overflow =>
    refine wp_restores_iff (hbounded capacity hfree).2 fun r raw' h => ?_
    split at h
    · exact hcommits capacity r raw' h
    · exact h.1
  case unbounded => exact wp_restores_iff (hunbounded hfree) (hcommits source.length)

/-- Nothing of the source throws at the increment of the destination. -/
theorem not_destinationThrows {capacity : Nat} {source : List (Round T ε)}
    (h : ∀ round ∈ source, round.advanceDestination = none) : ¬ DestinationThrows capacity source := by
  rintro ⟨before, round, rest, vs, v, e, rfl, -, -, -, hadvance⟩
  cases (h round (by simp)).symm.trans hadvance

/-- Two items for one place: the overflow gives the object up again.  The dereference of
the third item throws: the two objects are given back. -/
theorem copy_restores_iff_two_items :
    wp (uninitializedCopyAndRollbackIfExceptionOrOverflow .bidirectional
          [Round.ok 1, Round.ok 2] 5 6)
        (fun r raw' => r = ⟨5, 0, false⟩ ∧ raw'.objects = (fun _ => none) ∧ raw'.destroyed = [5])
        (fun (_ : Unit) _ => False) (⟨fun _ => none, [], []⟩ : Raw Nat) ∧
      wp (uninitializedCopyAndRollbackIfException .forward
          [Round.ok 1, Round.ok 2, ⟨.error (), none, none⟩] 5 none)
        (fun _ _ => False)
        (fun _ raw' => raw'.objects = (fun _ => none) ∧ raw'.destroyed = [5, 6])
        (⟨fun _ => none, [], []⟩ : Raw Nat) := by
  have hfree (amount : Nat) : (⟨fun _ => none, [], []⟩ : Raw Nat).Free 5 amount :=
    fun _ _ _ => rfl
  constructor
  · have h := ((copy_restores_iff (ε := Unit) .bidirectional [Round.ok 1, Round.ok 2] 5
      ⟨fun _ => none, [], []⟩).1 1 (hfree 1)).2.mpr (not_destinationThrows (by simp [Round.ok]))
    refine wp_mono (fun r raw' h => ?_) (fun e raw' h => ?_) h
    · rw [if_neg (by decide)] at h
      obtain ⟨-, hr, rfl⟩ := h
      exact ⟨hr, rfl, rfl⟩
    · obtain ⟨⟨before, round, rest, vs, hsplit, -, -, hfails⟩, -⟩ := h
      have hround : round ∈ [Round.ok 1, Round.ok 2] := hsplit ▸ by simp
      rcases List.mem_pair.mp hround with rfl | rfl
      · exact absurd ⟨rfl, rfl, rfl⟩ (hfails.not_completes 1)
      · exact absurd ⟨rfl, rfl, rfl⟩ (hfails.not_completes 2)
  · have hthrow (v : Nat) : ¬ Completes (⟨.error (), none, none⟩ : Round Nat Unit) v := by
      intro hround
      cases hround.construct
    have h := ((copy_restores_iff .forward
      [Round.ok 1, Round.ok 2, ⟨.error (), none, none⟩] 5 ⟨fun _ => none, [], []⟩).2
        (hfree 3)).mpr (not_destinationThrows (by simp [Round.ok]))
    refine wp_mono (fun r raw' h => ?_) (fun e raw' h => ?_) h
    · obtain ⟨vs, hvs, -⟩ := h
      have hthird : (⟨.error (), none, none⟩ : Round Nat Unit) ∈
          [Round.ok 1, Round.ok 2, ⟨.error (), none, none⟩].take 3 := by simp
      obtain ⟨v, hround⟩ := exists_completes hvs hthird
      exact hthrow v hround
    · obtain ⟨⟨before, round, rest, vs, hsplit, -, hvs, hfails⟩, -⟩ := h
      have hok : List.Forall₂ Completes [Round.ok (ε := Unit) 1, Round.ok 2] [1, 2] :=
        .cons ⟨rfl, rfl, rfl⟩ (.cons ⟨rfl, rfl, rfl⟩ .nil)
      obtain ⟨rfl, rfl⟩ := first_failing_unique hok hvs hthrow hfails.not_completes hsplit
      cases hfails with
      | construct _ => exact ⟨rfl, rfl⟩
      | advanceSource hconstruct _ _ => cases hconstruct
      | advanceDestination hconstruct _ => cases hconstruct

/-- Two items for two places, and the first increment of the destination throws: the
object at 5 has been constructed, and nothing is destroyed. -/
theorem copy_leaves_constructed :
    ¬ wp (uninitializedCopyAndRollbackIfException .bidirectional
        [⟨.ok 1, some (), none⟩, Round.ok 2] 5 (some 7))
      (Commits 2 [⟨.ok 1, some (), none⟩, Round.ok 2] 5 ⟨fun _ => none, [], []⟩)
      (Restores .bidirectional 2 [⟨.ok 1, some (), none⟩, Round.ok 2] 5 ⟨fun _ => none, [], []⟩)
      (⟨fun _ => none, [], []⟩ : Raw Nat) := by
  intro h
  obtain ⟨-, amount, -, hraw⟩ : Restores .bidirectional 2 _ 5 _ () _ := h
  have hconstructed : [5] = List.range' 5 amount := congrArg Raw.constructed hraw
  have hdestroyed : [] = (List.range' 5 (5 + amount - 5)).reverse := congrArg Raw.destroyed hraw
  cases amount with
  | zero => cases hconstructed
  | succ amount => simp at hdestroyed

end Loop

/-! ### The copy of the deque -/

section Deque

variable {category : IteratorCategory} {raw : Raw T} {storage : InplaceFixedDeque.Storage T}

/-- The memory without its records. -/
def Records (raw : Raw T) (storage : InplaceFixedDeque.Storage T) : Prop := raw.objects = storage

theorem mirrors_construct (position : Nat) (value : Except ε T) (h : Records raw storage) :
    Mirrors Records (construct position value) (InplaceFixedDeque.construct position value) raw
      storage := by
  obtain rfl : raw.objects = storage := h
  refine Mirrors.bind (R := Records) (.assert Iff.rfl rfl) (fun _ raw storage h => ?_)
    fun _ _ h => h
  obtain rfl : raw.objects = storage := h
  cases value with
  | error e => exact .raise e rfl
  | ok v => exact .modify rfl

theorem mirrors_destroyValue (position : Nat) (h : Records raw storage) :
    Mirrors (ε := ε) Records (destroyValue position) (InplaceFixedDeque.destroyValue position) raw
      storage := by
  obtain rfl : raw.objects = storage := h
  refine Mirrors.bind (R := Records) (.assert Iff.rfl rfl) (fun _ raw storage h => ?_)
    fun _ _ h => h
  obtain rfl : raw.objects = storage := h
  exact .modify rfl

theorem mirrors_rollback (begin_ amount : Nat) (h : Records raw storage) :
    Mirrors (ε := ε) Records (rollback .bidirectional begin_ (begin_ + amount))
      (InplaceFixedDeque.rollback begin_ amount) raw storage := by
  induction amount generalizing raw storage with
  | zero =>
    rw [rollback, rollbackOrder, Nat.add_zero, Nat.sub_self]
    exact .pure _ h
  | succ amount ih =>
    have horder : rollbackOrder .bidirectional begin_ (begin_ + (amount + 1)) =
        (begin_ + amount) :: rollbackOrder .bidirectional begin_ (begin_ + amount) := by
      simp [rollbackOrder, List.range'_concat]
    rw [rollback, horder]
    exact (mirrors_destroyValue _ h).bind (fun _ _ _ h => ih h) fun _ _ h => h

theorem mirrors_rollbackAndRethrow (begin_ amount : Nat) (e : ε) (h : Records raw storage) :
    Mirrors (β := β) Records (rollbackAndRethrow .bidirectional begin_ (begin_ + amount) e)
      (InplaceFixedDeque.rollbackAndRethrow begin_ amount e) raw storage :=
  (mirrors_rollback begin_ amount h).bind (fun _ _ _ h => .raise e h) fun _ _ h => h

theorem mirrors_copyResult (begin_ amount : Nat) (consumed : Bool) (h : Records raw storage) :
    Mirrors (ε := ε) Records (copyResult begin_ amount (begin_ + amount) consumed)
      (pure ⟨begin_ + amount, amount, consumed⟩) raw storage := by
  have hamount : amount = begin_ + amount - begin_ := by omega
  have hresult : (copyResult begin_ amount (begin_ + amount) consumed : Prog (Raw T) ε _) =
      pure ⟨begin_ + amount, amount, consumed⟩ := by
    funext raw
    show Prog.andThen (assert _) _ raw = _
    unfold Prog.andThen Prog.assert
    rw [if_pos hamount]
  rw [hresult]
  exact .pure _ h

/-- The copy of the deque is the one for bidirectional iterators, without the records. -/
theorem mirrors_copyLoop (begin_ end_ : Nat) (source : List (Round T ε)) (amount : Nat)
    (h : Records raw storage) :
    Mirrors Records
      (copyLoop .bidirectional (fun p => p ≠ end_) begin_ source amount (begin_ + amount))
      (InplaceFixedDeque.copyLoop begin_ end_ source amount) raw storage := by
  induction source generalizing amount raw storage with
  | nil => exact mirrors_copyResult begin_ amount true h
  | cons round source ih =>
    by_cases hend : begin_ + amount = end_
    · simp only [copyLoop, InplaceFixedDeque.copyLoop, ne_eq, hend, not_true_eq_false,
        decide_false, if_true, Bool.false_eq_true, if_false]
      exact hend ▸ mirrors_copyResult begin_ amount false h
    · simp only [copyLoop, InplaceFixedDeque.copyLoop, ne_eq, hend, not_false_eq_true,
        decide_true, if_true, if_false]
      have hconstruct := (mirrors_construct (begin_ + amount) round.construct h).handle
        fun e _ _ h => mirrors_rollbackAndRethrow begin_ amount e h
      refine hconstruct.bind (fun _ raw storage h => ?_) fun _ _ h => h
      cases round.advanceDestination with
      | some e => exact mirrors_rollbackAndRethrow begin_ amount e h
      | none =>
        cases round.advanceSource with
        | some e => exact mirrors_rollbackAndRethrow begin_ (amount + 1) e h
        | none => exact ih (amount + 1) h

end Deque

end Garbage.ContainersUtility
