import Garbage.Foundation.Prog
import Mathlib.Logic.Function.Basic

/-!
# Raw storage and the uninitialized copy of `containers_utility.hpp`

A `Storage` holds an object or raw memory at each position.  Constructing over
a live object and destroying a dead one are undefined, so both are stuck
programs here.

`uninitializedCopyAndRollbackIfException` copies a source into raw storage,
stops at the end of the destination, and destroys what it constructed when an
exception is thrown.  The source is the list of its rounds: each says what the
dereference and the constructor give, and whether one of the two increments
throws.
-/

namespace Garbage.InplaceFixedDeque

open Foundation (Prog)
open Foundation.Prog

variable {T ε : Type}

/-- The objects living at the positions of raw storage. -/
abbrev Storage (T : Type) : Type := Nat → Option T

/-- One round of the copy: `value_type(*source_begin)`, `++destination_begin`
and `++source_begin`, each of which may throw. -/
structure Round (T ε : Type) where
  construct : Except ε T
  advanceDestination : Option ε
  advanceSource : Option ε

/-- What a round comes to: its object, or the first exception. -/
def Round.outcome (round : Round T ε) : Except ε T :=
  match round.construct, round.advanceDestination, round.advanceSource with
  | .ok v, none, none => .ok v
  | .ok _, none, some e | .ok _, some e, _ => .error e
  | .error e, _, _ => .error e

/-- A round in which nothing throws. -/
def Round.ok (v : T) : Round T ε :=
  { construct := .ok v, advanceDestination := none, advanceSource := none }

structure UninitializedCopyResult where
  unitializedIterator : Nat
  sucessfullInsertedItemsAmount : Nat
  transactionFullySuccessful : Bool

/-- `new (position) T(…)`: the constructor returns an object or throws. -/
def construct (position : Nat) (value : Except ε T) : Prog (Storage T) ε PUnit := do
  assert fun raw => raw position = none
  match value with
  | .error e => raise e
  | .ok v => Prog.modify fun raw => Function.update raw position (some v)

def destroyValue (position : Nat) : Prog (Storage T) ε PUnit := do
  assert fun raw => raw position ≠ none
  Prog.modify fun raw => Function.update raw position none

/-- `rollback` of random access storage: destroys `amount` objects from
`begin_` on, the last one first. -/
def rollback (begin_ : Nat) : Nat → Prog (Storage T) ε PUnit
  | 0 => pure PUnit.unit
  | amount + 1 => do
    destroyValue (begin_ + amount)
    rollback begin_ amount

/-- `catch(...)` of the copy, and the rethrow. -/
def rollbackAndRethrow (begin_ amount : Nat) (e : ε) : Prog (Storage T) ε β := do
  rollback begin_ amount
  raise e

/-- The loop of `uninitialized_copy_and_rollback_if_exception_implementation`
after `amount` rounds. -/
def copyLoop (begin_ end_ : Nat) :
    List (Round T ε) → Nat → Prog (Storage T) ε UninitializedCopyResult
  | [], amount => pure
    { unitializedIterator := begin_ + amount, sucessfullInsertedItemsAmount := amount,
      transactionFullySuccessful := true }
  | round :: source, amount =>
    if begin_ + amount = end_ then pure
      { unitializedIterator := begin_ + amount, sucessfullInsertedItemsAmount := amount,
        transactionFullySuccessful := false }
    else do
      handle (construct (begin_ + amount) round.construct) (rollbackAndRethrow begin_ amount)
      match round.advanceDestination with
      | some e => rollbackAndRethrow begin_ amount e
      | none =>
        match round.advanceSource with
        | some e => rollbackAndRethrow begin_ (amount + 1) e
        | none => copyLoop begin_ end_ source (amount + 1)

def uninitializedCopyAndRollbackIfException (source : List (Round T ε)) (begin_ end_ : Nat) :
    Prog (Storage T) ε UninitializedCopyResult := copyLoop begin_ end_ source 0

/-! ### Single objects -/

section
variable {Q : PUnit → Storage T → Prop} {E : ε → Storage T → Prop} {raw : Storage T}

theorem wp_construct {position : Nat} {value : Except ε T} (h : raw position = none)
    (hok : ∀ v, value = .ok v → Q PUnit.unit (Function.update raw position (some v)))
    (hthrow : ∀ e, value = .error e → E e raw) : wp (construct position value) Q E raw := by
  simp only [construct, wp_bind, wp_assert]
  refine ⟨h, ?_⟩
  cases value with
  | ok v => exact hok v rfl
  | error e => exact hthrow e rfl

theorem wp_destroyValue {position : Nat} (h : (raw position).isSome)
    (hQ : Q PUnit.unit (Function.update raw position none)) :
    wp (destroyValue position) Q E raw := by
  simp only [destroyValue, wp_bind, wp_assert]
  exact ⟨Option.isSome_iff_ne_none.mp h, hQ⟩

theorem wp_rollback {begin_ : Nat} : ∀ {amount : Nat} {raw : Storage T},
    (∀ p, begin_ ≤ p → p < begin_ + amount → (raw p).isSome) →
    (∀ raw', (∀ p, raw' p = if begin_ ≤ p ∧ p < begin_ + amount then none else raw p) →
      Q PUnit.unit raw') →
    wp (rollback begin_ amount) Q E raw := by
  intro amount
  induction amount with
  | zero =>
    intro raw _ hQ
    rw [rollback, wp_pure]
    exact hQ raw fun p => (if_neg (by omega)).symm
  | succ amount ih =>
    intro raw hlive hQ
    rw [rollback, wp_bind]
    refine wp_destroyValue (hlive _ (by omega) (by omega)) ?_
    refine ih (fun p h1 h2 => ?_) fun raw' hraw' => ?_
    · rw [Function.update_of_ne (by omega)]
      exact hlive p h1 (by omega)
    · refine hQ raw' fun p => ?_
      rw [hraw' p]
      by_cases hp : p = begin_ + amount
      · rw [hp, if_neg (by omega), if_pos (by omega), Function.update_self]
      · rw [Function.update_of_ne hp]
        congr 1
        exact propext (by omega)

end

/-! ### The copy -/

/-- The objects `vs` live at the start of the destination, and nothing else lives in it. -/
def Copied (begin_ end_ : Nat) (raw : Storage T) (vs : List T) : Prop :=
  ∀ p, begin_ ≤ p → p < end_ → raw p = vs[p - begin_]?

namespace Copied

variable {begin_ end_ : Nat} {raw : Storage T} {vs : List T}

theorem live (h : Copied begin_ end_ raw vs) (hle : begin_ + vs.length ≤ end_) (p : Nat)
    (h1 : begin_ ≤ p) (h2 : p < begin_ + vs.length) : (raw p).isSome := by
  rw [h p h1 (by omega), List.getElem?_eq_getElem (by omega)]
  rfl

theorem free (h : Copied begin_ end_ raw vs) (hlt : begin_ + vs.length < end_) :
    raw (begin_ + vs.length) = none := by
  rw [h _ (by omega) hlt, List.getElem?_eq_none (by omega)]

theorem concat (h : Copied begin_ end_ raw vs) (v : T) :
    Copied begin_ end_ (Function.update raw (begin_ + vs.length) (some v)) (vs ++ [v]) := by
  intro p h1 h2
  by_cases hp : p = begin_ + vs.length
  · rw [hp, Function.update_self, Nat.add_sub_cancel_left, List.getElem?_concat_length]
  · rw [Function.update_of_ne hp, h p h1 h2]
    by_cases hlt : p - begin_ < vs.length
    · rw [List.getElem?_append_left hlt]
    · rw [List.getElem?_eq_none (by omega), List.getElem?_eq_none (by simp; omega)]

end Copied

/-- A round that gives no exception adds one object. -/
theorem length_of_mapM {source : List (Round T ε)} : ∀ {vs : List T},
    source.mapM Round.outcome = .ok vs → vs.length = source.length := by
  induction source with
  | nil => intro vs h; cases h; rfl
  | cons round source ih =>
    intro vs h
    rw [List.mapM_cons] at h
    cases hv : round.outcome with
    | error e => rw [hv] at h; cases h
    | ok v =>
      rw [hv] at h
      cases hvs : source.mapM Round.outcome with
      | error e => rw [hvs] at h; cases h
      | ok ws =>
        rw [hvs] at h
        cases h
        rw [List.length_cons, List.length_cons, ih hvs]

/-- What a copy leaves when it returns: the objects `done` and after them the
constructed ones, as many as fit. -/
def CopyReturns (begin_ end_ : Nat) (source : List (Round T ε)) (done : List T)
    (raw : Storage T) (r : UninitializedCopyResult) (raw' : Storage T) : Prop :=
  ∃ vs, (source.take (end_ - begin_ - done.length)).mapM Round.outcome = .ok vs ∧
    r.sucessfullInsertedItemsAmount = (done ++ vs).length ∧ Copied begin_ end_ raw' (done ++ vs) ∧
    ∀ p, p < begin_ ∨ end_ ≤ p → raw' p = raw p

/-- What a copy leaves when a round that fits throws: no object in the destination. -/
def CopyThrows (begin_ end_ : Nat) (source : List (Round T ε)) (done : List T)
    (raw : Storage T) (e : ε) (raw' : Storage T) : Prop :=
  (source.take (end_ - begin_ - done.length)).mapM Round.outcome = .error e ∧
    Copied begin_ end_ raw' [] ∧ ∀ p, p < begin_ ∨ end_ ≤ p → raw' p = raw p

/-- The handler of the copy destroys what was constructed. -/
theorem wp_rollbackAndRethrow {begin_ end_ : Nat} {done : List T} {raw : Storage T} {e : ε}
    {Q : β → Storage T → Prop} {E : ε → Storage T → Prop} (hle : begin_ + done.length ≤ end_)
    (hdone : Copied begin_ end_ raw done)
    (hE : ∀ raw', Copied begin_ end_ raw' [] → (∀ p, p < begin_ ∨ end_ ≤ p → raw' p = raw p) →
      E e raw') :
    wp (rollbackAndRethrow begin_ done.length e) Q E raw := by
  rw [rollbackAndRethrow, wp_bind]
  refine wp_rollback (hdone.live hle) fun raw' hraw' => ?_
  rw [wp_raise]
  refine hE raw' (fun p h1 h2 => ?_) fun p hp => ?_
  · rw [hraw' p]
    split
    · rfl
    · rw [hdone p h1 h2, List.getElem?_eq_none (by omega)]
      rfl
  · rw [hraw' p, if_neg (by omega)]

/-- What holds outside of the destination also does if an object was put into it. -/
theorem outside_of_update {begin_ end_ p : Nat} {raw raw' : Storage T} {v : T}
    (h : ∀ q, q < begin_ ∨ end_ ≤ q → raw' q = Function.update raw p (some v) q)
    (hp : begin_ ≤ p ∧ p < end_) : ∀ q, q < begin_ ∨ end_ ≤ q → raw' q = raw q := by
  intro q hq
  rw [h q hq, Function.update_of_ne (by omega)]

/-- One round behind the objects `done`: it goes on, or it throws. -/
theorem wp_round {begin_ end_ : Nat} {round : Round T ε} {done : List T} {raw : Storage T}
    {next : Prog (Storage T) ε β} {Q : β → Storage T → Prop} {E : ε → Storage T → Prop}
    (hdestination : round.advanceDestination = none)
    (hlt : begin_ + done.length < end_) (hdone : Copied begin_ end_ raw done)
    (hnext : ∀ v, round.outcome = .ok v →
      wp next Q E (Function.update raw (begin_ + done.length) (some v)))
    (hE : ∀ e raw', round.outcome = .error e → Copied begin_ end_ raw' [] →
      (∀ p, p < begin_ ∨ end_ ≤ p → raw' p = raw p) → E e raw') :
    wp (do
      handle (construct (begin_ + done.length) round.construct)
        (rollbackAndRethrow begin_ done.length)
      match round.advanceDestination with
      | some e => rollbackAndRethrow begin_ done.length e
      | none =>
        match round.advanceSource with
        | some e => rollbackAndRethrow begin_ (done.length + 1) e
        | none => next) Q E raw := by
  rw [wp_bind, wp_handle]
  refine wp_construct (hdone.free hlt) (fun v hv => ?_) fun e he => ?_
  · rw [hdestination]
    dsimp only
    cases hsource : round.advanceSource with
    | some e =>
      have hlength : (done ++ [v]).length = done.length + 1 := by simp
      have houtcome : round.outcome = .error e := by simp [Round.outcome, hv, hdestination, hsource]
      have hback := wp_rollbackAndRethrow (Q := Q) (by omega) (hdone.concat v)
        fun raw' hempty hout => hE e raw' houtcome hempty (outside_of_update hout (by omega))
      rwa [hlength] at hback
    | none => exact hnext v (by simp [Round.outcome, hv, hdestination, hsource])
  · exact wp_rollbackAndRethrow (by omega) hdone fun raw' hempty hout =>
      hE e raw' (by simp [Round.outcome, he]) hempty hout

/-- **The copy keeps what it constructed or destroys it again.**  `done` are the
objects already copied; the destination advances without exceptions. -/
theorem wp_copyLoop {begin_ end_ : Nat} : ∀ (source : List (Round T ε)) (done : List T)
    (raw : Storage T), (∀ round ∈ source, round.advanceDestination = none) →
      begin_ + done.length ≤ end_ → Copied begin_ end_ raw done →
      wp (copyLoop begin_ end_ source done.length) (CopyReturns begin_ end_ source done raw)
        (CopyThrows begin_ end_ source done raw) raw := by
  intro source
  induction source with
  | nil =>
    intro done raw _ hle hdone
    rw [copyLoop, wp_pure]
    exact ⟨[], by rw [List.take_nil]; rfl, by simp, by simpa using hdone, fun p _ => rfl⟩
  | cons round source ih =>
    intro done raw hnoexcept hle hdone
    have hdestination : round.advanceDestination = none := hnoexcept round List.mem_cons_self
    rw [copyLoop, wp_ite]
    constructor
    · -- the destination is full
      intro hfull
      have hnone : end_ - begin_ - done.length = 0 := by omega
      rw [wp_pure]
      exact ⟨[], by rw [hnone]; rfl, by simp, by simpa using hdone, fun p _ => rfl⟩
    · intro hroom
      have hlt : begin_ + done.length < end_ := by omega
      have hfits : end_ - begin_ - done.length = end_ - begin_ - (done.length + 1) + 1 := by omega
      refine wp_round hdestination hlt hdone (fun v hv => ?_) fun e raw' he hempty hout => ?_
      · have hlength : (done ++ [v]).length = done.length + 1 := by simp
        have hnext := ih (done ++ [v]) _ (fun r hr => hnoexcept r (List.mem_cons_of_mem _ hr))
          (by omega) (hdone.concat v)
        rw [hlength] at hnext
        refine wp_mono (fun r raw' h => ?_) (fun e raw' h => ?_) hnext
        · obtain ⟨vs, hvs, hamount, hcopied, hraw'⟩ := h
          rw [hlength] at hvs
          refine ⟨v :: vs, ?_, by simpa using hamount, by simpa using hcopied,
            outside_of_update hraw' (by omega)⟩
          rw [hfits, List.take_succ_cons, List.mapM_cons, hv, hvs]
          rfl
        · obtain ⟨he, hcopied, hraw'⟩ := h
          rw [hlength] at he
          refine ⟨?_, hcopied, outside_of_update hraw' (by omega)⟩
          rw [hfits, List.take_succ_cons, List.mapM_cons, hv, he]
          rfl
      · refine ⟨?_, hempty, hout⟩
        rw [hfits, List.take_succ_cons, List.mapM_cons, he]
        rfl

end Garbage.InplaceFixedDeque
