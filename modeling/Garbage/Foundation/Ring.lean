import Mathlib.Data.List.Basic
import Mathlib.Data.Nat.ModEq
import Mathlib.Logic.Function.Basic
import Mathlib.Tactic.Push

/-!
# A list kept in a ring of slots

`Ring cap slots start l` says that the list `l` lies in the slots
`start, start + 1, …` modulo `cap`, and that no other slot is in use.  The
slots of a ring hold `none` where nothing lives, so the predicate fixes the
contents and the lifetime of every slot.

The four lemmas `push_back`, `push_front`, `pop_back`, `pop_front` say which
slot is written and where the ring starts afterwards.
-/

namespace Garbage.Foundation

variable {α : Type}

/-- The list `l` lies in `cap` slots from `start` on, and no other slot is in use. -/
structure Ring (cap : Nat) (slots : Nat → Option α) (start : Nat) (l : List α) : Prop where
  start_lt : start < cap
  length_le : l.length ≤ cap
  get : ∀ i, i < l.length → slots ((start + i) % cap) = l[i]?
  free : ∀ p, (∀ i, i < l.length → p ≠ (start + i) % cap) → slots p = none

namespace Ring

variable {cap start : Nat} {slots : Nat → Option α} {l : List α}

theorem slot_ne {i j : Nat} (hi : i < cap) (hj : j < cap) (h : i ≠ j) :
    (start + i) % cap ≠ (start + j) % cap := by
  intro he
  have hm : i ≡ j [MOD cap] := Nat.ModEq.add_left_cancel' start he
  exact h (hm.eq_of_lt_of_lt hi hj)

/-- A place past the end is free. -/
theorem free_of_le (h : Ring cap slots start l) {i : Nat} (hl : l.length ≤ i) (hi : i < cap) :
    slots ((start + i) % cap) = none :=
  h.free _ fun j hj => slot_ne hi (by omega) (by omega)

theorem live (h : Ring cap slots start l) {i : Nat} (hi : i < l.length) :
    (slots ((start + i) % cap)).isSome := by
  rw [h.get i hi, List.getElem?_eq_getElem hi]
  rfl

/-- The slots in use. -/
theorem isSome_iff (h : Ring cap slots start l) (p : Nat) :
    (slots p).isSome ↔ ∃ i, i < l.length ∧ p = (start + i) % cap := by
  constructor
  · intro hp
    by_contra hno
    push Not at hno
    rw [h.free p hno] at hp
    exact absurd hp (by simp)
  · rintro ⟨i, hi, rfl⟩
    exact h.live hi

theorem nil (hstart : start < cap) (h : ∀ p, slots p = none) : Ring cap slots start [] :=
  ⟨hstart, Nat.zero_le _, fun i hi => by simp at hi, fun p _ => h p⟩

theorem eq_none (h : Ring cap slots start []) (p : Nat) : slots p = none :=
  h.free p fun i hi => by simp at hi

/-- Appending writes the slot after the last one. -/
theorem push_back (h : Ring cap slots start l) (hfull : l.length < cap) (v : α) :
    Ring cap (Function.update slots ((start + l.length) % cap) (some v)) start (l ++ [v]) := by
  refine ⟨h.start_lt, by simp; omega, fun i hi => ?_, fun p hp => ?_⟩
  · rw [List.length_append, List.length_singleton] at hi
    by_cases hil : i = l.length
    · rw [hil, Function.update_self, List.getElem?_concat_length]
    · rw [Function.update_of_ne (slot_ne (by omega) hfull hil), h.get i (by omega),
        List.getElem?_append_left (by omega)]
  · rw [Function.update_of_ne (hp l.length (by simp))]
    exact h.free p fun i hi => hp i (by simp; omega)

/-- Removing the last item frees its slot. -/
theorem pop_back {v : α} (h : Ring cap slots start (l ++ [v])) :
    Ring cap (Function.update slots ((start + l.length) % cap) none) start l := by
  have hle := h.length_le
  rw [List.length_append, List.length_singleton] at hle
  refine ⟨h.start_lt, by omega, fun i hi => ?_, fun p hp => ?_⟩
  · rw [Function.update_of_ne (slot_ne (by omega) (by omega) (by omega)), h.get i (by simp; omega),
      List.getElem?_append_left hi]
  · by_cases hpl : p = (start + l.length) % cap
    · rw [hpl, Function.update_self]
    · rw [Function.update_of_ne hpl]
      refine h.free p fun i hi => ?_
      rw [List.length_append, List.length_singleton] at hi
      by_cases hil : i = l.length
      · rw [hil]; exact hpl
      · exact hp i (by omega)

/-- A place of the ring seen from the next start. -/
theorem slot_succ (i : Nat) : ((start + 1) % cap + i) % cap = (start + (i + 1)) % cap := by
  rw [Nat.mod_add_mod]
  congr 1
  omega

/-- Prepending writes the slot `start` of a ring that started one later. -/
theorem push_front {start' : Nat} (h : Ring cap slots start' l) (hstart : start < cap)
    (hnext : start' = (start + 1) % cap) (hfull : l.length < cap) (v : α) :
    Ring cap (Function.update slots start (some v)) start (v :: l) := by
  have hzero : (start + 0) % cap = start := by rw [Nat.add_zero, Nat.mod_eq_of_lt hstart]
  refine ⟨hstart, by simp; omega, fun i hi => ?_, fun p hp => ?_⟩
  · cases i with
    | zero => rw [hzero, Function.update_self, List.getElem?_cons_zero]
    | succ i =>
      rw [List.length_cons] at hi
      have hne : (start + (i + 1)) % cap ≠ (start + 0) % cap :=
        slot_ne (by omega) (by omega) (Nat.succ_ne_zero i)
      rw [hzero] at hne
      rw [Function.update_of_ne hne, List.getElem?_cons_succ, ← h.get i (by omega), hnext,
        slot_succ]
  · have h0 := hp 0 (by simp)
    rw [hzero] at h0
    rw [Function.update_of_ne h0]
    refine h.free p fun i hi => ?_
    rw [hnext, slot_succ]
    exact hp (i + 1) (by simp; omega)

/-- Removing the first item frees the slot `start`, and the ring starts one later. -/
theorem pop_front {v : α} (h : Ring cap slots start (v :: l)) :
    Ring cap (Function.update slots start none) ((start + 1) % cap) l := by
  have hle := h.length_le
  have hstart := h.start_lt
  rw [List.length_cons] at hle
  have hzero : (start + 0) % cap = start := by rw [Nat.add_zero, Nat.mod_eq_of_lt hstart]
  refine ⟨Nat.mod_lt _ (by omega), by omega, fun i hi => ?_, fun p hp => ?_⟩
  · have hne : (start + (i + 1)) % cap ≠ (start + 0) % cap :=
      slot_ne (by omega) (by omega) (Nat.succ_ne_zero i)
    rw [hzero] at hne
    rw [slot_succ, Function.update_of_ne hne, h.get (i + 1) (by simp; omega),
      List.getElem?_cons_succ]
  · by_cases hps : p = start
    · rw [hps, Function.update_self]
    · rw [Function.update_of_ne hps]
      refine h.free p fun i hi => ?_
      rw [List.length_cons] at hi
      cases i with
      | zero => rw [hzero]; exact hps
      | succ i => rw [← slot_succ]; exact hp i (by omega)

end Ring

end Garbage.Foundation
