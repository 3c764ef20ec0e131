import Mathlib.Algebra.Group.Nat.Defs
import Mathlib.Data.Nat.Log
import Mathlib.Data.Nat.Size
import Mathlib.Order.Bounds.Basic

/-!
# Smearing the bits of a number to the right

Rounding up to a power of two by shifts and ors first fills every place below
the highest set bit of a number.  `SmearOf n v u` says how far this has come:
a bit of `u` is set where one of the `n` bits of `v` from there upwards is.
One shift by `k` and one or add `k` to `n`, as long as `k ≤ n`, so doubling
shifts double the reach.  A smear that reaches over the whole number is
`2 ^ v.size - 1`.

The power of two that this gives, `2 ^ Nat.clog 2 v`, is the least one that is
not below `v`.
-/

namespace Garbage.Foundation

variable {n v u k : ℕ}

/-- `u` has a bit where one of the `n` bits of `v` from there upwards is set. -/
def SmearOf (n v u : ℕ) : Prop :=
  ∀ i, u.testBit i = true ↔ ∃ j, i ≤ j ∧ j < i + n ∧ v.testBit j = true

theorem smearOf_self (v : ℕ) : SmearOf 1 v v := by
  intro i
  constructor
  · intro h
    exact ⟨i, le_rfl, by omega, h⟩
  · rintro ⟨j, hij, hji, h⟩
    obtain rfl : j = i := by omega
    exact h

/-- **One shift and one or.**  The reach grows by the shift, which leaves no
place out if it is not above the reach so far. -/
theorem SmearOf.step (h : SmearOf n v u) (hk : k ≤ n) : SmearOf (n + k) v (u ||| u >>> k) := by
  intro i
  rw [Nat.testBit_or, Nat.testBit_shiftRight, Bool.or_eq_true, h i, h (k + i)]
  constructor
  · rintro (⟨j, hij, hji, hj⟩ | ⟨j, hij, hji, hj⟩)
    · exact ⟨j, hij, by omega, hj⟩
    · exact ⟨j, by omega, by omega, hj⟩
  · rintro ⟨j, hij, hji, hj⟩
    by_cases hn : j < i + n
    · exact .inl ⟨j, hij, hn, hj⟩
    · exact .inr ⟨j, by omega, by omega, hj⟩

/-- A place is below the size of a number if it has a set bit there or above. -/
theorem lt_size_iff_exists_testBit {i : ℕ} : i < v.size ↔ ∃ j, i ≤ j ∧ v.testBit j = true := by
  rw [Nat.lt_size]
  constructor
  · intro h
    obtain ⟨j, hij, hj⟩ := Nat.exists_ge_and_testBit_of_ge_two_pow h
    exact ⟨j, hij, hj⟩
  · rintro ⟨j, hij, hj⟩
    calc 2 ^ i ≤ 2 ^ j := Nat.pow_le_pow_right (by omega) hij
      _ ≤ v := Nat.ge_two_pow_of_testBit hj

/-- **A smear over the whole number** sets exactly the bits below its size. -/
theorem SmearOf.eq_two_pow_size_sub_one (h : SmearOf n v u) (hn : v < 2 ^ n) :
    u = 2 ^ v.size - 1 := by
  apply Nat.eq_of_testBit_eq
  intro i
  rw [Bool.eq_iff_iff, h i, Nat.testBit_two_pow_sub_one, decide_eq_true_iff,
    lt_size_iff_exists_testBit]
  constructor
  · rintro ⟨j, hij, -, hj⟩
    exact ⟨j, hij, hj⟩
  · rintro ⟨j, hij, hj⟩
    have hle : 2 ^ j ≤ v := Nat.ge_two_pow_of_testBit hj
    have hjn : j < n := (Nat.pow_lt_pow_iff_right (by omega)).mp (by omega : 2 ^ j < 2 ^ n)
    exact ⟨j, hij, by omega, hj⟩

/-! ### The least power of two that is not below a number -/

theorem size_pred_eq_clog (hv : 0 < v) : (v - 1).size = Nat.clog 2 v := by
  apply le_antisymm
  · rw [Nat.size_le]
    have h := Nat.le_pow_clog (by omega : 1 < 2) v
    omega
  · rw [Nat.clog_le_iff_le_pow (by omega)]
    have h := Nat.lt_size_self (v - 1)
    omega

theorem isLeast_two_pow_clog (v : ℕ) :
    IsLeast {p : ℕ | v ≤ p ∧ p.isPowerOfTwo} (2 ^ Nat.clog 2 v) := by
  constructor
  · exact ⟨Nat.le_pow_clog (by omega) v, Nat.clog 2 v, rfl⟩
  · rintro p ⟨hp, k, rfl⟩
    exact Nat.pow_le_pow_right (by omega) (Nat.clog_le_of_le_pow hp)

end Garbage.Foundation
