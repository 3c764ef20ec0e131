import Garbage.Foundation.BitSmear
import Mathlib.Data.BitVec

/-!
# Rounding up to a power of two while compiling

`TBitsAlgorithms` computes with enumerators: `size_t` is 32 bits wide and
unsigned, which the class checks statically, so an enumerator is a `BitVec 32`.
`TRoundUpPowerOfTwoIncludingZeroPower<Value>` takes one off, smears the bits to
the right in five steps and adds one again.

Each step is one step of the smear of `Foundation/BitSmear.lean`.  From 1 to
`MAX_TEMPLATE_VALUE` the result is the least power of two that is not below
`Value`, and outside of this range a static check of the class fails.
-/

namespace Garbage.TBitsAlgorithms

open Garbage.Foundation

/-- `MAX_TEMPLATE_VALUE`, 2^30. -/
def maxTemplateValue : BitVec 32 := 1073741824#32

def isPowerOfTwoIncludingZeroPower (value : BitVec 32) : Bool :=
  value != 0#32 && (value &&& (value - 1#32)) == 0#32

/-- The static check of `TIsPowerOfTwoIncludingZeroPower<Value>`. -/
def IsPowerOfTwoCompiles (value : BitVec 32) : Prop := value ≤ maxTemplateValue

/-! ### The enumerators of `TRoundUpPowerOfTwoIncludingZeroPower` -/

def v1 (value : BitVec 32) : BitVec 32 := value - 1#32

def v2 (value : BitVec 32) : BitVec 32 := v1 value ||| v1 value >>> 1

def v4 (value : BitVec 32) : BitVec 32 := v2 value ||| v2 value >>> 2

def v8 (value : BitVec 32) : BitVec 32 := v4 value ||| v4 value >>> 4

def v16 (value : BitVec 32) : BitVec 32 := v8 value ||| v8 value >>> 8

def v32 (value : BitVec 32) : BitVec 32 := v16 value ||| v16 value >>> 16

def vr (value : BitVec 32) : BitVec 32 := v32 value + 1#32

def roundUpPowerOfTwoIncludingZeroPower (value : BitVec 32) : BitVec 32 := vr value

/-- The static checks of `TRoundUpPowerOfTwoIncludingZeroPower<Value>`, and that
of the template it looks its own result up in. -/
def RoundUpCompiles (value : BitVec 32) : Prop :=
  value ≤ maxTemplateValue ∧
    IsPowerOfTwoCompiles (roundUpPowerOfTwoIncludingZeroPower value) ∧
    isPowerOfTwoIncludingZeroPower (roundUpPowerOfTwoIncludingZeroPower value) = true

variable {value value' : BitVec 32}

/-- Taking one off does not wrap, except from zero. -/
theorem toNat_pred (hne : value.toNat ≠ 0) : (value - 1#32).toNat = value.toNat - 1 := by
  have hlt := value.isLt
  rw [BitVec.toNat_sub]
  simp only [BitVec.toNat_ofNat]
  omega

theorem isPowerOfTwoIncludingZeroPower_iff :
    isPowerOfTwoIncludingZeroPower value = true ↔ value.toNat.isPowerOfTwo := by
  rw [← Nat.ne_zero_and_sub_one_eq_zero_iff_isPowerOfTwo]
  unfold isPowerOfTwoIncludingZeroPower
  rw [Bool.and_eq_true, bne_iff_ne, beq_iff_eq, ← BitVec.toNat_inj, ne_eq, ← BitVec.toNat_inj,
    BitVec.toNat_and, BitVec.toNat_ofNat]
  apply and_congr_right
  intro hne
  rw [toNat_pred hne]

/-! ### The steps of the smear -/

theorem toNat_v1 (hpos : 1#32 ≤ value) : (v1 value).toNat = value.toNat - 1 := by
  have hle : 1 ≤ value.toNat := BitVec.le_def.mp hpos
  exact toNat_pred (by omega)

theorem SmearOf.toNat_step {n k v : ℕ} {u : BitVec 32} (h : SmearOf n v u.toNat) (hk : k ≤ n) :
    SmearOf (n + k) v (u ||| u >>> k).toNat := by
  rw [BitVec.toNat_or, BitVec.toNat_ushiftRight]
  exact h.step hk

theorem smearOf_v32 (value : BitVec 32) : SmearOf 32 (v1 value).toNat (v32 value).toNat := by
  have h2 : SmearOf 2 (v1 value).toNat (v2 value).toNat :=
    SmearOf.toNat_step (smearOf_self _) (by omega)
  have h4 : SmearOf 4 (v1 value).toNat (v4 value).toNat := SmearOf.toNat_step h2 (by omega)
  have h8 : SmearOf 8 (v1 value).toNat (v8 value).toNat := SmearOf.toNat_step h4 (by omega)
  have h16 : SmearOf 16 (v1 value).toNat (v16 value).toNat := SmearOf.toNat_step h8 (by omega)
  exact SmearOf.toNat_step h16 (by omega)

theorem clog_le (hmax : value ≤ maxTemplateValue) : Nat.clog 2 value.toNat ≤ 30 :=
  Nat.clog_le_of_le_pow (BitVec.le_def.mp hmax)

/-- The result of the cascade in the range the class allows. -/
theorem toNat_roundUp (hpos : 1#32 ≤ value) (hmax : value ≤ maxTemplateValue) :
    (roundUpPowerOfTwoIncludingZeroPower value).toNat = 2 ^ Nat.clog 2 value.toNat := by
  have hle : 1 ≤ value.toNat := BitVec.le_def.mp hpos
  have hsmear : (v32 value).toNat = 2 ^ Nat.clog 2 value.toNat - 1 := by
    have h := (smearOf_v32 value).eq_two_pow_size_sub_one (v1 value).isLt
    rwa [toNat_v1 hpos, size_pred_eq_clog hle] at h
  have hpow : 2 ^ Nat.clog 2 value.toNat ≤ 2 ^ 30 :=
    Nat.pow_le_pow_right (by omega) (clog_le hmax)
  have hone : 1 ≤ 2 ^ Nat.clog 2 value.toNat := Nat.one_le_two_pow
  unfold roundUpPowerOfTwoIncludingZeroPower vr
  rw [BitVec.toNat_add, hsmear]
  simp only [BitVec.toNat_ofNat]
  omega

theorem roundUp_le (hpos : 1#32 ≤ value) (hmax : value ≤ maxTemplateValue) :
    roundUpPowerOfTwoIncludingZeroPower value ≤ maxTemplateValue := by
  rw [BitVec.le_def, toNat_roundUp hpos hmax]
  exact Nat.pow_le_pow_right (by omega) (clog_le hmax)

theorem one_le_roundUp (hpos : 1#32 ≤ value) (hmax : value ≤ maxTemplateValue) :
    1#32 ≤ roundUpPowerOfTwoIncludingZeroPower value := by
  rw [BitVec.le_def, toNat_roundUp hpos hmax]
  exact Nat.one_le_two_pow

theorem isPowerOfTwo_roundUp (hpos : 1#32 ≤ value) (hmax : value ≤ maxTemplateValue) :
    isPowerOfTwoIncludingZeroPower (roundUpPowerOfTwoIncludingZeroPower value) = true := by
  rw [isPowerOfTwoIncludingZeroPower_iff]
  exact ⟨_, toNat_roundUp hpos hmax⟩

/-! ### What the class computes -/

/-- The static checks of the class are exactly the range of its values. -/
theorem roundUpCompiles_iff : RoundUpCompiles value ↔ 1#32 ≤ value ∧ value ≤ maxTemplateValue := by
  constructor
  · rintro ⟨hmax, -, hpow⟩
    refine ⟨?_, hmax⟩
    by_contra hpos
    -- Zero wraps around to the largest value, and its smear back to zero.
    obtain rfl : value = 0#32 := by
      rw [BitVec.le_def, not_le] at hpos
      apply BitVec.eq_of_toNat_eq
      simp only [BitVec.toNat_ofNat] at hpos ⊢
      omega
    exact absurd hpow (by decide)
  · rintro ⟨hpos, hmax⟩
    exact ⟨hmax, roundUp_le hpos hmax, isPowerOfTwo_roundUp hpos hmax⟩

/-- **The rounding is exact.**  From 1 to `MAX_TEMPLATE_VALUE` the result is the
least power of two that is not below `Value`.  The class takes it for a power
of two, rounds it to itself, and rounds a larger value to no smaller one. -/
theorem roundUp_isLeast (hpos : 1#32 ≤ value) (hmax : value ≤ maxTemplateValue) :
    IsLeast {p : ℕ | value.toNat ≤ p ∧ ∃ k, p = 2 ^ k}
        (roundUpPowerOfTwoIncludingZeroPower value).toNat ∧
      isPowerOfTwoIncludingZeroPower (roundUpPowerOfTwoIncludingZeroPower value) = true ∧
      roundUpPowerOfTwoIncludingZeroPower (roundUpPowerOfTwoIncludingZeroPower value) =
        roundUpPowerOfTwoIncludingZeroPower value ∧
      ∀ value', value ≤ value' → value' ≤ maxTemplateValue →
        roundUpPowerOfTwoIncludingZeroPower value ≤
          roundUpPowerOfTwoIncludingZeroPower value' := by
  refine ⟨?_, isPowerOfTwo_roundUp hpos hmax, ?_, ?_⟩
  · rw [toNat_roundUp hpos hmax]
    exact isLeast_two_pow_clog value.toNat
  · apply BitVec.eq_of_toNat_eq
    rw [toNat_roundUp (one_le_roundUp hpos hmax) (roundUp_le hpos hmax), toNat_roundUp hpos hmax,
      Nat.clog_pow 2 _ (by omega)]
  · intro value' hle hmax'
    rw [BitVec.le_def, toNat_roundUp hpos hmax, toNat_roundUp (BitVec.le_trans hpos hle) hmax']
    exact Nat.pow_le_pow_right (by omega) (Nat.clog_mono_right 2 (BitVec.le_def.mp hle))

theorem roundUp_isLeast_five :
    (1#32 ≤ 5#32 ∧ 5#32 ≤ maxTemplateValue) ∧
      roundUpPowerOfTwoIncludingZeroPower 5#32 = 8#32 ∧
      IsLeast {p : ℕ | 5 ≤ p ∧ ∃ k, p = 2 ^ k} 8 ∧
      ∀ value', 5#32 ≤ value' → value' ≤ maxTemplateValue → 8#32 ≤
        roundUpPowerOfTwoIncludingZeroPower value' := by
  have h := roundUp_isLeast (by decide : 1 ≤ 5#32) (by decide)
  exact ⟨by decide, by decide, h.1, h.2.2.2⟩

end Garbage.TBitsAlgorithms
