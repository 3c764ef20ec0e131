import Mathlib.Algebra.Group.Nat.Defs
import Mathlib.Data.List.Count
import Mathlib.Data.List.Pairwise
import Mathlib.Logic.Function.Basic

/-!
# Bytes, fills and regions

A memory maps addresses to bytes of any type `β`.  `memset` fills a stretch of
it and `count` counts the bytes of one value in a stretch, as the functions of
the C++ library do.

A `Region` is a stretch given by its offset and its size.  A list of regions
`Tiles` the offsets below `size` if no two of them overlap and together they
contain these offsets and no others.
-/

namespace Garbage.Foundation

/-- A stretch of offsets. -/
structure Region where
  offset : Nat
  size : Nat

namespace Region

def Contains (r : Region) (o : Nat) : Prop := r.offset ≤ o ∧ o < r.offset + r.size

instance (r : Region) (o : Nat) : Decidable (r.Contains o) :=
  inferInstanceAs (Decidable (_ ∧ _))

def Disjoint (r r' : Region) : Prop := ∀ o, ¬ (r.Contains o ∧ r'.Contains o)

/-- The regions do not overlap and contain the offsets below `size`. -/
structure Tiles (regions : List Region) (size : Nat) : Prop where
  disjoint : regions.Pairwise Disjoint
  covers : ∀ o, (∃ r ∈ regions, r.Contains o) ↔ o < size

end Region

/-- A memory with bytes of type `β`. -/
abbrev Memory (β : Type) : Type := Nat → β

namespace Memory

variable {β : Type}

def memset (mem : Memory β) (start : Nat) (v : β) (size : Nat) : Memory β := fun a =>
  if start ≤ a ∧ a < start + size then v else mem a

/-- Two memories agree outside of a region of the item at `base`. -/
def AgreesOutside (base : Nat) (r : Region) (mem mem' : Memory β) : Prop :=
  ∀ a, (∀ o, r.Contains o → a ≠ base + o) → mem' a = mem a

/-- A fill of a region of the item at `base`, seen from the item. -/
theorem memset_region (mem : Memory β) (base : Nat) (r : Region) (v : β) (o : Nat) :
    mem.memset (base + r.offset) v r.size (base + o) =
      if r.Contains o then v else mem (base + o) := by
  rw [memset]
  congr 1
  exact propext (by rw [Region.Contains]; omega)

theorem AgreesOutside.eq {base : Nat} {r : Region} {mem mem' : Memory β}
    (h : AgreesOutside base r mem mem') {o : Nat} (ho : ¬ r.Contains o) :
    mem' (base + o) = mem (base + o) :=
  h _ fun _ ho' heq => ho (Nat.add_left_cancel heq ▸ ho')

variable [DecidableEq β]

def count (mem : Memory β) (start size : Nat) (v : β) : Nat :=
  ((List.range size).map fun i => mem (start + i)).count v

/-- **All bytes of a stretch have the value** that is counted in it. -/
theorem count_eq_size_iff (mem : Memory β) (start size : Nat) (v : β) :
    mem.count start size v = size ↔ ∀ i, i < size → mem (start + i) = v := by
  have hlength : ((List.range size).map fun i => mem (start + i)).length = size := by simp
  have hall := List.count_eq_length (a := v) (l := (List.range size).map fun i => mem (start + i))
  rw [hlength] at hall
  rw [count, hall]
  constructor
  · intro h i hi
    exact (h _ (List.mem_map.mpr ⟨i, List.mem_range.mpr hi, rfl⟩)).symm
  · intro h b hb
    obtain ⟨i, hi, rfl⟩ := List.mem_map.mp hb
    exact (h i (List.mem_range.mp hi)).symm

/-! ### Words -/

/-- The byte `i` of a number, counted from the least significant one. -/
def byteAt (v i : Nat) : UInt8 := UInt8.ofNat (v / 256 ^ i)

/-- The number in the bytes of a stretch. -/
def readWord (mem : Memory UInt8) : Nat → Nat → Nat
  | _, 0 => 0
  | start, size + 1 => (mem start).toNat + 256 * mem.readWord (start + 1) size

def writeWord (mem : Memory UInt8) (start size v : Nat) : Memory UInt8 := fun a =>
  if start ≤ a ∧ a < start + size then byteAt v (a - start) else mem a

theorem byteAt_succ (v i : Nat) : byteAt v (i + 1) = byteAt (v / 256) i := by
  rw [byteAt, byteAt, Nat.div_div_eq_div_mul, Nat.pow_succ']

theorem toNat_byteAt_zero (v : Nat) : (byteAt v 0).toNat = v % 256 := by
  simp [byteAt]

/-- The bytes of a number read back. -/
theorem readWord_eq {mem : Memory UInt8} {size : Nat} : ∀ {start v : Nat},
    (∀ i, i < size → mem (start + i) = byteAt v i) → mem.readWord start size = v % 256 ^ size := by
  induction size with
  | zero => intro start v _; rw [readWord, Nat.pow_zero, Nat.mod_one]
  | succ size ih =>
    intro start v h
    have hrest : mem.readWord (start + 1) size = v / 256 % 256 ^ size := by
      refine ih fun i hi => ?_
      rw [← byteAt_succ, ← h (i + 1) (by omega)]
      congr 1
      omega
    have hfirst := h 0 (by omega)
    rw [Nat.add_zero] at hfirst
    rw [readWord, hrest, hfirst, toNat_byteAt_zero, Nat.pow_succ', Nat.mod_mul]

end Memory

end Garbage.Foundation
