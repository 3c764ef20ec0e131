import Garbage.MemoryPool.Guarding

/-!
# The layout of a free item

`TFreeItemMap` lays an item out as a signature byte, three begin voids, the pointer to the
next free item and the end voids.  Its `endConstruct` computes the end voids from the size
that free and allocated items share, so they reach to the end of the item.

`freeByte` and `allocatedByte` are the bytes of an item of each kind.  `MakeItem` writes
them, each `Check` passes on the bytes of its own kind and fails on those of the other.
-/

namespace Garbage.MemoryPool

open Foundation (Memory Region)

/-- The members of `TFreeItemMap`; `endConstruct_` is the flag. -/
structure TFreeItemMap where
  alignedItemSize : Nat
  endConstruct_ : Bool
  endVoidsSize : Nat

namespace TFreeItemMap

def sizeOfBeginVoids : Nat := 3

def nextItemOffset : Nat := sizeOfSignature + sizeOfBeginVoids

/-- The size without the end voids, too; `sizeOfNextItem` is `sizeof (void*)`. -/
def endVoidsOffset (sizeOfNextItem : Nat) : Nat := nextItemOffset + sizeOfNextItem

variable (sizeOfNextItem : Nat) (strategy : MemoryAlignmentStrategy) (consts : TPoolChekingConsts)

def make : TFreeItemMap where
  alignedItemSize := endVoidsOffset sizeOfNextItem
  endConstruct_ := false
  endVoidsSize := 0

def endConstruct (realAlignedItemSize : Nat) (this : TFreeItemMap) : Option TFreeItemMap := do
  guard (this.endConstruct_ = false)
  guard (this.alignedItemSize ≤ realAlignedItemSize)
  guard (strategy.isAlignedSize realAlignedItemSize)
  guard (realAlignedItemSize ≥ this.alignedItemSize)
  let this := { this with alignedItemSize := realAlignedItemSize }
  guard (realAlignedItemSize ≥ endVoidsOffset sizeOfNextItem)
  return { this with
    endVoidsSize := realAlignedItemSize - endVoidsOffset sizeOfNextItem
    endConstruct_ := true }

/-- `Check`: whether all of its assertions hold. -/
def check (this : TFreeItemMap) (mem : Memory UInt8) (base : Nat) : Bool :=
  this.endConstruct_ && strategy.isAlignedAddressFor base this.alignedItemSize &&
  mem (base + signatureOffset) != consts.signatureAndPoolItemAllocated &&
  mem (base + signatureOffset) == consts.signatureAndPoolItemFree &&
  mem.count (base + beginVoidsOffset) sizeOfBeginVoids consts.alignmentVoidsFill ==
    sizeOfBeginVoids &&
  mem.count (base + endVoidsOffset sizeOfNextItem) this.endVoidsSize consts.alignmentVoidsFill ==
    this.endVoidsSize

def getNextFreeItem (this : TFreeItemMap) (mem : Memory UInt8) (base : Nat) : Option Nat := do
  guard (this.endConstruct_ = true)
  guard (strategy.isAlignedAddressFor base this.alignedItemSize)
  return mem.readWord (base + nextItemOffset) sizeOfNextItem

def setNextFreeItem (this : TFreeItemMap) (mem : Memory UInt8) (base nextBase : Nat) :
    Option (Memory UInt8) := do
  guard (this.endConstruct_ = true)
  guard (strategy.isAlignedAddressFor base this.alignedItemSize)
  return mem.writeWord (base + nextItemOffset) sizeOfNextItem nextBase

def makeItem (this : TFreeItemMap) (mem : Memory UInt8) (base : Nat) :
    Option (Memory UInt8) := do
  guard (this.endConstruct_ = true)
  guard (strategy.isAlignedAddressFor base this.alignedItemSize)
  let mem := mem.memset (base + signatureOffset) consts.signatureAndPoolItemFree 1
  let mem := mem.memset (base + beginVoidsOffset) consts.alignmentVoidsFill sizeOfBeginVoids
  let mem ← this.setNextFreeItem sizeOfNextItem strategy mem base 0
  guard (this.endVoidsSize < this.alignedItemSize)
  return mem.memset (base + endVoidsOffset sizeOfNextItem) consts.alignmentVoidsFill
    this.endVoidsSize

/-- The map that the constructor and `endConstruct` leave. -/
def layout (realAlignedItemSize : Nat) : TFreeItemMap where
  alignedItemSize := realAlignedItemSize
  endConstruct_ := true
  endVoidsSize := realAlignedItemSize - endVoidsOffset sizeOfNextItem

variable {sizeOfNextItem strategy consts} {realAlignedItemSize : Nat}

theorem make_endConstruct (haligned : strategy.isAlignedSize realAlignedItemSize = true)
    (hle : endVoidsOffset sizeOfNextItem ≤ realAlignedItemSize) :
    (make sizeOfNextItem).endConstruct sizeOfNextItem strategy realAlignedItemSize =
      some (layout sizeOfNextItem realAlignedItemSize) := by
  simp [make, endConstruct, layout, guard, haligned, hle]

/-! ### The bytes of a free item -/

/-- The byte at an offset of a free item. -/
def freeByte (sizeOfNextItem : Nat) (consts : TPoolChekingConsts) (next o : Nat) : UInt8 :=
  if o = signatureOffset then consts.signatureAndPoolItemFree
  else if nextItemOffset ≤ o ∧ o < endVoidsOffset sizeOfNextItem then
    Memory.byteAt next (o - nextItemOffset)
  else consts.alignmentVoidsFill

variable {mem : Memory UInt8} {base next : Nat}

theorem check_iff (hbase : strategy.isAlignedAddressFor base realAlignedItemSize = true) :
    (layout sizeOfNextItem realAlignedItemSize).check sizeOfNextItem strategy consts mem base =
        true ↔
      mem (base + signatureOffset) = consts.signatureAndPoolItemFree ∧
      (∀ i, i < sizeOfBeginVoids → mem (base + beginVoidsOffset + i) = consts.alignmentVoidsFill) ∧
      ∀ i, i < realAlignedItemSize - endVoidsOffset sizeOfNextItem →
        mem (base + endVoidsOffset sizeOfNextItem + i) = consts.alignmentVoidsFill := by
  simp only [check, layout, hbase, Bool.true_and, Bool.and_eq_true, beq_iff_eq, bne_iff_ne,
    Memory.count_eq_size_iff, and_assoc]
  constructor
  · exact fun h => h.2
  · exact fun h => ⟨fun hallocated => consts.free_ne_allocated (h.1.symm.trans hallocated), h⟩

/-- **The check reads every byte but those of the pointer.** -/
theorem check_iff_bytes (next : Nat)
    (hbase : strategy.isAlignedAddressFor base realAlignedItemSize = true)
    (hle : endVoidsOffset sizeOfNextItem ≤ realAlignedItemSize) :
    (layout sizeOfNextItem realAlignedItemSize).check sizeOfNextItem strategy consts mem base =
        true ↔
      ∀ o, o < realAlignedItemSize → ¬ (nextItemOffset ≤ o ∧ o < endVoidsOffset sizeOfNextItem) →
        mem (base + o) = freeByte sizeOfNextItem consts next o := by
  rw [check_iff hbase]
  have hsignature : signatureOffset = 0 := rfl
  have hbegin : beginVoidsOffset = 1 := rfl
  have hvoids : sizeOfBeginVoids = 3 := rfl
  have hnext : nextItemOffset = 4 := rfl
  have hend : endVoidsOffset sizeOfNextItem = 4 + sizeOfNextItem := rfl
  constructor
  · rintro ⟨hfree, hbeginVoids, hendVoids⟩ o ho hpointer
    rw [freeByte, if_neg hpointer]
    by_cases hzero : o = signatureOffset
    · rw [if_pos hzero, hzero, hfree]
    · rw [if_neg hzero]
      by_cases hlow : o < 4
      · rw [← hbeginVoids (o - 1) (by omega)]
        congr 1
        omega
      · rw [← hendVoids (o - (4 + sizeOfNextItem)) (by omega)]
        congr 1
        omega
  · intro h
    refine ⟨?_, fun i hi => ?_, fun i hi => ?_⟩
    · rw [h signatureOffset (by omega) (by omega), freeByte, if_pos rfl]
    · rw [Nat.add_assoc, h (beginVoidsOffset + i) (by omega) (by omega), freeByte,
        if_neg (by omega), if_neg (by omega)]
    · rw [Nat.add_assoc, h (endVoidsOffset sizeOfNextItem + i) (by omega) (by omega), freeByte,
        if_neg (by omega), if_neg (by omega)]

theorem makeItem_bytes (consts : TPoolChekingConsts)
    (hbase : strategy.isAlignedAddressFor base realAlignedItemSize = true)
    (hle : endVoidsOffset sizeOfNextItem ≤ realAlignedItemSize) (mem : Memory UInt8) :
    ∃ mem', (layout sizeOfNextItem realAlignedItemSize).makeItem sizeOfNextItem strategy consts
        mem base = some mem' ∧
      (∀ o, o < realAlignedItemSize → mem' (base + o) = freeByte sizeOfNextItem consts 0 o) ∧
      Memory.AgreesOutside base ⟨0, realAlignedItemSize⟩ mem mem' := by
  have hsignature : signatureOffset = 0 := rfl
  have hbegin : beginVoidsOffset = 1 := rfl
  have hvoids : sizeOfBeginVoids = 3 := rfl
  have hnext : nextItemOffset = 4 := rfl
  have hend : endVoidsOffset sizeOfNextItem = 4 + sizeOfNextItem := rfl
  have hlt : realAlignedItemSize - endVoidsOffset sizeOfNextItem < realAlignedItemSize := by omega
  refine ⟨_, by simp [makeItem, setNextFreeItem, layout, guard, hbase, hlt]; rfl,
    fun o ho => ?_, fun a ha => ?_⟩
  · simp only [Memory.memset, Memory.writeWord, freeByte]
    split_ifs <;> first | rfl | omega | (congr 1; omega)
  · have hout : ¬ (base ≤ a ∧ a < base + realAlignedItemSize) := fun hin =>
      ha (a - base) ⟨Nat.zero_le _, by dsimp only; omega⟩ (by omega)
    simp only [Memory.memset, Memory.writeWord]
    split_ifs <;> first | rfl | omega

theorem setNextFreeItem_bytes
    (hbase : strategy.isAlignedAddressFor base realAlignedItemSize = true)
    (hle : endVoidsOffset sizeOfNextItem ≤ realAlignedItemSize) (nextBase : Nat)
    (h : ∀ o, o < realAlignedItemSize → mem (base + o) = freeByte sizeOfNextItem consts next o) :
    ∃ mem', (layout sizeOfNextItem realAlignedItemSize).setNextFreeItem sizeOfNextItem strategy
        mem base nextBase = some mem' ∧
      (∀ o, o < realAlignedItemSize →
        mem' (base + o) = freeByte sizeOfNextItem consts nextBase o) ∧
      Memory.AgreesOutside base ⟨0, realAlignedItemSize⟩ mem mem' := by
  have hsignature : signatureOffset = 0 := rfl
  have hnext : nextItemOffset = 4 := rfl
  have hend : endVoidsOffset sizeOfNextItem = 4 + sizeOfNextItem := rfl
  refine ⟨_, by simp [setNextFreeItem, layout, guard, hbase]; rfl, fun o ho => ?_, fun a ha => ?_⟩
  · simp only [Memory.writeWord, h o ho, freeByte]
    split_ifs <;> first | rfl | omega | (congr 1; omega)
  · have hout : ¬ (base ≤ a ∧ a < base + realAlignedItemSize) := fun hin =>
      ha (a - base) ⟨Nat.zero_le _, by dsimp only; omega⟩ (by omega)
    simp only [Memory.writeWord]
    split_ifs <;> first | rfl | omega

theorem getNextFreeItem_bytes
    (hbase : strategy.isAlignedAddressFor base realAlignedItemSize = true)
    (hle : endVoidsOffset sizeOfNextItem ≤ realAlignedItemSize)
    (hnext : next < 256 ^ sizeOfNextItem)
    (h : ∀ o, o < realAlignedItemSize → mem (base + o) = freeByte sizeOfNextItem consts next o) :
    (layout sizeOfNextItem realAlignedItemSize).getNextFreeItem sizeOfNextItem strategy mem base =
      some next := by
  have hoffset : nextItemOffset = 4 := rfl
  have hsignature : signatureOffset = 0 := rfl
  have hend : endVoidsOffset sizeOfNextItem = 4 + sizeOfNextItem := rfl
  have hword : mem.readWord (base + nextItemOffset) sizeOfNextItem = next := by
    rw [← Nat.mod_eq_of_lt hnext]
    refine Memory.readWord_eq fun i hi => ?_
    rw [Nat.add_assoc, h (nextItemOffset + i) (by omega), freeByte, if_neg (by omega),
      if_pos (by omega)]
    congr 1
    omega
  simp [getNextFreeItem, layout, guard, hbase, hword]

end TFreeItemMap

end Garbage.MemoryPool
