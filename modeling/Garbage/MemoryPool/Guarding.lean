import Mathlib.Data.Option.Basic
import Garbage.MemoryPool.AllocatedItemMap

/-!
# What the layout guards

`layout` is the map that the constructor and `endConstruct` leave.  The check of
an item reads one expected value at each guarded byte (`check_iff_intact`), and
`makeItem` writes these values.  So a layout that tiles its item guards it, and
what remains is arithmetic: the regions tile the item exactly if the constructor
computed its size.
-/

namespace Garbage.MemoryPool

open Foundation (Memory Region)

namespace TAllocatedItemMap

variable {w maxItemSize realAlignedItemSize : Nat} {strategy : MemoryAlignmentStrategy}
  {consts : TPoolChekingConsts} {this : TAllocatedItemMap} {mem mem' : Memory UInt8} {base : Nat}

/-! ### The check and the fill -/

/-- The regions that the check looks at. -/
def guarded (this : TAllocatedItemMap) : List Region := [signature, this.beginVoids, this.endVoids]

/-- The value of a guarded byte. -/
def expected (consts : TPoolChekingConsts) (o : Nat) : UInt8 :=
  if o = signatureOffset then consts.signatureAndPoolItemAllocated else consts.alignmentVoidsFill

/-- Every guarded byte has its value. -/
def Intact (consts : TPoolChekingConsts) (this : TAllocatedItemMap) (mem : Memory UInt8)
    (base : Nat) : Prop :=
  ∀ o, (∃ r ∈ this.guarded, r.Contains o) → mem (base + o) = expected consts o

theorem mem_guarded {o : Nat} : (∃ r ∈ this.guarded, r.Contains o) ↔
    o = 0 ∨ (1 ≤ o ∧ o < 1 + this.beginVoidsSize) ∨
      (this.endVoidsDiff ≤ o ∧ o < this.endVoidsDiff + this.endVoidsSize) := by
  simp only [guarded, List.mem_cons, List.not_mem_nil, or_false, exists_eq_or_imp, exists_eq_left,
    Region.Contains, signature, beginVoids, endVoids, signatureOffset, beginVoidsOffset,
    sizeOfSignature]
  omega

/-- **The check reads the expected values.** -/
theorem check_iff_intact (hend : this.endConstruct_ = true)
    (hbase : strategy.isAlignedAddressFor base this.alignedItemSize = true)
    (hdiff : 0 < this.endVoidsDiff) :
    this.check strategy consts mem base = true ↔ Intact consts this mem base := by
  have hcheck : this.check strategy consts mem base = true ↔
      mem (base + 0) = consts.signatureAndPoolItemAllocated ∧
      (∀ i, i < this.beginVoidsSize → mem (base + 1 + i) = consts.alignmentVoidsFill) ∧
      ∀ i, i < this.endVoidsSize →
        mem (base + this.endVoidsDiff + i) = consts.alignmentVoidsFill := by
    simp only [check, hend, hbase, Bool.true_and, Bool.and_eq_true, beq_iff_eq, bne_iff_ne,
      Memory.count_eq_size_iff, signatureOffset, beginVoidsOffset, sizeOfSignature, and_assoc]
    constructor
    · exact fun h => h.2
    · exact fun h => ⟨fun hfree => consts.free_ne_allocated (hfree.symm.trans h.1), h⟩
  rw [hcheck]
  constructor
  · rintro ⟨hsignature, hbegin, hendVoids⟩ o ho
    rcases mem_guarded.mp ho with rfl | ho | ho
    · exact hsignature
    · rw [expected, if_neg (by rw [signatureOffset]; omega), ← hbegin (o - 1) (by omega)]
      congr 1
      omega
    · rw [expected, if_neg (by rw [signatureOffset]; omega),
        ← hendVoids (o - this.endVoidsDiff) (by omega)]
      congr 1
      omega
  · intro h
    refine ⟨h 0 (mem_guarded.mpr (.inl rfl)), fun i hi => ?_, fun i hi => ?_⟩
    · rw [Nat.add_assoc, h (1 + i) (mem_guarded.mpr (by omega)), expected,
        if_neg (by rw [signatureOffset]; omega)]
    · rw [Nat.add_assoc, h (this.endVoidsDiff + i) (mem_guarded.mpr (by omega)), expected,
        if_neg (by rw [signatureOffset]; omega)]

theorem makeItem_eq_some (h : this.makeItem strategy consts mem base = some mem') :
    (this.endConstruct_ = true ∧
      strategy.isAlignedAddressFor base this.alignedItemSize = true) ∧
    mem' = (((mem.memset (base + signatureOffset) consts.signatureAndPoolItemAllocated 1).memset
      (base + beginVoidsOffset) consts.alignmentVoidsFill this.beginVoidsSize).memset
      (base + this.itemValueDiff) consts.itemValue this.itemValueSize).memset
      (base + this.endVoidsDiff) consts.alignmentVoidsFill this.endVoidsSize := by
  simp only [makeItem, Option.bind_eq_bind, Option.bind_eq_some_iff, Option.guard_eq_some',
    exists_and_left, exists_const, Option.pure_def, Option.some.injEq] at h
  obtain ⟨hend, hbase, -, -, -, -, -, hmem⟩ := h
  exact ⟨⟨hend, hbase⟩, hmem.symm⟩

/-- In regions that tile the item the value area holds no guarded byte. -/
theorem not_valueArea_of_guarded {size o : Nat} (htiles : Region.Tiles this.regions size)
    (ho : ∃ r ∈ this.guarded, r.Contains o) : ¬ this.valueArea.Contains o := by
  have hdisjoint := htiles.disjoint
  simp only [regions, List.pairwise_cons, List.mem_cons, List.not_mem_nil, or_false,
    forall_eq_or_imp, forall_eq] at hdisjoint
  obtain ⟨⟨-, hsignature, -⟩, ⟨hbegin, -⟩, hend, -⟩ := hdisjoint
  simp only [guarded, List.mem_cons, List.not_mem_nil, or_false, exists_eq_or_imp,
    exists_eq_left] at ho
  intro hvalue
  rcases ho with ho | ho | ho
  · exact hsignature o ⟨ho, hvalue⟩
  · exact hbegin o ⟨ho, hvalue⟩
  · exact hend o ⟨hvalue, ho⟩

theorem guarded_of_not_valueArea {size o : Nat} (htiles : Region.Tiles this.regions size)
    (ho : o < size) (hvalue : ¬ this.valueArea.Contains o) :
    ∃ r ∈ this.guarded, r.Contains o := by
  obtain ⟨r, hr, hro⟩ := (htiles.covers o).mpr ho
  simp only [regions, List.mem_cons, List.not_mem_nil, or_false] at hr
  refine ⟨r, ?_, hro⟩
  simp only [guarded, List.mem_cons, List.not_mem_nil, or_false]
  rcases hr with rfl | rfl | rfl | rfl
  · exact .inl rfl
  · exact .inr (.inl rfl)
  · exact absurd hro hvalue
  · exact .inr (.inr rfl)

/-- An item that was made is intact, whatever is written to its value area. -/
theorem intact_of_makeItem {size : Nat} (htiles : Region.Tiles this.regions size)
    (hdiff : 0 < this.endVoidsDiff) (h : this.makeItem strategy consts mem base = some mem')
    {mem'' : Memory UInt8} (hwrite : Memory.AgreesOutside base this.valueArea mem' mem'') :
    Intact consts this mem'' base := by
  obtain ⟨-, rfl⟩ := makeItem_eq_some h
  intro o ho
  have hvalue := not_valueArea_of_guarded htiles ho
  rw [hwrite.eq hvalue]
  have hfill : ∀ (m : Memory UInt8) v, m.memset (base + this.endVoidsDiff) v this.endVoidsSize
      (base + o) = if this.endVoids.Contains o then v else m (base + o) := fun m v =>
    m.memset_region base this.endVoids v o
  rw [hfill, expected]
  split
  · next hend =>
    rw [if_neg]
    rintro rfl
    have hle : this.endVoidsDiff ≤ 0 := hend.1
    omega
  · next hend =>
    have hvalueFill : ∀ (m : Memory UInt8) v, m.memset (base + this.itemValueDiff) v
        this.itemValueSize (base + o) = if this.valueArea.Contains o then v else m (base + o) :=
      fun m v => m.memset_region base this.valueArea v o
    have hbeginFill : ∀ (m : Memory UInt8) v, m.memset (base + beginVoidsOffset) v
        this.beginVoidsSize (base + o) = if this.beginVoids.Contains o then v else m (base + o) :=
      fun m v => m.memset_region base this.beginVoids v o
    have hsignatureFill : ∀ (m : Memory UInt8) v, m.memset (base + signatureOffset) v 1
        (base + o) = if signature.Contains o then v else m (base + o) :=
      fun m v => m.memset_region base signature v o
    rw [hvalueFill, if_neg hvalue, hbeginFill]
    split
    · next hbegin =>
      rw [if_neg]
      rintro rfl
      have hle : 1 ≤ 0 := hbegin.1
      omega
    · next hbegin =>
      have hsignature : signature.Contains o := by
        obtain ⟨r, hr, hro⟩ := ho
        simp only [guarded, List.mem_cons, List.not_mem_nil, or_false] at hr
        rcases hr with rfl | rfl | rfl
        · exact hro
        · exact absurd hro hbegin
        · exact absurd hro hend
      have hzero : o = signatureOffset := Nat.lt_one_iff.mp hsignature.2
      rw [hsignatureFill, if_pos hsignature, if_pos hzero]

/-- **A layout that tiles its item guards it.** -/
theorem guards_of_tiles (htiles : Region.Tiles this.regions this.alignedItemSize)
    (hend : this.endConstruct_ = true) (hdiff : 0 < this.endVoidsDiff)
    (hmakes : ∀ mem base, strategy.isAlignedAddressFor base this.alignedItemSize = true →
      ∃ mem', this.makeItem strategy consts mem base = some mem') :
    this.Guards strategy consts where
  tiles := htiles
  makes := hmakes
  passes mem mem' mem'' base hmake hwrite :=
    (check_iff_intact hend (makeItem_eq_some hmake).1.2 hdiff).mpr
      (intact_of_makeItem htiles hdiff hmake hwrite)
  fails mem mem' mem'' base hmake hwrite o b ho hvalue hb := by
    have hguarded := guarded_of_not_valueArea htiles ho hvalue
    have hold := intact_of_makeItem htiles hdiff hmake hwrite o hguarded
    by_contra hcheck
    rw [Bool.not_eq_false, check_iff_intact hend (makeItem_eq_some hmake).1.2 hdiff] at hcheck
    have hnew := hcheck o hguarded
    rw [Function.update_self] at hnew
    exact hb (hnew.trans hold.symm)

/-! ### The computed layout -/

/-- The size of an item up to its end voids. -/
def sizeWithoutEndVoids (w : Nat) (strategy : MemoryAlignmentStrategy) (maxItemSize : Nat) : Nat :=
  (strategy.alignAddressFor sizeOfSignature maxItemSize + maxItemSize) % 2 ^ w

/-- The size that the constructor computes for an item. -/
def computedSize (w : Nat) (strategy : MemoryAlignmentStrategy) (maxItemSize : Nat) : Nat :=
  strategy.alignSize (sizeWithoutEndVoids w strategy maxItemSize)

/-- The map that the constructor and `endConstruct` leave. -/
def layout (w : Nat) (strategy : MemoryAlignmentStrategy) (maxItemSize realAlignedItemSize : Nat) :
    TAllocatedItemMap where
  alignedItemSize := realAlignedItemSize
  endConstruct_ := true
  beginVoidsSize := strategy.alignAddressFor sizeOfSignature maxItemSize - sizeOfSignature
  itemSizeWithoutEndVoids := sizeWithoutEndVoids w strategy maxItemSize
  endVoidsSize := computedSize w strategy maxItemSize - sizeWithoutEndVoids w strategy maxItemSize
  itemValueSize := maxItemSize
  endVoidsDiff := sizeWithoutEndVoids w strategy maxItemSize
  itemValueDiff := strategy.alignAddressFor sizeOfSignature maxItemSize

theorem make_endConstruct (hmax : 0 < maxItemSize)
    (haligned : strategy.isAlignedSize realAlignedItemSize = true)
    (hle : computedSize w strategy maxItemSize ≤ realAlignedItemSize) :
    (make w strategy maxItemSize).bind (endConstruct strategy realAlignedItemSize) =
      some (layout w strategy maxItemSize realAlignedItemSize) := by
  have hdiff := strategy.le_alignAddressFor sizeOfSignature maxItemSize
  rw [computedSize, sizeWithoutEndVoids] at hle
  simp [make, endConstruct, layout, computedSize, sizeWithoutEndVoids, guard, hmax, hdiff, haligned,
    hle]

/-- **The regions tile the item exactly if** the sum of the sizes is a `size_t`
and the item has the size that the constructor computed. -/
theorem tiles_layout_iff (hle : computedSize w strategy maxItemSize ≤ realAlignedItemSize)
    (hmax : 0 < maxItemSize) (hreal : realAlignedItemSize < 2 ^ w) :
    Region.Tiles (layout w strategy maxItemSize realAlignedItemSize).regions realAlignedItemSize ↔
      strategy.alignAddressFor sizeOfSignature maxItemSize + maxItemSize < 2 ^ w ∧
        realAlignedItemSize = computedSize w strategy maxItemSize := by
  have hone : sizeOfSignature = 1 := rfl
  have hdiff : sizeOfSignature ≤ strategy.alignAddressFor sizeOfSignature maxItemSize :=
    strategy.le_alignAddressFor sizeOfSignature maxItemSize
  have hsize : sizeWithoutEndVoids w strategy maxItemSize ≤ computedSize w strategy maxItemSize :=
    strategy.le_alignSize _
  have hsum : strategy.alignAddressFor sizeOfSignature maxItemSize + maxItemSize < 2 ^ w →
      sizeWithoutEndVoids w strategy maxItemSize =
        strategy.alignAddressFor sizeOfSignature maxItemSize + maxItemSize := Nat.mod_eq_of_lt
  have hcontains : ∀ o, (∃ r ∈ (layout w strategy maxItemSize realAlignedItemSize).regions,
      r.Contains o) ↔ o < strategy.alignAddressFor sizeOfSignature maxItemSize + maxItemSize ∨
        (sizeWithoutEndVoids w strategy maxItemSize ≤ o ∧
          o < computedSize w strategy maxItemSize) := by
    intro o
    simp only [regions, List.mem_cons, List.not_mem_nil, or_false, exists_eq_or_imp, exists_eq_left,
      Region.Contains, signature, beginVoids, valueArea, endVoids, layout, signatureOffset,
      beginVoidsOffset]
    omega
  constructor
  · intro h
    have hcovers := fun o => (hcontains o).symm.trans (h.covers o)
    have hfits : strategy.alignAddressFor sizeOfSignature maxItemSize + maxItemSize ≤
        realAlignedItemSize := by
      have hlast := (hcovers
        (strategy.alignAddressFor sizeOfSignature maxItemSize + maxItemSize - 1)).mp (by omega)
      omega
    refine ⟨by omega, ?_⟩
    have heq := hsum (by omega)
    have hend := (hcovers (computedSize w strategy maxItemSize)).mpr
    omega
  · rintro ⟨hlt, rfl⟩
    have heq := hsum hlt
    refine ⟨?_, fun o => (hcontains o).trans (by omega)⟩
    simp only [regions, List.pairwise_cons, List.mem_cons, List.not_mem_nil, or_false,
      forall_eq_or_imp, forall_eq, Region.Disjoint, Region.Contains, signature, beginVoids,
      valueArea, endVoids, layout, signatureOffset, beginVoidsOffset, heq]
    refine ⟨⟨?_, ?_, ?_⟩, ⟨?_, ?_⟩, ?_, ?_⟩ <;> grind

/-- The assertions of `makeItem` hold in an item of the computed size. -/
theorem exists_makeItem (hmax : 0 < maxItemSize)
    (hsum : strategy.alignAddressFor sizeOfSignature maxItemSize + maxItemSize < 2 ^ w)
    (hbase : strategy.isAlignedAddressFor base (computedSize w strategy maxItemSize) = true)
    (mem : Memory UInt8) :
    ∃ mem', (layout w strategy maxItemSize (computedSize w strategy maxItemSize)).makeItem
      strategy consts mem base = some mem' := by
  have hone : sizeOfSignature = 1 := rfl
  have hdiff : sizeOfSignature ≤ strategy.alignAddressFor sizeOfSignature maxItemSize :=
    strategy.le_alignAddressFor sizeOfSignature maxItemSize
  have hsize : sizeWithoutEndVoids w strategy maxItemSize ≤ computedSize w strategy maxItemSize :=
    strategy.le_alignSize _
  have heq : sizeWithoutEndVoids w strategy maxItemSize =
      strategy.alignAddressFor sizeOfSignature maxItemSize + maxItemSize := Nat.mod_eq_of_lt hsum
  have hend : computedSize w strategy maxItemSize - sizeWithoutEndVoids w strategy maxItemSize <
      computedSize w strategy maxItemSize := by omega
  have hbegin : strategy.alignAddressFor sizeOfSignature maxItemSize - sizeOfSignature <
      computedSize w strategy maxItemSize := by omega
  have hvalue : maxItemSize < computedSize w strategy maxItemSize := by omega
  have hvalueDiff : strategy.alignAddressFor sizeOfSignature maxItemSize <
      computedSize w strategy maxItemSize := by omega
  simp [makeItem, layout, guard, hbase, hend, hbegin, hsize, hvalue, hvalueDiff]

/-- `TMemoryAlignment<4>` for the sizes from 4 on. -/
def fourBytes : MemoryAlignmentStrategy where
  alignAddressFor address _ := (address + 3) / 4 * 4
  isAlignedAddressFor address _ := address % 4 == 0
  alignSize size := (size + 3) / 4 * 4
  isAlignedSize size := size % 4 == 0
  le_alignAddressFor _ _ := by omega
  isAligned_alignAddressFor _ _ := by simp
  le_alignSize _ := by omega
  isAligned_alignSize _ := by simp

end TAllocatedItemMap

end Garbage.MemoryPool
