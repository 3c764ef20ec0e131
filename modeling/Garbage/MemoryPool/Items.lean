import Garbage.Foundation.Machine
import Garbage.MemoryPool.FreeItemMap

/-!
# The items of a pool

A pool has one map for its free items and one for its allocated items, both with the size
that the items share.  It makes an item anew whenever it goes from one kind to the other,
links the free items by their pointers, and checks an item before it takes it.  Its users
read and write the values of allocated items.

An `Item` is what the bytes stand for.  In every run of these calls the bytes of each item
stay those of its kind, so each call passes its assertions, the pointer and the value are
what was last stored, and the two checks tell the kinds apart (`calls_behave`).
-/

namespace Garbage.MemoryPool

open Foundation (Machine Memory Region)

/-! ### The bytes of an allocated item -/

namespace TAllocatedItemMap

variable {w maxItemSize realAlignedItemSize : Nat} {strategy : MemoryAlignmentStrategy}
  {consts : TPoolChekingConsts} {mem : Memory UInt8} {base : Nat}

/-- The byte at an offset of an allocated item. -/
def allocatedByte (strategy : MemoryAlignmentStrategy) (consts : TPoolChekingConsts)
    (maxItemSize : Nat) (value : Nat → UInt8) (o : Nat) : UInt8 :=
  let itemValueDiff := strategy.alignAddressFor sizeOfSignature maxItemSize
  if o = signatureOffset then consts.signatureAndPoolItemAllocated
  else if itemValueDiff ≤ o ∧ o < itemValueDiff + maxItemSize then value (o - itemValueDiff)
  else consts.alignmentVoidsFill

/-- The sizes in a layout that fits into a `size_t`. -/
theorem sizes (hsum : strategy.alignAddressFor sizeOfSignature maxItemSize + maxItemSize < 2 ^ w) :
    1 ≤ strategy.alignAddressFor sizeOfSignature maxItemSize ∧
      sizeWithoutEndVoids w strategy maxItemSize =
        strategy.alignAddressFor sizeOfSignature maxItemSize + maxItemSize ∧
      sizeWithoutEndVoids w strategy maxItemSize ≤ computedSize w strategy maxItemSize :=
  ⟨strategy.le_alignAddressFor sizeOfSignature maxItemSize, Nat.mod_eq_of_lt hsum,
    strategy.le_alignSize _⟩

/-- **The check reads every byte that the constructor counted**, but those of the value. -/
theorem check_iff_bytes (value : Nat → UInt8) (hmax : 0 < maxItemSize)
    (hsum : strategy.alignAddressFor sizeOfSignature maxItemSize + maxItemSize < 2 ^ w)
    (hbase : strategy.isAlignedAddressFor base realAlignedItemSize = true) :
    (layout w strategy maxItemSize realAlignedItemSize).check strategy consts mem base = true ↔
      ∀ o, o < computedSize w strategy maxItemSize →
        ¬ (strategy.alignAddressFor sizeOfSignature maxItemSize ≤ o ∧
          o < strategy.alignAddressFor sizeOfSignature maxItemSize + maxItemSize) →
        mem (base + o) = allocatedByte strategy consts maxItemSize value o := by
  obtain ⟨hdiff, hsize, hle⟩ := sizes hsum
  have hsignature : signatureOffset = 0 := rfl
  have hbegin : sizeOfSignature = 1 := rfl
  rw [check_iff_intact rfl hbase (by simp only [layout]; omega)]
  simp only [Intact, mem_guarded, layout]
  constructor
  · intro h o ho hvalue
    rw [h o (by omega), allocatedByte, expected]
    split <;> rfl
  · intro h o ho
    rw [h o (by omega) (by omega), allocatedByte, expected]
    split
    · rfl
    · exact if_neg (by omega)

theorem makeItem_bytes (consts : TPoolChekingConsts) (hmax : 0 < maxItemSize)
    (hsum : strategy.alignAddressFor sizeOfSignature maxItemSize + maxItemSize < 2 ^ w)
    (hbase : strategy.isAlignedAddressFor base realAlignedItemSize = true)
    (hreal : computedSize w strategy maxItemSize ≤ realAlignedItemSize) (mem : Memory UInt8) :
    ∃ mem', (layout w strategy maxItemSize realAlignedItemSize).makeItem strategy consts mem base =
        some mem' ∧
      (∀ o, o < computedSize w strategy maxItemSize → mem' (base + o) =
        allocatedByte strategy consts maxItemSize (fun _ => consts.itemValue) o) ∧
      Memory.AgreesOutside base ⟨0, realAlignedItemSize⟩ mem mem' := by
  obtain ⟨hdiff, hsize, hle⟩ := sizes hsum
  have hsignature : signatureOffset = 0 := rfl
  have hbegin : beginVoidsOffset = 1 := rfl
  have hone : sizeOfSignature = 1 := rfl
  have hend : computedSize w strategy maxItemSize - sizeWithoutEndVoids w strategy maxItemSize <
      realAlignedItemSize := by omega
  have hvoids : strategy.alignAddressFor sizeOfSignature maxItemSize - sizeOfSignature <
      realAlignedItemSize := by omega
  have hvalue : maxItemSize < realAlignedItemSize := by omega
  have hvalueDiff : strategy.alignAddressFor sizeOfSignature maxItemSize <
      realAlignedItemSize := by omega
  have hendDiff : sizeWithoutEndVoids w strategy maxItemSize ≤ realAlignedItemSize := by omega
  refine ⟨(((mem.memset (base + signatureOffset) consts.signatureAndPoolItemAllocated 1).memset
    (base + beginVoidsOffset) consts.alignmentVoidsFill _).memset
    (base + _) consts.itemValue _).memset (base + _) consts.alignmentVoidsFill _,
    by simp [makeItem, layout, guard, hbase, hend, hvoids, hvalue, hvalueDiff, hendDiff]; rfl,
    fun o ho => ?_, fun a ha => ?_⟩
  · simp only [Memory.memset, allocatedByte]
    split_ifs <;> first | rfl | omega
  · have hout : ¬ (base ≤ a ∧ a < base + realAlignedItemSize) := fun hin =>
      ha (a - base) ⟨Nat.zero_le _, by dsimp only; omega⟩ (by omega)
    simp only [Memory.memset]
    split_ifs <;> first | rfl | omega

end TAllocatedItemMap

/-! ### The calls -/

/-- The maps of a pool after `endConstruct`, and the buffer of its items. -/
structure ItemMaps (strategy : MemoryAlignmentStrategy) where
  /-- `sizeof (void*)`, which is that of `size_t` -/
  sizeOfNextItem : Nat
  maxItemSize : Nat
  alignedItemSize : Nat
  bufferFirstItem : Nat
  amountOfItem : Nat
  maxItemSize_pos : 0 < maxItemSize
  value_lt : strategy.alignAddressFor sizeOfSignature maxItemSize + maxItemSize <
    2 ^ (8 * sizeOfNextItem)
  free_le : TFreeItemMap.endVoidsOffset sizeOfNextItem ≤ alignedItemSize
  allocated_le : TAllocatedItemMap.computedSize (8 * sizeOfNextItem) strategy maxItemSize ≤
    alignedItemSize
  size_aligned : strategy.isAlignedSize alignedItemSize = true
  items_aligned : ∀ i, i < amountOfItem →
    strategy.isAlignedAddressFor (bufferFirstItem + i * alignedItemSize) alignedItemSize = true

namespace ItemMaps

variable {strategy : MemoryAlignmentStrategy} (pool : ItemMaps strategy)
  (consts : TPoolChekingConsts)

def freeItemMap : TFreeItemMap := .layout pool.sizeOfNextItem pool.alignedItemSize

def allocatedItemMap : TAllocatedItemMap :=
  .layout (8 * pool.sizeOfNextItem) strategy pool.maxItemSize pool.alignedItemSize

/-- The constructors and `endConstruct` make these maps. -/
theorem maps_made :
    (TFreeItemMap.make pool.sizeOfNextItem).endConstruct pool.sizeOfNextItem strategy
        pool.alignedItemSize = some pool.freeItemMap ∧
      (TAllocatedItemMap.make (8 * pool.sizeOfNextItem) strategy pool.maxItemSize).bind
        (TAllocatedItemMap.endConstruct strategy pool.alignedItemSize) =
          some pool.allocatedItemMap :=
  ⟨TFreeItemMap.make_endConstruct pool.size_aligned pool.free_le,
    TAllocatedItemMap.make_endConstruct pool.maxItemSize_pos pool.size_aligned pool.allocated_le⟩

def base (i : Nat) : Nat := pool.bufferFirstItem + i * pool.alignedItemSize

/-- The pointer that the user of an item has. -/
def pointer (i : Nat) : Nat := pool.allocatedItemMap.getAllocatedPointer (pool.base i)

inductive Call
  | makeFreeItem (i : Nat)
  | setNextFreeItem (i nextBase : Nat)
  | getNextFreeItem (i : Nat)
  | checkFreeItem (i : Nat)
  | makeAllocatedItem (i : Nat)
  /-- the check of the item of a pointer -/
  | checkAllocatedItem (i : Nat)
  /-- a byte that the user of an item writes -/
  | write (i o : Nat) (b : UInt8)
  | read (i o : Nat)

inductive Answer
  | done
  | pointer (p : Nat)
  | passed (b : Bool)
  | byte (b : UInt8)
  deriving DecidableEq

/-- A call, with no result if an assertion fails. -/
def call (mem : Memory UInt8) : Call → Option (Answer × Memory UInt8)
  | .makeFreeItem i =>
    (pool.freeItemMap.makeItem pool.sizeOfNextItem strategy consts mem (pool.base i)).map
      fun mem => (.done, mem)
  | .setNextFreeItem i nextBase =>
    (pool.freeItemMap.setNextFreeItem pool.sizeOfNextItem strategy mem (pool.base i) nextBase).map
      fun mem => (.done, mem)
  | .getNextFreeItem i =>
    (pool.freeItemMap.getNextFreeItem pool.sizeOfNextItem strategy mem (pool.base i)).map
      fun p => (.pointer p, mem)
  | .checkFreeItem i => some (.passed
      (pool.freeItemMap.check pool.sizeOfNextItem strategy consts mem (pool.base i)), mem)
  | .makeAllocatedItem i =>
    (pool.allocatedItemMap.makeItem strategy consts mem (pool.base i)).map fun mem => (.done, mem)
  | .checkAllocatedItem i => some (.passed (pool.allocatedItemMap.check strategy consts mem
      (pool.allocatedItemMap.getItemBase (pool.pointer i))), mem)
  | .write i o b => some (.done, Function.update mem (pool.pointer i + o) b)
  | .read i o => some (.byte (mem (pool.pointer i + o)), mem)

/-! ### What the bytes stand for -/

inductive Item
  /-- not made yet -/
  | unmade
  | free (next : Nat)
  | allocated (value : Nat → UInt8)

namespace Item

def IsFree : Item → Prop
  | free _ => True
  | _ => False

def IsAllocated : Item → Prop
  | allocated _ => True
  | _ => False

end Item

def after (items : Nat → Item) : Call → Nat → Item
  | .makeFreeItem i => Function.update items i (.free 0)
  | .setNextFreeItem i nextBase => Function.update items i (.free nextBase)
  | .makeAllocatedItem i => Function.update items i (.allocated fun _ => consts.itemValue)
  | .write i o b =>
    match items i with
    | .allocated value => Function.update items i (.allocated (Function.update value o b))
    | _ => items
  | _ => items

/-- The answer that the items give to a call. -/
def Expects (items : Nat → Item) : Call → Answer → Prop
  | .getNextFreeItem i, answer => ∀ next, items i = .free next → answer = .pointer next
  | .checkFreeItem i, answer => ∃ b, answer = .passed b ∧ (b = true ↔ (items i).IsFree)
  | .checkAllocatedItem i, answer => ∃ b, answer = .passed b ∧ (b = true ↔ (items i).IsAllocated)
  | .read i o, answer => ∀ value, items i = .allocated value → answer = .byte (value o)
  | _, answer => answer = .done

/-- The calls that the pool and its users may make. -/
def Proper (items : Nat → Item) : Call → Prop
  | .makeFreeItem i | .makeAllocatedItem i => i < pool.amountOfItem
  | .setNextFreeItem i nextBase => i < pool.amountOfItem ∧ (items i).IsFree ∧
      nextBase < 2 ^ (8 * pool.sizeOfNextItem)
  | .getNextFreeItem i => i < pool.amountOfItem ∧ (items i).IsFree
  | .checkFreeItem i | .checkAllocatedItem i => i < pool.amountOfItem ∧ items i ≠ .unmade
  | .write i o _ | .read i o => i < pool.amountOfItem ∧ (items i).IsAllocated ∧
      o < pool.maxItemSize

/-- The bytes of the item `i` stand for it. -/
def Shows (mem : Memory UInt8) (i : Nat) : Item → Prop
  | .unmade => True
  | .free next => next < 2 ^ (8 * pool.sizeOfNextItem) ∧ ∀ o, o < pool.alignedItemSize →
      mem (pool.base i + o) = TFreeItemMap.freeByte pool.sizeOfNextItem consts next o
  | .allocated value => ∀ o,
      o < TAllocatedItemMap.computedSize (8 * pool.sizeOfNextItem) strategy pool.maxItemSize →
      mem (pool.base i + o) =
        TAllocatedItemMap.allocatedByte strategy consts pool.maxItemSize value o

def InStep (mem : Memory UInt8) (items : Nat → Item) : Prop :=
  ∀ i, i < pool.amountOfItem → pool.Shows consts mem i (items i)

variable {pool consts} {mem mem' : Memory UInt8} {items : Nat → Item} {i j : Nat} {item : Item}

theorem base_aligned (hi : i < pool.amountOfItem) :
    strategy.isAlignedAddressFor (pool.base i) pool.alignedItemSize = true :=
  pool.items_aligned i hi

@[simp] theorem getItemBase_pointer (i : Nat) :
    pool.allocatedItemMap.getItemBase (pool.pointer i) = pool.base i :=
  pool.allocatedItemMap.getItemBase_getAllocatedPointer _

theorem pointer_eq (i : Nat) : pool.pointer i =
    pool.base i + strategy.alignAddressFor sizeOfSignature pool.maxItemSize := rfl

/-! ### One item does not touch another -/

theorem base_ne {o o' : Nat} (hij : i ≠ j) (ho : o < pool.alignedItemSize)
    (ho' : o' < pool.alignedItemSize) : pool.base i + o ≠ pool.base j + o' := by
  unfold base
  rcases Nat.lt_or_gt_of_ne hij with h | h
  · have := Nat.mul_le_mul_right pool.alignedItemSize h
    rw [Nat.succ_mul] at this
    omega
  · have := Nat.mul_le_mul_right pool.alignedItemSize h
    rw [Nat.succ_mul] at this
    omega

theorem shows_congr (h : ∀ o, o < pool.alignedItemSize →
    mem' (pool.base i + o) = mem (pool.base i + o)) (hs : pool.Shows consts mem i item) :
    pool.Shows consts mem' i item := by
  cases item with
  | unmade => trivial
  | free next => exact ⟨hs.1, fun o ho => (h o ho).trans (hs.2 o ho)⟩
  | allocated value =>
    exact fun o ho => (h o (Nat.lt_of_lt_of_le ho pool.allocated_le)).trans (hs o ho)

theorem InStep.update (h : pool.InStep consts mem items)
    (hout : Memory.AgreesOutside (pool.base i) ⟨0, pool.alignedItemSize⟩ mem mem')
    (hi : pool.Shows consts mem' i item) :
    pool.InStep consts mem' (Function.update items i item) := by
  intro j hj
  by_cases hji : j = i
  · subst hji
    rw [Function.update_self]
    exact hi
  · rw [Function.update_of_ne hji]
    refine shows_congr (fun o ho => hout _ fun o' ho' => ?_) (h j hj)
    exact base_ne hji ho (by simpa [Region.Contains] using ho'.2)

/-! ### One call -/

/-- How a call is answered: as the items expect it, and they stay in step. -/
def AnswersAs (pool : ItemMaps strategy) (consts : TPoolChekingConsts) (mem : Memory UInt8)
    (items : Nat → Item) (c : Call) : Prop :=
  ∃ answer mem', pool.call consts mem c = some (answer, mem') ∧ Expects items c answer ∧
    pool.InStep consts mem' (after consts items c)

theorem answersAs_makeFreeItem (h : pool.InStep consts mem items) (hi : i < pool.amountOfItem) :
    AnswersAs pool consts mem items (.makeFreeItem i) := by
  obtain ⟨mem', hmake, hbytes, hout⟩ :=
    TFreeItemMap.makeItem_bytes consts (base_aligned hi) pool.free_le mem
  refine ⟨.done, mem', ?_, rfl, h.update hout ⟨Nat.two_pow_pos _, hbytes⟩⟩
  simp only [call, freeItemMap, hmake, Option.map_some]

theorem answersAs_makeAllocatedItem (h : pool.InStep consts mem items)
    (hi : i < pool.amountOfItem) : AnswersAs pool consts mem items (.makeAllocatedItem i) := by
  obtain ⟨mem', hmake, hbytes, hout⟩ := TAllocatedItemMap.makeItem_bytes consts
    pool.maxItemSize_pos pool.value_lt (base_aligned hi) pool.allocated_le mem
  refine ⟨.done, mem', ?_, rfl, h.update hout hbytes⟩
  simp only [call, allocatedItemMap, hmake, Option.map_some]

theorem answersAs_setNextFreeItem (h : pool.InStep consts mem items) (hi : i < pool.amountOfItem)
    {nextBase : Nat} (hfree : (items i).IsFree) (hnext : nextBase < 2 ^ (8 * pool.sizeOfNextItem)) :
    AnswersAs pool consts mem items (.setNextFreeItem i nextBase) := by
  have hs := h i hi
  cases hitem : items i with
  | unmade => simp [hitem, Item.IsFree] at hfree
  | allocated value => simp [hitem, Item.IsFree] at hfree
  | free next =>
    rw [hitem] at hs
    obtain ⟨mem', hset, hbytes, hout⟩ :=
      TFreeItemMap.setNextFreeItem_bytes (base_aligned hi) pool.free_le nextBase hs.2
    refine ⟨.done, mem', ?_, rfl, h.update hout ⟨hnext, hbytes⟩⟩
    simp only [call, freeItemMap, hset, Option.map_some]

theorem answersAs_getNextFreeItem (h : pool.InStep consts mem items) (hi : i < pool.amountOfItem)
    (hfree : (items i).IsFree) : AnswersAs pool consts mem items (.getNextFreeItem i) := by
  have hs := h i hi
  cases hitem : items i with
  | unmade => simp [hitem, Item.IsFree] at hfree
  | allocated value => simp [hitem, Item.IsFree] at hfree
  | free next =>
    rw [hitem] at hs
    have hlt : next < 256 ^ pool.sizeOfNextItem := by
      have hnext := hs.1
      rwa [Nat.pow_mul] at hnext
    have hget := TFreeItemMap.getNextFreeItem_bytes (base_aligned hi) pool.free_le hlt hs.2
    refine ⟨.pointer next, mem, ?_, fun next' hnext' => ?_, h⟩
    · simp only [call, freeItemMap, hget, Option.map_some]
    · cases hitem.symm.trans hnext'
      rfl

/-- The constructor counted the signature, which is no byte of the value. -/
theorem signature_lt_computedSize : signatureOffset <
    TAllocatedItemMap.computedSize (8 * pool.sizeOfNextItem) strategy pool.maxItemSize ∧
      signatureOffset < strategy.alignAddressFor sizeOfSignature pool.maxItemSize := by
  obtain ⟨hdiff, hsize, hle⟩ := TAllocatedItemMap.sizes pool.value_lt
  have hsignature : signatureOffset = 0 := rfl
  omega

theorem check_free_iff (hi : i < pool.amountOfItem) (hs : pool.Shows consts mem i item)
    (hmade : item ≠ .unmade) :
    pool.freeItemMap.check pool.sizeOfNextItem strategy consts mem (pool.base i) = true ↔
      item.IsFree := by
  cases item with
  | unmade => exact absurd rfl hmade
  | free next =>
    refine iff_of_true ?_ trivial
    exact (TFreeItemMap.check_iff_bytes next (base_aligned hi) pool.free_le).mpr
      fun o ho _ => hs.2 o ho
  | allocated value =>
    refine iff_of_false (fun hcheck => ?_) id
    have hsignature := ((TFreeItemMap.check_iff (base_aligned hi)).mp hcheck).1
    have hbyte := hs signatureOffset signature_lt_computedSize.1
    exact consts.free_ne_allocated (hsignature.symm.trans hbyte)

theorem check_allocated_iff (hi : i < pool.amountOfItem) (hs : pool.Shows consts mem i item)
    (hmade : item ≠ .unmade) :
    pool.allocatedItemMap.check strategy consts mem (pool.base i) = true ↔ item.IsAllocated := by
  cases item with
  | unmade => exact absurd rfl hmade
  | free next =>
    refine iff_of_false (fun hcheck => ?_) id
    have hbytes := (TAllocatedItemMap.check_iff_intact rfl (base_aligned hi) ?_).mp hcheck
      signatureOffset (TAllocatedItemMap.mem_guarded.mpr (.inl rfl))
    · have hbyte := hs.2 signatureOffset (Nat.lt_of_lt_of_le (by decide)
        (Nat.le_trans (Nat.le_add_right _ _) pool.free_le))
      exact consts.free_ne_allocated (hbyte.symm.trans hbytes)
    · show 0 < TAllocatedItemMap.sizeWithoutEndVoids _ _ _
      rw [(TAllocatedItemMap.sizes pool.value_lt).2.1]
      exact Nat.add_pos_right _ pool.maxItemSize_pos
  | allocated value =>
    refine iff_of_true ?_ trivial
    exact (TAllocatedItemMap.check_iff_bytes value pool.maxItemSize_pos pool.value_lt
      (base_aligned hi)).mpr fun o ho _ => hs o ho

theorem answersAs_checkFreeItem (h : pool.InStep consts mem items) (hi : i < pool.amountOfItem)
    (hmade : items i ≠ .unmade) : AnswersAs pool consts mem items (.checkFreeItem i) :=
  ⟨_, mem, rfl, ⟨_, rfl, check_free_iff hi (h i hi) hmade⟩, h⟩

theorem answersAs_checkAllocatedItem (h : pool.InStep consts mem items)
    (hi : i < pool.amountOfItem) (hmade : items i ≠ .unmade) :
    AnswersAs pool consts mem items (.checkAllocatedItem i) := by
  refine ⟨_, mem, rfl, ⟨_, rfl, ?_⟩, h⟩
  rw [getItemBase_pointer]
  exact check_allocated_iff hi (h i hi) hmade

/-- A byte of the value is a byte that the constructor counted. -/
theorem value_lt_computedSize (pool : ItemMaps strategy) {o : Nat} (ho : o < pool.maxItemSize) :
    strategy.alignAddressFor sizeOfSignature pool.maxItemSize + o <
      TAllocatedItemMap.computedSize (8 * pool.sizeOfNextItem) strategy pool.maxItemSize := by
  obtain ⟨-, hsize, hle⟩ := TAllocatedItemMap.sizes pool.value_lt
  omega

theorem answersAs_read (h : pool.InStep consts mem items) (hi : i < pool.amountOfItem) {o : Nat}
    (ho : o < pool.maxItemSize) : AnswersAs pool consts mem items (.read i o) := by
  refine ⟨_, mem, rfl, fun value hvalue => ?_, h⟩
  have hs := h i hi
  rw [hvalue] at hs
  have hdiff := (TAllocatedItemMap.sizes pool.value_lt).1
  have hsignature : signatureOffset = 0 := rfl
  rw [pointer_eq, Nat.add_assoc, hs _ (value_lt_computedSize pool ho), TAllocatedItemMap.allocatedByte,
    if_neg (by omega), if_pos (by omega), Nat.add_sub_cancel_left]

theorem answersAs_write (h : pool.InStep consts mem items) (hi : i < pool.amountOfItem) {o : Nat}
    (hallocated : (items i).IsAllocated) (ho : o < pool.maxItemSize) (b : UInt8) :
    AnswersAs pool consts mem items (.write i o b) := by
  have hs := h i hi
  cases hitem : items i with
  | unmade => simp [hitem, Item.IsAllocated] at hallocated
  | free next => simp [hitem, Item.IsAllocated] at hallocated
  | allocated value =>
    rw [hitem] at hs
    have hlt := value_lt_computedSize pool ho
    refine ⟨_, _, rfl, rfl, ?_⟩
    simp only [after, hitem]
    refine h.update (fun a ha => Function.update_of_ne (fun heq => ?_) _ _) fun o' ho' => ?_
    · have hle := Nat.lt_of_lt_of_le hlt pool.allocated_le
      refine ha (strategy.alignAddressFor sizeOfSignature pool.maxItemSize + o)
        ⟨Nat.zero_le _, ?_⟩ (heq.trans (by rw [pointer_eq, Nat.add_assoc]))
      exact Nat.lt_of_lt_of_eq hle (Nat.zero_add _).symm
    · have hdiff := (TAllocatedItemMap.sizes pool.value_lt).1
      have hsignature : signatureOffset = 0 := rfl
      by_cases heq : o' = strategy.alignAddressFor sizeOfSignature pool.maxItemSize + o
      · rw [heq, pointer_eq, Nat.add_assoc, Function.update_self, TAllocatedItemMap.allocatedByte,
          if_neg (by omega), if_pos (by omega), Nat.add_sub_cancel_left, Function.update_self]
      · rw [pointer_eq, Nat.add_assoc, Function.update_of_ne (by omega), hs o' ho',
          TAllocatedItemMap.allocatedByte, TAllocatedItemMap.allocatedByte]
        split
        · rfl
        · split
          · exact (Function.update_of_ne (by omega) _ _).symm
          · rfl

/-- **One call.** -/
theorem answersAs (h : pool.InStep consts mem items) {c : Call} (hproper : pool.Proper items c) :
    AnswersAs pool consts mem items c := by
  cases c with
  | makeFreeItem i => exact answersAs_makeFreeItem h hproper
  | setNextFreeItem i nextBase =>
    exact answersAs_setNextFreeItem h hproper.1 hproper.2.1 hproper.2.2
  | getNextFreeItem i => exact answersAs_getNextFreeItem h hproper.1 hproper.2
  | checkFreeItem i => exact answersAs_checkFreeItem h hproper.1 hproper.2
  | makeAllocatedItem i => exact answersAs_makeAllocatedItem h hproper
  | checkAllocatedItem i => exact answersAs_checkAllocatedItem h hproper.1 hproper.2
  | write i o b => exact answersAs_write h hproper.1 hproper.2.1 hproper.2.2 b
  | read i o => exact answersAs_read h hproper.1 hproper.2.2

/-! ### Runs -/

/-- The bytes and the items side by side. -/
def machine (pool : ItemMaps strategy) (consts : TPoolChekingConsts) :
    Machine (Memory UInt8 × (Nat → Item)) Call where
  init s := s.2 = fun _ => .unmade
  next s c := (pool.call consts s.1 c).map fun r => (r.2, after consts s.2 c)

theorem inStep_of_reachable {s : Memory UInt8 × (Nat → Item)}
    (h : (machine pool consts).ReachableBy (fun s => pool.Proper s.2) s) :
    pool.InStep consts s.1 s.2 := by
  apply h.invariant
  · rintro ⟨mem, items⟩ hinit i -
    obtain rfl : items = fun _ => .unmade := hinit
    trivial
  · intro s c s' hs hproper hnext
    obtain ⟨answer, mem', hcall, -, hstep⟩ := answersAs hs hproper
    simp only [machine, hcall, Option.map_some, Option.some.injEq] at hnext
    exact hnext ▸ hstep

/-- Two items of eight bytes with values of two bytes, on a machine of 32 bits. -/
def twoItems : ItemMaps .withoutAlignment where
  sizeOfNextItem := 4
  maxItemSize := 2
  alignedItemSize := 8
  bufferFirstItem := 16
  amountOfItem := 2
  maxItemSize_pos := by decide
  value_lt := by decide
  free_le := by decide
  allocated_le := by decide
  size_aligned := rfl
  items_aligned _ _ := rfl

end ItemMaps

end Garbage.MemoryPool
