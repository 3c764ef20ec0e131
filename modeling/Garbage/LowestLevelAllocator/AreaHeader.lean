import Garbage.LowestLevelAllocator.PagesAccess
import Mathlib.Order.WellFounded

/-!
# Growing an area of the allocator

An area hands out memory from `_begin` upwards and grows at `_end`, by pages
that `RTReserveVirtualAddress` reserves there.  `tryExtendArea` is to try
`_maxPagesForExtend` pages, then half of them, and so on.  What the system
answers is a function of the address and the size asked for, and a program
keeps the reservations that were made.

The condition of the halving loop is the wrong way round: it goes on after a
reservation that succeeded, and for ever once it is down to one page.  It ends
only with a reservation of more than one page that fails.  So `tryExtendArea`
never extends an area, and does what it is for only where there is nothing to
do.
-/

namespace Garbage.LowestLevelAllocator

open Garbage.Foundation

variable {w : ℕ}

/-- The results of `RTReserveVirtualAddress` with `RT_MAP_NO_RELOCATE`, which
leaves the address as it is. -/
structure VirtualMemory (w : ℕ) extends PageSystem w where
  rtMapSuccess : ℤ
  rtReserveVirtualAddress : BitVec w → BitVec w → ℤ

inductive TResultOfExtendArea
  | success
  | failureThatAndFurtherExtension
  deriving DecidableEq

structure TAreaHeader (w : ℕ) where
  begin_ : BitVec w
  end_ : BitVec w
  maxPagesForExtend : BitVec w
  pageAccess : ℤ
  aligment : BitVec w
  deriving DecidableEq

def TAreaHeader.freeMemoryAtArea (area : TAreaHeader w) : BitVec w := area.end_ - area.begin_

/-- An area, the reservations that succeeded, as address and size, and the calls
of `RTSetPageAccess`. -/
structure AreaState (w : ℕ) where
  area : TAreaHeader w
  reservations : List (BitVec w × BitVec w)
  calls : List (AccessCall w)
  deriving DecidableEq

abbrev AreaProg (w : ℕ) (β : Type) := Prog (AreaState w) Empty β

def isAligned (sizeOrAddress alignStep : BitVec w) : Bool :=
  if alignStep ≤ 1 then true else sizeOrAddress % alignStep == 0

namespace AreaState

def setArea (s : AreaState w) (area : TAreaHeader w) : AreaState w := { s with area := area }

def setCalls (s : AreaState w) (calls : List (AccessCall w)) : AreaState w :=
  { s with calls := calls }

end AreaState

namespace VirtualMemory

variable (vm : VirtualMemory w)

structure CheckInvariant (area : TAreaHeader w) : Prop where
  begin_ne : area.begin_ ≠ 0
  begin_le_end : area.begin_ ≤ area.end_
  aligned_begin : isAligned area.begin_ area.aligment = true
  aligned_end : isAligned area.end_ vm.ramPageSize = true

/-! ### The functions of the header -/

/-- One call of `RTReserveVirtualAddress`. -/
def reserve (address size : BitVec w) : AreaProg w ℤ := do
  if vm.rtReserveVirtualAddress address size = vm.rtMapSuccess then
    Prog.modify fun s => { s with reservations := s.reservations ++ [(address, size)] }
  pure (vm.rtReserveVirtualAddress address size)

/-- One round of the loop of `tryExtendArea`, with `amountPagesForTryExtend` at hand. -/
def tryExtendRound (amount : BitVec w) : AreaProg w (BitVec w ⊕ BitVec w × ℤ) := do
  let s ← Prog.get
  let resultOfReservation ← vm.reserve s.area.end_ (amount * vm.ramPageSize)
  if resultOfReservation = vm.rtMapSuccess ∨ amount ≤ 1 then pure (.inl (amount / 2))
  else pure (.inr (amount, resultOfReservation))

/-- `tryExtendArea` behind its loop. -/
def finishExtend (fuel : ℕ) (amount : BitVec w) (resultOfReservation : ℤ) :
    AreaProg w TResultOfExtendArea := do
  Prog.modify fun s => s.setArea { s.area with maxPagesForExtend := amount }
  if resultOfReservation = vm.rtMapSuccess then do
    let s ← Prog.get
    Prog.zoom AreaState.calls AreaState.setCalls
      (vm.setPagesAccessInPagesAfterReservation fuel s.area.end_ amount s.area.pageAccess)
    Prog.modify fun s => s.setArea { s.area with end_ := s.area.end_ + amount * vm.ramPageSize }
    pure .success
  else do
    Prog.modify fun s => s.setArea { s.area with maxPagesForExtend := 0 }
    pure .failureThatAndFurtherExtension

def tryExtendArea (fuel : ℕ) : AreaProg w TResultOfExtendArea := do
  let s ← Prog.get
  if s.area.maxPagesForExtend ≤ 0 then pure .failureThatAndFurtherExtension
  else do
    let r ← Prog.loop vm.tryExtendRound fuel s.area.maxPagesForExtend
    vm.finishExtend fuel r.1 r.2

def allocateWithoutExtend (size : BitVec w) : AreaProg w (BitVec w) := do
  let s ← Prog.get
  if s.area.freeMemoryAtArea < size then pure 0
  else do
    Prog.modify fun s => s.setArea { s.area with begin_ := s.area.begin_ + size }
    pure s.area.begin_

/-- One round of the loop of `allocateOrNULLWithCantContinueExtendThisArea`, and
the call behind it. -/
def allocateRound (fuel : ℕ) (size : BitVec w) (_ : Unit) : AreaProg w (Unit ⊕ BitVec w) := do
  let s ← Prog.get
  if s.area.freeMemoryAtArea < size then do
    let result ← vm.tryExtendArea fuel
    if result = .failureThatAndFurtherExtension then pure (.inr 0) else pure (.inl ())
  else do
    let result ← allocateWithoutExtend size
    pure (.inr result)

def allocateOrNULLWithCantContinueExtendThisArea (fuel : ℕ) (size : BitVec w) :
    AreaProg w (BitVec w) :=
  Prog.loop (vm.allocateRound fuel size) fuel ()

/-! ### What the functions are for -/

/-- The amounts `max`, `max / 2`, … down to one page. -/
inductive Halving (max : BitVec w) : BitVec w → Prop
  | start (h : max ≠ 0) : Halving max max
  | half {n : BitVec w} (h : Halving max n) (hn : 1 < n) : Halving max (n / 2)

/-- So many pages can be reserved at the end of the area. -/
def Available (area : TAreaHeader w) (n : BitVec w) : Prop :=
  vm.rtReserveVirtualAddress area.end_ (n * vm.ramPageSize) = vm.rtMapSuccess

/-- An area that has been extended by the largest amount that was available, or
left alone where none was. -/
structure Greedy (s s' : AreaState w) : Prop where
  extended : ∀ n, Halving s.area.maxPagesForExtend n → vm.Available s.area n →
    (∀ m, Halving s.area.maxPagesForExtend m → vm.Available s.area m → m ≤ n) →
    s'.area.begin_ = s.area.begin_ ∧
    s'.area.end_.toNat = s.area.end_.toNat + n.toNat * vm.ramPageSize.toNat ∧
    s'.reservations = s.reservations ++ [(s.area.end_, n * vm.ramPageSize)]
  left : (∀ n, Halving s.area.maxPagesForExtend n → ¬ vm.Available s.area n) →
    s'.area.begin_ = s.area.begin_ ∧ s'.area.end_ = s.area.end_ ∧
    s'.area.maxPagesForExtend = 0
  ordered : s'.area.begin_ ≤ s'.area.end_
  aligned_begin : isAligned s'.area.begin_ s'.area.aligment = true
  aligned_end : isAligned s'.area.end_ vm.ramPageSize = true

/-- `tryExtendArea` ends, and the area has grown as it should. -/
def GrowsGreedily (s : AreaState w) : Prop :=
  ∃ fuel r s', vm.tryExtendArea fuel s = some (.ok r, s') ∧ vm.Greedy s s'

/-- The allocation ends, with `NULL` or with the old begin of a block that is
inside the area. -/
def AllocatesOrNULL (size : BitVec w) (s : AreaState w) : Prop :=
  ∃ fuel p s', vm.allocateOrNULLWithCantContinueExtendThisArea fuel size s = some (.ok p, s') ∧
    (p = 0 ∨ p = s.area.begin_ ∧ p.toNat + size.toNat ≤ s'.area.end_.toNat)

/-! ### The amounts that are tried -/

omit vm in
/-- An amount of more than one page is at least two, and the words can say so. -/
theorem two_le_of_one_lt {n : BitVec w} (h : 1 < n) : 2 ≤ n.toNat ∧ (2 : BitVec w).toNat = 2 := by
  have hlt := BitVec.lt_def.mp h
  have hn := n.isLt
  have hone : (1 : BitVec w).toNat = 1 % 2 ^ w := BitVec.toNat_ofNat 1 w
  have htwo : (2 : BitVec w).toNat = 2 % 2 ^ w := BitVec.toNat_ofNat 2 w
  have hpow : 2 ≤ 2 ^ w := by
    by_contra hw
    have : (1 : ℕ) % 2 ^ w = 0 := by
      obtain h1 : 2 ^ w = 1 := by
        have := Nat.two_pow_pos w
        omega
      rw [h1]
    omega
  rw [Nat.mod_eq_of_lt (by omega)] at hone
  have h2 : 2 ≤ n.toNat := by omega
  rw [Nat.mod_eq_of_lt (by omega)] at htwo
  exact ⟨h2, htwo⟩

omit vm in
theorem toNat_half {n : BitVec w} (h : 1 < n) : (n / 2).toNat = n.toNat / 2 := by
  rw [BitVec.toNat_udiv, (two_le_of_one_lt h).2]

namespace Halving

omit vm

variable {max n : BitVec w}

theorem ne_zero (h : Halving max n) : n ≠ 0 := by
  induction h with
  | start h => exact h
  | half h hn ih =>
    intro hzero
    have h2 := two_le_of_one_lt hn
    have htoNat := toNat_half hn
    rw [hzero] at htoNat
    simp at htoNat
    omega

theorem le (h : Halving max n) : n ≤ max := by
  induction h with
  | start h => exact BitVec.le_refl _
  | half h hn ih =>
    rw [BitVec.le_def] at ih ⊢
    rw [toNat_half hn]
    omega

theorem head (h : Halving max n) : n = max ∨ 1 < max ∧ Halving (max / 2) n := by
  induction h with
  | start h => exact .inl rfl
  | @half m h hn ih =>
    rcases ih with rfl | ⟨hmax, h'⟩
    · exact .inr ⟨hn, .start (Halving.half h hn).ne_zero⟩
    · exact .inr ⟨hmax, .half h' hn⟩

end Halving

/-! ### The loop over the amounts -/

variable {vm} {s s' : AreaState w} {n size : BitVec w} {fuel : ℕ}

theorem exists_reserve (vm : VirtualMemory w) (address size : BitVec w) (s : AreaState w) :
    ∃ s', vm.reserve address size s =
      some (.ok (vm.rtReserveVirtualAddress address size), s') ∧ s'.area = s.area := by
  by_cases h : vm.rtReserveVirtualAddress address size = vm.rtMapSuccess
  · refine ⟨{ s with reservations := s.reservations ++ [(address, size)] }, ?_, rfl⟩
    unfold reserve
    rw [if_pos h]
    rfl
  · refine ⟨s, ?_, rfl⟩
    unfold reserve
    rw [if_neg h]
    rfl

/-- A round goes on after a success, and always with one page or none. -/
theorem tryExtendRound_goes_on (vm : VirtualMemory w) (h : vm.Available s.area n ∨ n ≤ 1) :
    ∃ s', vm.tryExtendRound n s = some (.ok (.inl (n / 2)), s') ∧ s'.area = s.area := by
  obtain ⟨s', hs', harea⟩ := exists_reserve vm s.area.end_ (n * vm.ramPageSize) s
  refine ⟨s', ?_, harea⟩
  exact (Prog.bind_of_ok hs' _).trans (congrFun (if_pos h) s')

/-- A round answers after a failure with more than one page. -/
theorem tryExtendRound_answers (hn : 1 < n) (h : ¬ vm.Available s.area n) :
    ∃ result s', vm.tryExtendRound n s = some (.ok (.inr (n, result)), s') ∧
      result ≠ vm.rtMapSuccess ∧ s'.area = s.area := by
  obtain ⟨s', hs', harea⟩ := exists_reserve vm s.area.end_ (n * vm.ramPageSize) s
  refine ⟨_, s', ?_, h, harea⟩
  have hor : ¬ (vm.Available s.area n ∨ n ≤ 1) := fun hor =>
    hor.elim h (BitVec.not_le.mpr hn)
  exact (Prog.bind_of_ok hs' _).trans (congrFun (if_neg hor) s')

/-- What a round can do: it goes on as it must, or it answers with a failure. -/
theorem tryExtendRound_cases (vm : VirtualMemory w) (n : BitVec w) (s : AreaState w) :
    (∃ s', vm.tryExtendRound n s = some (.ok (.inl (n / 2)), s') ∧ s'.area = s.area) ∨
      ∃ result s', vm.tryExtendRound n s = some (.ok (.inr (n, result)), s') ∧
        result ≠ vm.rtMapSuccess ∧ s'.area = s.area := by
  by_cases h : vm.Available s.area n ∨ n ≤ 1
  · exact .inl (tryExtendRound_goes_on vm h)
  · rw [not_or] at h
    exact .inr (tryExtendRound_answers (BitVec.not_le.mp h.2) h.1)

/-- The loop never answers with a success, and it leaves the area alone. -/
theorem loop_tryExtendRound {max : BitVec w} {r : Except Empty (BitVec w × ℤ)}
    (h : Prog.loop vm.tryExtendRound fuel max s = some (r, s')) :
    ∃ amount result, r = .ok (amount, result) ∧ result ≠ vm.rtMapSuccess ∧
      s'.area = s.area := by
  refine Prog.loop_outcome (I := fun _ t => t.area = s.area)
    (Q := fun r t => ∃ amount result, r = .ok (amount, result) ∧
      result ≠ vm.rtMapSuccess ∧ t.area = s.area) ?_ ?_ ?_ fuel max s r s' rfl h
  · intro b t b' t' ht hb
    rcases tryExtendRound_cases vm b t with ⟨t'', hgo, harea⟩ | ⟨_, t'', hans, -, -⟩
    · rw [hgo] at hb
      cases hb
      exact harea.trans ht
    · rw [hans] at hb
      cases hb
  · intro b t c t' ht hb
    rcases tryExtendRound_cases vm b t with ⟨t'', hgo, -⟩ | ⟨result, t'', hans, hres, harea⟩
    · rw [hgo] at hb
      cases hb
    · rw [hans] at hb
      cases hb
      exact ⟨b, result, rfl, hres, harea.trans ht⟩
  · intro b t e
    exact e.elim

/-- Where an amount of more than one page is not available, the loop ends. -/
theorem wp_loop_tryExtendRound {max : BitVec w} (hn : Halving max n) (hlt : 1 < n)
    (hna : ¬ vm.Available s.area n) (hfuel : max.toNat < fuel) :
    Prog.wp (Prog.loop vm.tryExtendRound fuel max) (fun _ _ => True) (fun _ _ => False) s := by
  refine Prog.wp_loop (I := fun m b t => m = b.toNat ∧ t.area = s.area ∧ Halving b n) ?_
    fuel max.toNat max s ⟨rfl, rfl, hn⟩ hfuel
  rintro m b t ⟨rfl, ht, hb⟩
  by_cases hgo : vm.Available t.area b ∨ b ≤ 1
  · obtain ⟨t', ht', harea⟩ := tryExtendRound_goes_on vm hgo
    rw [Prog.wp_iff_of_ok ht']
    have hne : n ≠ b := by
      rintro rfl
      rw [ht] at hgo
      exact hgo.elim hna (BitVec.not_le.mpr hlt)
    obtain ⟨hb1, hhalf⟩ := hb.head.resolve_left hne
    refine ⟨_, ?_, rfl, harea.trans ht, hhalf⟩
    rw [toNat_half hb1]
    have h2 := two_le_of_one_lt hb1
    omega
  · rw [not_or] at hgo
    obtain ⟨result, t', ht', -, -⟩ := tryExtendRound_answers (BitVec.not_le.mp hgo.2) hgo.1
    rw [Prog.wp_iff_of_ok ht']
    trivial

/-- Where all amounts of more than one page are available, the loop never ends. -/
theorem loop_tryExtendRound_eq_none {max : BitVec w} (hmax : max ≠ 0)
    (h : ∀ n, Halving max n → 1 < n → vm.Available s.area n) :
    Prog.loop vm.tryExtendRound fuel max s = none := by
  apply Prog.loop_eq_none (I := fun b t => t.area = s.area ∧ (Halving max b ∨ b ≤ 1))
  · rintro b t ⟨ht, hb⟩
    by_cases hle : b ≤ 1
    · obtain ⟨t', ht', harea⟩ := tryExtendRound_goes_on vm (s := t) (.inr hle)
      refine ⟨_, t', ht', harea.trans ht, .inr (BitVec.le_trans ?_ hle)⟩
      rw [BitVec.le_def, BitVec.toNat_udiv]
      exact Nat.div_le_self _ _
    · have hhalf := hb.resolve_right hle
      have hlt := BitVec.not_le.mp hle
      have havail : vm.Available t.area b := by
        rw [ht]
        exact h b hhalf hlt
      obtain ⟨t', ht', harea⟩ := tryExtendRound_goes_on vm (.inl havail)
      exact ⟨_, t', ht', harea.trans ht, .inl (.half hhalf hlt)⟩
  · exact ⟨rfl, .inl (.start hmax)⟩

/-! ### Extending the area -/

/-- There is nothing to try, or an amount of more than one page is not available. -/
def MeetsFailure (vm : VirtualMemory w) (area : TAreaHeader w) : Prop :=
  area.maxPagesForExtend = 0 ∨
    ∃ n, Halving area.maxPagesForExtend n ∧ 1 < n ∧ ¬ vm.Available area n

theorem tryExtendArea_of_eq (hmax : s.area.maxPagesForExtend = 0) :
    vm.tryExtendArea fuel s = some (.ok .failureThatAndFurtherExtension, s) := by
  have hle : s.area.maxPagesForExtend ≤ 0 := hmax ▸ BitVec.le_refl _
  exact congrFun (if_pos hle) s

theorem tryExtendArea_of_ne (hmax : s.area.maxPagesForExtend ≠ 0) :
    vm.tryExtendArea fuel s =
      (Prog.loop vm.tryExtendRound fuel s.area.maxPagesForExtend >>= fun r =>
        vm.finishExtend fuel r.1 r.2) s := by
  have hle : ¬ s.area.maxPagesForExtend ≤ 0 := fun hle =>
    hmax (BitVec.eq_of_toNat_eq (Nat.le_zero.mp (BitVec.le_def.mp hle)))
  exact congrFun (if_neg hle) s

/-- After a failure the code behind the loop disables further extension. -/
theorem finishExtend_of_ne {amount : BitVec w} {result : ℤ} (h : result ≠ vm.rtMapSuccess) :
    vm.finishExtend fuel amount result s = some (.ok .failureThatAndFurtherExtension,
      s.setArea { s.area with maxPagesForExtend := 0 }) :=
  congrFun (if_neg h) _

/-- **The area is never extended.**  Whenever `tryExtendArea` returns, it says
that it failed and has only disabled further extension. -/
theorem tryExtendArea_outcome {r : Except Empty TResultOfExtendArea}
    (h : vm.tryExtendArea fuel s = some (r, s')) :
    r = .ok .failureThatAndFurtherExtension ∧
      s'.area = { s.area with maxPagesForExtend := 0 } := by
  by_cases hmax : s.area.maxPagesForExtend = 0
  · rw [tryExtendArea_of_eq hmax] at h
    cases h
    exact ⟨rfl, by rw [← hmax]⟩
  · rw [tryExtendArea_of_ne hmax] at h
    cases hloop : Prog.loop vm.tryExtendRound fuel s.area.maxPagesForExtend s with
    | none =>
      rw [Prog.bind_of_none hloop] at h
      cases h
    | some o =>
      obtain ⟨o, t⟩ := o
      obtain ⟨amount, result, rfl, hres, harea⟩ := loop_tryExtendRound hloop
      rw [Prog.bind_of_ok hloop, finishExtend_of_ne hres] at h
      cases h
      refine ⟨rfl, ?_⟩
      show { t.area with maxPagesForExtend := 0 } = _
      rw [harea]

/-- Where it meets a failure, `tryExtendArea` returns. -/
theorem exists_tryExtendArea (h : MeetsFailure vm s.area)
    (hfuel : s.area.maxPagesForExtend.toNat < fuel) :
    ∃ s', vm.tryExtendArea fuel s = some (.ok .failureThatAndFurtherExtension, s') ∧
      s'.area = { s.area with maxPagesForExtend := 0 } := by
  have hruns : ∃ r s', vm.tryExtendArea fuel s = some (r, s') := by
    by_cases hmax : s.area.maxPagesForExtend = 0
    · exact ⟨_, _, tryExtendArea_of_eq hmax⟩
    · obtain ⟨n, hn, hlt, hna⟩ := h.resolve_left hmax
      obtain ⟨b, t, hloop, -⟩ := (wp_loop_tryExtendRound hn hlt hna hfuel).returns
      obtain ⟨amount, result, hb, hres, -⟩ := loop_tryExtendRound hloop
      cases hb
      rw [tryExtendArea_of_ne hmax, Prog.bind_of_ok hloop, finishExtend_of_ne hres]
      exact ⟨_, _, rfl⟩
  obtain ⟨r, s', hr⟩ := hruns
  obtain ⟨rfl, harea⟩ := tryExtendArea_outcome hr
  exact ⟨s', hr, harea⟩

/-- Where it does not, it never returns. -/
theorem tryExtendArea_eq_none (h : ¬ MeetsFailure vm s.area) :
    vm.tryExtendArea fuel s = none := by
  unfold MeetsFailure at h
  rw [not_or] at h
  rw [tryExtendArea_of_ne h.1]
  apply Prog.bind_of_none
  apply loop_tryExtendRound_eq_none h.1
  intro n hn hlt
  by_contra hna
  exact h.2 ⟨n, hn, hlt, hna⟩

theorem meetsFailure_of_some {r : Except Empty TResultOfExtendArea}
    (h : vm.tryExtendArea fuel s = some (r, s')) : MeetsFailure vm s.area := by
  by_contra hno
  rw [tryExtendArea_eq_none hno] at h
  cases h

omit vm in
/-- Among the words with a property there is a largest one. -/
theorem exists_largest {P : BitVec w → Prop} (h : ∃ n, P n) : ∃ n, P n ∧ ∀ m, P m → m ≤ n := by
  have hwf := InvImage.wf (fun n : BitVec w => 2 ^ w - n.toNat) Nat.lt_wfRel.wf
  obtain ⟨n, hn, hmin⟩ := hwf.has_min {n | P n} h
  refine ⟨n, hn, fun m hm => ?_⟩
  have hnot : ¬ 2 ^ w - m.toNat < 2 ^ w - n.toNat := hmin m hm
  have hm' := m.isLt
  rw [BitVec.le_def]
  omega

/-- An area that was not extended is greedy only where nothing was available. -/
theorem Greedy.not_available (h : vm.Greedy s s') (hend : s'.area.end_ = s.area.end_)
    (hn : Halving s.area.maxPagesForExtend n) : ¬ vm.Available s.area n := by
  intro hav
  obtain ⟨m, ⟨hm, hmav⟩, hlargest⟩ :=
    exists_largest (P := fun m => Halving s.area.maxPagesForExtend m ∧ vm.Available s.area m)
      ⟨n, hn, hav⟩
  have hext := (h.extended m hm hmav fun k hk hkav => hlargest k ⟨hk, hkav⟩).2.1
  have hpos : 0 < m.toNat := by
    apply Nat.pos_of_ne_zero
    intro hzero
    exact hm.ne_zero (BitVec.eq_of_toNat_eq hzero)
  have hmul := Nat.mul_pos hpos vm.ramPageSize_pos
  rw [hend] at hext
  omega

theorem greedy_of_not_available (hinv : vm.CheckInvariant s.area)
    (hna : ∀ n, Halving s.area.maxPagesForExtend n → ¬ vm.Available s.area n)
    (harea : s'.area = { s.area with maxPagesForExtend := 0 }) : vm.Greedy s s' where
  extended n hn hav := absurd hav (hna n hn)
  left _ := by
    rw [harea]
    exact ⟨rfl, rfl, rfl⟩
  ordered := by
    rw [harea]
    exact hinv.begin_le_end
  aligned_begin := by
    rw [harea]
    exact hinv.aligned_begin
  aligned_end := by
    rw [harea]
    exact hinv.aligned_end

theorem growsGreedily_iff (hinv : vm.CheckInvariant s.area) :
    vm.GrowsGreedily s ↔ s.area.maxPagesForExtend = 0 ∨
      1 < s.area.maxPagesForExtend ∧
        ∀ n, Halving s.area.maxPagesForExtend n → ¬ vm.Available s.area n := by
  constructor
  · rintro ⟨fuel, r, s', hrun, hgreedy⟩
    obtain ⟨-, harea⟩ := tryExtendArea_outcome hrun
    rcases meetsFailure_of_some hrun with hmax | ⟨n, hn, hlt, -⟩
    · exact .inl hmax
    · right
      have hend : s'.area.end_ = s.area.end_ := by rw [harea]
      have hmax := Nat.lt_of_lt_of_le (BitVec.lt_def.mp hlt) (BitVec.le_def.mp hn.le)
      exact ⟨BitVec.lt_def.mpr hmax, fun n hn => hgreedy.not_available hend hn⟩
  · intro h
    have hna : ∀ n, Halving s.area.maxPagesForExtend n → ¬ vm.Available s.area n := by
      rcases h with hmax | ⟨-, hna⟩
      · intro n hn
        rw [hmax] at hn
        have hle := BitVec.le_def.mp hn.le
        exact absurd (BitVec.eq_of_toNat_eq (Nat.le_zero.mp hle)) hn.ne_zero
      · exact hna
    have hmeets : MeetsFailure vm s.area := by
      by_cases hmax : s.area.maxPagesForExtend = 0
      · exact .inl hmax
      · have hlt := (h.resolve_left hmax).1
        exact .inr ⟨_, .start hmax, hlt, hna _ (.start hmax)⟩
    obtain ⟨s', hrun, harea⟩ := exists_tryExtendArea hmeets (Nat.lt_succ_self _)
    exact ⟨_, _, s', hrun, greedy_of_not_available hinv hna harea⟩

/-! ### Allocating -/

theorem toNat_freeMemoryAtArea (hinv : vm.CheckInvariant s.area) :
    s.area.freeMemoryAtArea.toNat = s.area.end_.toNat - s.area.begin_.toNat :=
  BitVec.toNat_sub_of_le hinv.begin_le_end

theorem allocateRound_of_le (h : size ≤ s.area.freeMemoryAtArea) :
    vm.allocateRound fuel size () s = some (.ok (.inr s.area.begin_),
      s.setArea { s.area with begin_ := s.area.begin_ + size }) := by
  have hnot : ¬ s.area.freeMemoryAtArea < size := BitVec.not_lt.mpr h
  have hallocate : allocateWithoutExtend size s = some (.ok s.area.begin_,
      s.setArea { s.area with begin_ := s.area.begin_ + size }) := congrFun (if_neg hnot) s
  exact (congrFun (if_neg hnot) s).trans (Prog.bind_of_ok hallocate _)

/-- Else it first tries to extend the area. -/
theorem allocateRound_of_lt (h : s.area.freeMemoryAtArea < size) :
    vm.allocateRound fuel size () s = (vm.tryExtendArea fuel >>= fun result =>
      if result = .failureThatAndFurtherExtension then pure (.inr 0) else pure (.inl ())) s :=
  congrFun (if_pos h) s

theorem allocatesOrNULL_iff (hinv : vm.CheckInvariant s.area) :
    vm.AllocatesOrNULL size s ↔
      size ≤ s.area.freeMemoryAtArea ∨ MeetsFailure vm s.area := by
  constructor
  · rintro ⟨fuel, p, s', hrun, -⟩
    by_contra hno
    rw [not_or] at hno
    have hround : vm.allocateRound fuel size () s = none := by
      rw [allocateRound_of_lt (BitVec.not_le.mp hno.1)]
      exact Prog.bind_of_none (tryExtendArea_eq_none hno.2) _
    unfold allocateOrNULLWithCantContinueExtendThisArea at hrun
    rw [Prog.loop_of_none hround] at hrun
    cases hrun
  · intro h
    by_cases hle : size ≤ s.area.freeMemoryAtArea
    · refine ⟨1, s.area.begin_, _, Prog.loop_of_answer (allocateRound_of_le hle) 0, .inr ⟨rfl, ?_⟩⟩
      have hfree := toNat_freeMemoryAtArea hinv
      have hbe := BitVec.le_def.mp hinv.begin_le_end
      rw [BitVec.le_def] at hle
      show s.area.begin_.toNat + size.toNat ≤ s.area.end_.toNat
      omega
    · obtain ⟨s', hrun, -⟩ :=
        exists_tryExtendArea (h.resolve_left hle) (Nat.lt_succ_self _)
      have hround : vm.allocateRound (s.area.maxPagesForExtend.toNat + 1) size () s =
          some (.ok (.inr 0), s') := by
        rw [allocateRound_of_lt (BitVec.not_le.mp hle), Prog.bind_of_ok hrun]
        rfl
      exact ⟨_, 0, s', Prog.loop_of_answer hround _, .inl rfl⟩

/-- **When the growth does what it is for.**  An area extends itself rightly
exactly if it has nothing to try, or more than one page to try and none of the
amounts is available.  An allocation returns exactly if the memory is there
already, or an attempt at more than one page fails. -/
theorem growth_iff (vm : VirtualMemory w) (s : AreaState w) (hinv : vm.CheckInvariant s.area) :
    (vm.GrowsGreedily s ↔ s.area.maxPagesForExtend = 0 ∨
      1 < s.area.maxPagesForExtend ∧
        ∀ n, Halving s.area.maxPagesForExtend n → ¬ vm.Available s.area n) ∧
    ∀ size, vm.AllocatesOrNULL size s ↔ size ≤ s.area.freeMemoryAtArea ∨
      s.area.maxPagesForExtend = 0 ∨
        ∃ n, Halving s.area.maxPagesForExtend n ∧ 1 < n ∧ ¬ vm.Available s.area n :=
  ⟨growsGreedily_iff hinv, fun _ => allocatesOrNULL_iff hinv⟩

/-- A system that can reserve up to `limit` bytes. -/
def reservesUpTo (limit : BitVec 32) : VirtualMemory 32 where
  toPageSystem := PageSystem.pagesOf4096
  rtMapSuccess := 0
  rtReserveVirtualAddress _ size := if size ≤ limit then 0 else 1

/-- One free page, and two pages to try. -/
def onePage : AreaState 32 where
  area := ⟨4096#32, 8192#32, 2#32, 1, 4#32⟩
  reservations := []
  calls := []

theorem checkInvariant_onePage (limit : BitVec 32) :
    (reservesUpTo limit).CheckInvariant onePage.area where
  begin_ne := by decide
  begin_le_end := by decide
  aligned_begin := by decide
  aligned_end := by
    show isAligned 8192#32 4096#32 = true
    decide

theorem available_onePage {limit : BitVec 32} (n : BitVec 32) :
    (reservesUpTo limit).Available onePage.area n ↔ n * 4096#32 ≤ limit := by
  by_cases h : n * 4096#32 ≤ limit
  · exact iff_of_true (if_pos h) h
  · refine iff_of_false (fun hav => ?_) h
    have hone : (1 : ℤ) = 0 := (if_neg h).symm.trans hav
    cases hone

omit vm in
theorem halving_two {n : BitVec 32} (h : Halving 2#32 n) : n = 2#32 ∨ n = 1#32 := by
  rcases h.head with rfl | ⟨-, h⟩
  · exact .inl rfl
  · rcases h.head with rfl | ⟨hlt, -⟩
    · exact .inr rfl
    · exact absurd hlt (by decide)

theorem growth_iff_onePage :
    (reservesUpTo 0#32).CheckInvariant onePage.area ∧
      (reservesUpTo 0#32).GrowsGreedily onePage ∧
      (reservesUpTo 0#32).AllocatesOrNULL 5000#32 onePage := by
  have h := growth_iff (reservesUpTo 0#32) onePage (checkInvariant_onePage 0#32)
  have hna : ∀ n, Halving 2#32 n → ¬ (reservesUpTo 0#32).Available onePage.area n := by
    intro n hn
    rw [available_onePage]
    rcases halving_two hn with rfl | rfl <;> decide
  have hstart : Halving 2#32 2#32 := .start (by decide)
  exact ⟨checkInvariant_onePage 0#32, h.1.mpr (.inr ⟨by decide, hna⟩),
    (h.2 5000#32).mpr (.inr (.inr ⟨2#32, hstart, by decide, hna _ hstart⟩))⟩

/-- Every reservation succeeds, and the attempt to extend the area never ends.
Only one page can be reserved, and the attempt gives up before it asks for it. -/
theorem tryExtendArea_not_greedy :
    (∀ fuel, (reservesUpTo 8192#32).tryExtendArea fuel onePage = none) ∧
      ¬ (reservesUpTo 8192#32).GrowsGreedily onePage ∧
      ¬ (reservesUpTo 8192#32).AllocatesOrNULL 5000#32 onePage ∧
      (reservesUpTo 4096#32).tryExtendArea 3 onePage =
        some (.ok .failureThatAndFurtherExtension,
          onePage.setArea { onePage.area with maxPagesForExtend := 0#32 }) ∧
      ¬ (reservesUpTo 4096#32).GrowsGreedily onePage := by
  have hno : ¬ MeetsFailure (reservesUpTo 8192#32) onePage.area := by
    rintro (hmax | ⟨n, hn, -, hna⟩)
    · exact absurd hmax (by decide)
    · rw [available_onePage] at hna
      rcases halving_two hn with rfl | rfl <;> exact hna (by decide)
  have hone : Halving 2#32 (2#32 / 2) := .half (.start (by decide)) (by decide)
  have hnot : ∀ limit, 4096#32 ≤ limit → ¬ (reservesUpTo limit).GrowsGreedily onePage := by
    intro limit hlimit hgrows
    rcases (growsGreedily_iff (checkInvariant_onePage limit)).mp hgrows with hmax | ⟨-, hna⟩
    · exact absurd hmax (by decide)
    · exact hna _ hone ((available_onePage _).mpr hlimit)
  refine ⟨fun _ => tryExtendArea_eq_none hno, hnot _ (by decide), ?_, rfl, hnot _ (by decide)⟩
  intro hallocates
  rcases (allocatesOrNULL_iff (checkInvariant_onePage _)).mp hallocates with hle | hmeets
  · exact absurd hle (by decide)
  · exact hno hmeets

end VirtualMemory

end Garbage.LowestLevelAllocator
