import Garbage.Foundation.Prog
import Mathlib.Data.BitVec

/-!
# Setting the access of the pages of a region

The allocator of the lowest level sets the access of memory page by page.  An
address and a `size_t` are words of `w` bits, so sums and products wrap, and
`RTSetPageAccess` is an entry in the list of the calls made: it sets the access
of the page its address is in.  The header does arithmetic on `void*`, which is
read as arithmetic on addresses, and `CPL0_ASSERT` does nothing.

`SetPagesAccess(Begin, End, Access)` returns when `Begin<=End`, although the
assertions above it say `Begin<End`, so it never comes to its loop for a region
that is not empty.  The other five functions end in it.  Behind the guard the
loop and the extra call for the last page are right: they touch exactly the
pages of the region.
-/

namespace Garbage.LowestLevelAllocator

open Garbage.Foundation

variable {w : ℕ}

/-- The size of a page and the access right that `AfterReservation` skips. -/
structure PageSystem (w : ℕ) where
  ramPageSize : BitVec w
  rtPgNoAccess : ℤ
  ramPageSize_pos : 0 < ramPageSize.toNat

/-- One call of `RTSetPageAccess`. -/
structure AccessCall (w : ℕ) where
  address : BitVec w
  access : ℤ
  deriving DecidableEq

/-- Programs that call `RTSetPageAccess`: the state is the calls so far. -/
abbrev PageProg (w : ℕ) (β : Type) := Prog (List (AccessCall w)) Empty β

def rtSetPageAccess (address : BitVec w) (access : ℤ) : PageProg w Unit :=
  Prog.modify fun calls => calls ++ [⟨address, access⟩]

namespace PageSystem

variable (sys : PageSystem w)

/-- The number of the page an address is in. -/
def page (address : ℕ) : ℕ := address / sys.ramPageSize.toNat

/-! ### The functions of the header -/

/-- One round of the loop of `SetPagesAccess`, with `current` at hand. -/
def setPagesAccessRound (end_ : BitVec w) (access : ℤ) (current : BitVec w) :
    PageProg w (BitVec w ⊕ Unit) :=
  if current < end_ then do
    rtSetPageAccess current access
    pure (.inl (current + sys.ramPageSize))
  else pure (.inr ())

/-- The body of `SetPagesAccess` behind its guards. -/
def setPagesAccessBody (fuel : ℕ) (begin_ end_ : BitVec w) (access : ℤ) : PageProg w Unit := do
  Prog.loop (sys.setPagesAccessRound end_ access) fuel begin_
  if end_ % sys.ramPageSize ≠ 0 then rtSetPageAccess end_ access else pure ()

/-- The guards of the functions on a region from `Begin` to `End`.  The second
one is `if(Begin<=End) return;`. -/
def forRegion (begin_ end_ : BitVec w) (x : PageProg w Unit) : PageProg w Unit :=
  if begin_ = 0 then pure ()
  else if begin_ ≤ end_ then pure ()
  else x

/-- The guards of the functions on an address and an amount. -/
def forAmount (address amount : BitVec w) (x : PageProg w Unit) : PageProg w Unit :=
  if address = 0 then pure ()
  else if amount ≤ 0 then pure ()
  else x

/-- `SetPagesAccess(Begin, End, Access)`. -/
def setPagesAccess (fuel : ℕ) (begin_ end_ : BitVec w) (access : ℤ) : PageProg w Unit :=
  forRegion begin_ end_ (sys.setPagesAccessBody fuel begin_ end_ access)

/-- `SetPagesAccess(Address, Size, Access)`. -/
def setPagesAccessOfSize (fuel : ℕ) (address size : BitVec w) (access : ℤ) : PageProg w Unit :=
  forAmount address size (sys.setPagesAccess fuel address (address + size) access)

/-- `SetPagesAccessInPages`.  It passes the product as the end address, without
adding it to `Address`. -/
def setPagesAccessInPages (fuel : ℕ) (address amountOfPage : BitVec w) (access : ℤ) :
    PageProg w Unit :=
  forAmount address amountOfPage
    (sys.setPagesAccess fuel address (amountOfPage * sys.ramPageSize) access)

/-- `SetPagesAccessAfterReservation(Begin, End, Access)`. -/
def setPagesAccessAfterReservation (fuel : ℕ) (begin_ end_ : BitVec w) (access : ℤ) :
    PageProg w Unit :=
  forRegion begin_ end_
    (if access ≠ sys.rtPgNoAccess then sys.setPagesAccess fuel begin_ end_ access else pure ())

/-- `SetPagesAccessAfterReservation(Address, Size, Access)`. -/
def setPagesAccessOfSizeAfterReservation (fuel : ℕ) (address size : BitVec w) (access : ℤ) :
    PageProg w Unit :=
  forAmount address size
    (if access ≠ sys.rtPgNoAccess then sys.setPagesAccessOfSize fuel address size access
      else pure ())

def setPagesAccessInPagesAfterReservation (fuel : ℕ) (address amountOfPage : BitVec w)
    (access : ℤ) : PageProg w Unit :=
  forAmount address amountOfPage
    (if access ≠ sys.rtPgNoAccess then sys.setPagesAccessInPages fuel address amountOfPage access
      else pure ())

/-! ### What the functions are for -/

/-- The calls set `access` on exactly the pages that have an address in `[b, e)`. -/
structure Covers (b e : ℕ) (access : ℤ) (calls : List (AccessCall w)) : Prop where
  access_eq : ∀ call ∈ calls, call.access = access
  pages : ∀ q, (∃ call ∈ calls, sys.page call.address.toNat = q) ↔
    ∃ a, b ≤ a ∧ a < e ∧ sys.page a = q

/-- Given enough rounds, the function ends and its calls cover `[b, e)`. -/
def SetsPages (x : ℕ → PageProg w Unit) (b e : ℕ) (access : ℤ) : Prop :=
  ∃ fuel calls, x fuel [] = some (.ok (), calls) ∧ sys.Covers b e access calls

/-! ### No function makes a call -/

/-- However it ends, the program has made no call. -/
def Silent (x : PageProg w Unit) : Prop :=
  ∀ calls r calls', x calls = some (r, calls') → calls' = calls

omit sys in
theorem silent_pure : Silent (pure () : PageProg w Unit) := by
  intro calls r calls' h
  cases h
  rfl

omit sys in
theorem silent_ite {c : Prop} [Decidable c] {x y : PageProg w Unit} (hx : c → Silent x)
    (hy : ¬ c → Silent y) : Silent (if c then x else y) := by
  by_cases h : c
  · rw [if_pos h]
    exact hx h
  · rw [if_neg h]
    exact hy h

omit sys in
/-- The reversed guard lets no region through that has its end behind its begin. -/
theorem silent_forRegion {begin_ end_ : BitVec w} {x : PageProg w Unit}
    (hx : end_ < begin_ → Silent x) : Silent (forRegion begin_ end_ x) := by
  apply silent_ite (fun _ => silent_pure)
  intro _
  apply silent_ite (fun _ => silent_pure)
  intro hle
  exact hx (BitVec.not_le.mp hle)

omit sys in
theorem silent_forAmount {address amount : BitVec w} {x : PageProg w Unit} (hx : Silent x) :
    Silent (forAmount address amount x) :=
  silent_ite (fun _ => silent_pure) fun _ => silent_ite (fun _ => silent_pure) fun _ => hx

variable {sys} {fuel : ℕ} {begin_ end_ address size amountOfPage : BitVec w} {access : ℤ}

theorem silent_setPagesAccess_of_lt (h : begin_ < end_) :
    Silent (sys.setPagesAccess fuel begin_ end_ access) :=
  silent_forRegion fun hlt => absurd (BitVec.lt_trans h hlt) (BitVec.lt_irrefl _)

/-- Where the end is at a page boundary, no region has a call: not from the
guard on, or not in the loop, and there is no last page. -/
theorem silent_setPagesAccess_of_mod_eq_zero (h : end_ % sys.ramPageSize = 0) :
    Silent (sys.setPagesAccess fuel begin_ end_ access) := by
  apply silent_forRegion
  intro hlt calls r calls' hx
  have hround : sys.setPagesAccessRound end_ access begin_ = pure (.inr ()) :=
    if_neg fun hlt' => BitVec.lt_irrefl _ (BitVec.lt_trans hlt hlt')
  unfold setPagesAccessBody at hx
  rw [if_neg (not_not.mpr h)] at hx
  cases fuel with
  | zero => cases hx
  | succ fuel =>
    rw [Prog.loop, hround] at hx
    cases hx
    rfl

theorem mul_ramPageSize_mod (h : amountOfPage.toNat * sys.ramPageSize.toNat < 2 ^ w) :
    amountOfPage * sys.ramPageSize % sys.ramPageSize = 0 := by
  apply BitVec.eq_of_toNat_eq
  rw [BitVec.toNat_umod, BitVec.toNat_mul, Nat.mod_eq_of_lt h, Nat.mul_mod_left]
  rfl

theorem silent_setPagesAccessOfSize (hsize : 0 < size.toNat)
    (h : address.toNat + size.toNat < 2 ^ w) :
    Silent (sys.setPagesAccessOfSize fuel address size access) := by
  apply silent_forAmount
  apply silent_setPagesAccess_of_lt
  rw [BitVec.lt_def, BitVec.toNat_add, Nat.mod_eq_of_lt h]
  omega

theorem silent_setPagesAccessInPages
    (h : amountOfPage.toNat * sys.ramPageSize.toNat < 2 ^ w) :
    Silent (sys.setPagesAccessInPages fuel address amountOfPage access) :=
  silent_forAmount (silent_setPagesAccess_of_mod_eq_zero (mul_ramPageSize_mod h))

/-- A region that is not empty has a page, so no silent function covers it. -/
theorem not_setsPages_of_silent {x : ℕ → PageProg w Unit} {b e : ℕ} (hbe : b < e)
    (hx : ∀ fuel, Silent (x fuel)) : ¬ sys.SetsPages x b e access := by
  rintro ⟨fuel, calls, hcalls, hcovers⟩
  obtain rfl : calls = [] := hx fuel [] _ calls hcalls
  obtain ⟨call, hmem, -⟩ := (hcovers.pages (sys.page b)).mpr ⟨b, le_rfl, hbe, rfl⟩
  cases hmem

/-- **No region gets its access.**  Each of the six functions returns without a
call of `RTSetPageAccess`, for every region that is not empty. -/
theorem not_setsPages (sys : PageSystem w) (access : ℤ) :
    (∀ begin_ end_ : BitVec w, begin_ ≠ 0 → begin_ < end_ →
      ¬ sys.SetsPages (fun fuel => sys.setPagesAccess fuel begin_ end_ access)
        begin_.toNat end_.toNat access) ∧
    (∀ address size : BitVec w, address ≠ 0 → 0 < size.toNat →
      address.toNat + size.toNat < 2 ^ w →
      ¬ sys.SetsPages (fun fuel => sys.setPagesAccessOfSize fuel address size access)
        address.toNat (address.toNat + size.toNat) access) ∧
    (∀ address n : BitVec w, address ≠ 0 → 0 < n.toNat →
      address.toNat + n.toNat * sys.ramPageSize.toNat < 2 ^ w →
      ¬ sys.SetsPages (fun fuel => sys.setPagesAccessInPages fuel address n access)
        address.toNat (address.toNat + n.toNat * sys.ramPageSize.toNat) access) ∧
    (access ≠ sys.rtPgNoAccess →
      (∀ begin_ end_ : BitVec w, begin_ ≠ 0 → begin_ < end_ →
        ¬ sys.SetsPages (fun fuel => sys.setPagesAccessAfterReservation fuel begin_ end_ access)
          begin_.toNat end_.toNat access) ∧
      (∀ address size : BitVec w, address ≠ 0 → 0 < size.toNat →
        address.toNat + size.toNat < 2 ^ w →
        ¬ sys.SetsPages
          (fun fuel => sys.setPagesAccessOfSizeAfterReservation fuel address size access)
          address.toNat (address.toNat + size.toNat) access) ∧
      (∀ address n : BitVec w, address ≠ 0 → 0 < n.toNat →
        address.toNat + n.toNat * sys.ramPageSize.toNat < 2 ^ w →
        ¬ sys.SetsPages
          (fun fuel => sys.setPagesAccessInPagesAfterReservation fuel address n access)
          address.toNat (address.toNat + n.toNat * sys.ramPageSize.toNat) access)) := by
  have hpages : ∀ n : BitVec w, 0 < n.toNat → 0 < n.toNat * sys.ramPageSize.toNat :=
    fun n hn => Nat.mul_pos hn sys.ramPageSize_pos
  refine ⟨?_, ?_, ?_, fun _ => ⟨?_, ?_, ?_⟩⟩
  · intro begin_ end_ _ hlt
    exact not_setsPages_of_silent (BitVec.lt_def.mp hlt) fun fuel =>
      silent_setPagesAccess_of_lt hlt
  · intro address size _ hpos hfits
    exact not_setsPages_of_silent (by omega) fun fuel => silent_setPagesAccessOfSize hpos hfits
  · intro address n _ hpos hfits
    have hn := hpages n hpos
    exact not_setsPages_of_silent (by omega) fun fuel =>
      silent_setPagesAccessInPages (by omega)
  · intro begin_ end_ _ hlt
    exact not_setsPages_of_silent (BitVec.lt_def.mp hlt) fun fuel =>
      silent_forRegion fun hlt' => absurd (BitVec.lt_trans hlt hlt') (BitVec.lt_irrefl _)
  · intro address size _ hpos hfits
    exact not_setsPages_of_silent (by omega) fun fuel =>
      silent_forAmount (silent_ite (fun _ => silent_setPagesAccessOfSize hpos hfits)
        fun _ => silent_pure)
  · intro address n _ hpos hfits
    have hn := hpages n hpos
    exact not_setsPages_of_silent (by omega) fun fuel =>
      silent_forAmount (silent_ite (fun _ => silent_setPagesAccessInPages (by omega))
        fun _ => silent_pure)

/-- Pages of 4096 bytes in a space of 32 bits. -/
def pagesOf4096 : PageSystem 32 where
  ramPageSize := 4096#32
  rtPgNoAccess := 0
  ramPageSize_pos := by decide

theorem not_setsPages_one_page :
    ¬ pagesOf4096.SetsPages (fun fuel => pagesOf4096.setPagesAccess fuel 4096#32 8192#32 1)
        4096 8192 1 ∧
      ¬ pagesOf4096.SetsPages
        (fun fuel => pagesOf4096.setPagesAccessOfSize fuel 4096#32 4096#32 1) 4096 8192 1 ∧
      ¬ pagesOf4096.SetsPages
        (fun fuel => pagesOf4096.setPagesAccessInPagesAfterReservation fuel 4096#32 1#32 1)
        4096 8192 1 := by
  have h := not_setsPages pagesOf4096 1
  exact ⟨h.1 4096#32 8192#32 (by decide) (by decide),
    h.2.1 4096#32 4096#32 (by decide) (by decide) (by decide),
    (h.2.2.2 (by decide)).2.2 4096#32 1#32 (by decide) (by decide) (by decide)⟩

/-- The one page from 4096 to 8192 is asked for, and no call is made. -/
theorem setPagesAccess_makes_no_call :
    (∀ fuel, pagesOf4096.setPagesAccess fuel 4096#32 8192#32 1 [] = some (.ok (), [])) ∧
      ¬ pagesOf4096.SetsPages (fun fuel => pagesOf4096.setPagesAccess fuel 4096#32 8192#32 1)
        4096 8192 1 :=
  ⟨fun _ => rfl, not_setsPages_of_silent (by decide) fun _ =>
    silent_setPagesAccess_of_lt (by decide)⟩

/-! ### Only the guard is wrong -/

/-- Stepping by a page from `b` to the first address that is not below `e` meets
every page of `[b, e)`, except that the last one may be left for `e`. -/
theorem mem_pages_iff {P b e k q : ℕ} (hP : 0 < P) (hbe : b < e) (hlo : e ≤ b + k * P)
    (hhi : b + k * P < e + P) :
    (b / P ≤ q ∧ q < b / P + k) ∨ (e % P ≠ 0 ∧ q = e / P) ↔ ∃ a, b ≤ a ∧ a < e ∧ a / P = q := by
  have hb := Nat.div_add_mod b P
  have hbP := Nat.mod_lt b hP
  constructor
  · rintro (⟨hq, hqk⟩ | ⟨hmod, rfl⟩)
    · obtain ⟨i, rfl⟩ := Nat.exists_eq_add_of_le hq
      have hi : (i + 1) * P ≤ k * P := Nat.mul_le_mul_right P (by omega)
      rw [Nat.add_mul, Nat.one_mul] at hi
      exact ⟨b + i * P, by omega, by omega, Nat.add_mul_div_right b i hP⟩
    · have he := Nat.div_add_mod e P
      have hpred : e - 1 = e % P - 1 + P * (e / P) := by omega
      refine ⟨e - 1, by omega, by omega, ?_⟩
      rw [hpred, Nat.add_mul_div_left _ _ hP, Nat.div_eq_of_lt, Nat.zero_add]
      have := Nat.mod_lt e hP
      omega
  · rintro ⟨a, hba, hae, rfl⟩
    have hle : b / P ≤ a / P := Nat.div_le_div_right hba
    by_cases hk : a / P < b / P + k
    · exact .inl ⟨hle, hk⟩
    · right
      have hmul : (b / P + k) * P ≤ a / P * P := Nat.mul_le_mul_right P (by omega)
      have ha := Nat.div_mul_le_self a P
      rw [Nat.add_mul, Nat.mul_comm (b / P)] at hmul
      have hlt : e < (a / P + 1) * P := by
        rw [Nat.add_mul, Nat.one_mul]
        omega
      have hdiv : e / P = a / P := Nat.div_eq_of_lt_le (by omega) hlt
      refine ⟨?_, hdiv.symm⟩
      have he := Nat.div_add_mod e P
      rw [hdiv, Nat.mul_comm] at he
      omega

/-- After `k` rounds from `b` the calls have met the `k` pages from that of `b` on. -/
structure Walked (sys : PageSystem w) (b k : ℕ) (access : ℤ) (calls : List (AccessCall w)) :
    Prop where
  access_eq : ∀ call ∈ calls, call.access = access
  pages : ∀ q, (∃ call ∈ calls, sys.page call.address.toNat = q) ↔
    sys.page b ≤ q ∧ q < sys.page b + k

theorem walked_zero (b : ℕ) : Walked sys b 0 access [] where
  access_eq call hmem := by cases hmem
  pages q := by
    constructor
    · rintro ⟨call, hmem, -⟩
      cases hmem
    · intro h
      omega

theorem Walked.append {b k : ℕ} {calls : List (AccessCall w)} {current : BitVec w}
    (h : Walked sys b k access calls) (hc : current.toNat = b + k * sys.ramPageSize.toNat) :
    Walked sys b (k + 1) access (calls ++ [⟨current, access⟩]) where
  access_eq call hmem := by
    rcases List.mem_append.mp hmem with hmem | hmem
    · exact h.access_eq call hmem
    · rw [List.mem_singleton.mp hmem]
  pages q := by
    have hpage : sys.page current.toNat = sys.page b + k := by
      unfold page
      rw [hc, Nat.add_mul_div_right _ _ sys.ramPageSize_pos]
    constructor
    · rintro ⟨call, hmem, hq⟩
      rcases List.mem_append.mp hmem with hmem | hmem
      · have hold := (h.pages q).mp ⟨call, hmem, hq⟩
        omega
      · rw [List.mem_singleton.mp hmem, hpage] at hq
        omega
    · rintro ⟨hq, hqk⟩
      by_cases hlast : q = sys.page b + k
      · exact ⟨_, List.mem_append_right _ (List.mem_singleton_self _), hpage.trans hlast.symm⟩
      · obtain ⟨call, hmem, hcall⟩ := (h.pages q).mpr ⟨hq, by omega⟩
        exact ⟨call, List.mem_append_left _ hmem, hcall⟩

/-- What holds of the loop before each of its rounds, and how many may follow. -/
def WalkInv (sys : PageSystem w) (begin_ end_ : BitVec w) (access : ℤ) (n : ℕ)
    (current : BitVec w) (calls : List (AccessCall w)) : Prop :=
  ∃ k, current.toNat = begin_.toNat + k * sys.ramPageSize.toNat ∧
    current.toNat < end_.toNat + sys.ramPageSize.toNat ∧
    Walked sys begin_.toNat k access calls ∧ n = end_.toNat - current.toNat

/-- What holds of the calls when the loop ends. -/
def WalkEnd (sys : PageSystem w) (begin_ end_ : BitVec w) (access : ℤ)
    (calls : List (AccessCall w)) : Prop :=
  ∃ k, Walked sys begin_.toNat k access calls ∧
    end_.toNat ≤ begin_.toNat + k * sys.ramPageSize.toNat ∧
    begin_.toNat + k * sys.ramPageSize.toNat < end_.toNat + sys.ramPageSize.toNat

theorem wp_setPagesAccessRound {n : ℕ} {current : BitVec w} {calls : List (AccessCall w)}
    (hfits : end_.toNat + sys.ramPageSize.toNat ≤ 2 ^ w)
    (hI : WalkInv sys begin_ end_ access n current calls) :
    Prog.wp (sys.setPagesAccessRound end_ access current) (fun r calls' =>
      match r with
      | .inl current' => ∃ m, m < n ∧ WalkInv sys begin_ end_ access m current' calls'
      | .inr _ => WalkEnd sys begin_ end_ access calls')
      (fun _ _ => False) calls := by
  obtain ⟨k, hcur, hlt, hwalked, rfl⟩ := hI
  have hP := sys.ramPageSize_pos
  unfold setPagesAccessRound rtSetPageAccess
  rw [Prog.wp_ite]
  constructor
  · intro hend
    rw [BitVec.lt_def] at hend
    have hnext : (current + sys.ramPageSize).toNat = current.toNat + sys.ramPageSize.toNat := by
      rw [BitVec.toNat_add, Nat.mod_eq_of_lt (by omega)]
    simp only [Prog.wp_bind, Prog.wp_modify, Prog.wp_pure]
    refine ⟨_, ?_, k + 1, ?_, ?_, hwalked.append hcur, rfl⟩
    · omega
    · rw [hnext, hcur, Nat.add_mul, Nat.one_mul, Nat.add_assoc]
    · omega
  · intro hend
    rw [BitVec.lt_def] at hend
    rw [Prog.wp_pure]
    exact ⟨k, hwalked, by omega, by omega⟩

theorem wp_setPagesAccessLoop (hlt : begin_ < end_)
    (hfits : end_.toNat + sys.ramPageSize.toNat ≤ 2 ^ w) :
    Prog.wp (Prog.loop (sys.setPagesAccessRound end_ access) (end_.toNat + 1) begin_)
      (fun _ calls => WalkEnd sys begin_ end_ access calls) (fun _ _ => False) [] := by
  rw [BitVec.lt_def] at hlt
  apply Prog.wp_loop (I := WalkInv sys begin_ end_ access)
  · intro n current calls hI
    apply (wp_setPagesAccessRound hfits hI).imp
    intro r calls' hr
    cases r with
    | inl current' => exact hr
    | inr _ => exact hr
  · exact ⟨0, by omega, by omega, walked_zero _, rfl⟩
  · omega

theorem WalkEnd.covers {calls : List (AccessCall w)} (h : WalkEnd sys begin_ end_ access calls)
    (hlt : begin_.toNat < end_.toNat) (hmod : end_.toNat % sys.ramPageSize.toNat = 0) :
    sys.Covers begin_.toNat end_.toNat access calls := by
  obtain ⟨k, hwalked, hlo, hhi⟩ := h
  refine ⟨hwalked.access_eq, fun q => ?_⟩
  have hpages := mem_pages_iff (q := q) sys.ramPageSize_pos hlt hlo hhi
  rw [hwalked.pages q]
  unfold page
  rw [← hpages]
  exact ⟨.inl, fun h => h.resolve_right fun hlast => hlast.1 hmod⟩

theorem WalkEnd.covers_append {calls : List (AccessCall w)}
    (h : WalkEnd sys begin_ end_ access calls) (hlt : begin_.toNat < end_.toNat)
    (hmod : end_.toNat % sys.ramPageSize.toNat ≠ 0) :
    sys.Covers begin_.toNat end_.toNat access (calls ++ [⟨end_, access⟩]) := by
  obtain ⟨k, hwalked, hlo, hhi⟩ := h
  constructor
  · intro call hmem
    rcases List.mem_append.mp hmem with hmem | hmem
    · exact hwalked.access_eq call hmem
    · rw [List.mem_singleton.mp hmem]
  · intro q
    refine Iff.trans ?_ (mem_pages_iff (q := q) sys.ramPageSize_pos hlt hlo hhi)
    constructor
    · rintro ⟨call, hmem, hq⟩
      rcases List.mem_append.mp hmem with hmem | hmem
      · exact .inl ((hwalked.pages q).mp ⟨call, hmem, hq⟩)
      · rw [List.mem_singleton.mp hmem] at hq
        exact .inr ⟨hmod, hq.symm⟩
    · rintro (hq | ⟨-, hq⟩)
      · obtain ⟨call, hmem, hcall⟩ := (hwalked.pages q).mpr hq
        exact ⟨call, List.mem_append_left _ hmem, hcall⟩
      · exact ⟨_, List.mem_append_right _ (List.mem_singleton_self _), hq.symm⟩

/-- **The body behind the guards is right.**  Unless the last step of the loop
wraps around, it ends and its calls cover the region. -/
theorem setsPages_setPagesAccessBody (hlt : begin_ < end_)
    (hfits : end_.toNat + sys.ramPageSize.toNat ≤ 2 ^ w) :
    sys.SetsPages (fun fuel => sys.setPagesAccessBody fuel begin_ end_ access)
      begin_.toNat end_.toNat access := by
  have hmod : end_ % sys.ramPageSize = 0 ↔ end_.toNat % sys.ramPageSize.toNat = 0 := by
    rw [← BitVec.toNat_inj, BitVec.toNat_umod]
    exact Iff.rfl
  have hbody : Prog.wp (sys.setPagesAccessBody (end_.toNat + 1) begin_ end_ access)
      (fun _ calls => sys.Covers begin_.toNat end_.toNat access calls) (fun _ _ => False) [] := by
    unfold setPagesAccessBody rtSetPageAccess
    rw [Prog.wp_bind]
    apply (wp_setPagesAccessLoop hlt hfits).imp
    intro _ calls hend
    rw [BitVec.lt_def] at hlt
    rw [Prog.wp_ite]
    constructor
    · intro hne
      exact hend.covers_append hlt fun h => hne (hmod.mpr h)
    · intro heq
      exact hend.covers hlt (hmod.mp (not_not.mp heq))
  obtain ⟨_, calls, hcalls, hcovers⟩ := hbody.returns
  exact ⟨_, calls, hcalls, hcovers⟩

end PageSystem

end Garbage.LowestLevelAllocator
