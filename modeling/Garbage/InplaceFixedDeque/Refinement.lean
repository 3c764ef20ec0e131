import Mathlib.Tactic.SplitIfs
import Garbage.Foundation.Machine
import Garbage.Foundation.Ring
import Garbage.InplaceFixedDeque.Deque

/-!
# The deque is a list bounded by its capacity

`Rep d l` ties a deque to a list: the list lies in the ring of slots from
`mBegin` on, and `mEnd` is where the number of items puts it
(`Rep.mEnd_eq`): one past the last item while it fits before the end of the
storage, the slot of the last item once it has wrapped.

Each operation has one lemma `wp_…`: on a deque that represents `l` it is never
stuck and leaves a deque that represents what the bounded list becomes.
`refines_bounded_list` runs any sequence of them on any number of deques, and
`Rep.agrees` reads the observers off.
-/

namespace Garbage.InplaceFixedDeque

open Foundation (Prog Ring Machine)
open Foundation.Prog

namespace Deque

variable {T ε : Type} {n : Nat}

/-- The deque `d` holds the list `l`. -/
structure Rep (d : Deque T n) (l : List T) : Prop where
  ring : Ring n d.rawByteArray d.mBegin l
  mEnd_le : d.mEnd ≤ n
  size_eq : d.sizeInternal = l.length

theorem mod_eq_ite {a : Nat} (h : a < 2 * n) : a % n = if a < n then a else a - n := by
  split
  · next hlt => exact Nat.mod_eq_of_lt hlt
  · next hge => rw [Nat.mod_eq_sub_mod (by omega), Nat.mod_eq_of_lt (by omega)]

namespace Rep

variable {d : Deque T n} {l : List T}

/-- **Where the end index is**: one past the last item, or on it once wrapped. -/
theorem mEnd_eq (h : Rep d l) : d.mEnd =
    if d.mBegin + l.length ≤ n then d.mBegin + l.length else d.mBegin + l.length - n - 1 := by
  have hlt := h.ring.start_lt
  have hle := h.ring.length_le
  have hend := h.mEnd_le
  have hs := h.size_eq
  rw [sizeInternal, capacity] at hs
  split at hs <;> split <;> omega

/-- A deque over a ring whose end index is where `mEnd_eq` says. -/
theorem of_ring {raw : Storage T} {b e : Nat} (h : Ring n raw b l)
    (he : e = if b + l.length ≤ n then b + l.length else b + l.length - n - 1) :
    Rep (⟨raw, b, e⟩ : Deque T n) l := by
  have hlt := h.start_lt
  have hle := h.length_le
  refine ⟨h, ?_, ?_⟩
  · show e ≤ n
    split at he <;> omega
  · show (if b ≤ e then e - b else n - b + e + 1) = l.length
    split at he <;> split <;> omega

theorem full_iff (h : Rep d l) : d.full = true ↔ l.length = n := by
  have hlt := h.ring.start_lt
  have hle := h.ring.length_le
  have he := h.mEnd_eq
  rw [full]
  split
  · rw [beq_iff_eq]
    split at he <;> omega
  · rw [Bool.and_eq_true, beq_iff_eq, beq_iff_eq, capacity]
    split at he <;> omega

theorem empty_iff (h : Rep d l) : d.empty = true ↔ l = [] := by
  have hlt := h.ring.start_lt
  have hle := h.ring.length_le
  have he := h.mEnd_eq
  rw [empty, beq_iff_eq, ← List.length_eq_zero_iff]
  split at he <;> omega

theorem at_eq (h : Rep d l) {i : Nat} (hi : i < l.length) : d.at_ i = l[i]? := by
  have hlt := h.ring.start_lt
  have hle := h.ring.length_le
  have he := h.mEnd_eq
  rw [at_, capacity, ← h.ring.get i hi, Nat.add_comm i]
  split
  · next hstraight =>
    rw [Nat.mod_eq_of_lt]
    split at he <;> omega
  · rfl

theorem iterate_eq (h : Rep d l) : d.iterate = l.map some := by
  rw [iterate, size, h.size_eq]
  refine List.ext_getElem? fun i => ?_
  by_cases hi : i < l.length
  · rw [List.getElem?_map, List.getElem?_range hi, Option.map_some, h.at_eq hi,
      List.getElem?_map, List.getElem?_eq_getElem hi, Option.map_some]
  · rw [List.getElem?_eq_none (by simpa using hi), List.getElem?_eq_none (by simpa using hi)]

/-- The slots in use while the items lie straight. -/
theorem isSome_straight (h : Rep d l) (hs : d.mBegin ≤ d.mEnd) (p : Nat) :
    (d.rawByteArray p).isSome ↔ d.mBegin ≤ p ∧ p < d.mEnd := by
  have hle := h.ring.length_le
  have he := h.mEnd_eq
  have hend : d.mEnd = d.mBegin + l.length ∧ d.mEnd ≤ n := by split at he <;> omega
  rw [h.ring.isSome_iff]
  constructor
  · rintro ⟨i, hi, rfl⟩
    rw [Nat.mod_eq_of_lt (by omega)]
    omega
  · rintro ⟨h1, h2⟩
    exact ⟨p - d.mBegin, by omega, by rw [Nat.mod_eq_of_lt (by omega)]; omega⟩

theorem isSome_wrapped (h : Rep d l) (hs : d.mEnd < d.mBegin) (p : Nat) :
    (d.rawByteArray p).isSome ↔ d.mBegin ≤ p ∧ p < n ∨ p < d.mEnd + 1 := by
  have hlt := h.ring.start_lt
  have hle := h.ring.length_le
  have he := h.mEnd_eq
  have hend : d.mEnd + n + 1 = d.mBegin + l.length := by split at he <;> omega
  rw [h.ring.isSome_iff]
  constructor
  · rintro ⟨i, hi, rfl⟩
    rw [mod_eq_ite (by omega)]
    split <;> omega
  · intro hp
    by_cases hfirst : d.mBegin ≤ p
    · exact ⟨p - d.mBegin, by omega, by rw [Nat.mod_eq_of_lt (by omega)]; omega⟩
    · refine ⟨p + n - d.mBegin, by omega, ?_⟩
      rw [mod_eq_ite (by omega), if_neg (by omega)]
      omega

end Rep

theorem rep_make (hn : 0 < n) : Rep (make T n) [] :=
  Rep.of_ring (Ring.nil hn fun _ => rfl) (by simp)

/-! ### One lemma for each operation -/

section
variable {E : ε → Deque T n → Prop} {d : Deque T n} {l : List T}

theorem wp_constructAtPosition {position : Nat} {value : Except ε T}
    {Q : PUnit → Deque T n → Prop} (hpos : position < n)
    (hfree : d.rawByteArray position = none)
    (hok : ∀ v, value = .ok v → Q PUnit.unit
      { d with rawByteArray := Function.update d.rawByteArray position (some v) })
    (hthrow : ∀ e, value = .error e → E e d) :
    wp (constructAtPosition position value) Q E d := by
  simp only [constructAtPosition, onStorage, wp_bind, wp_assert, wp_zoom]
  exact ⟨hpos, wp_construct hfree hok hthrow⟩

theorem wp_destroyByPosition {position : Nat} {Q : PUnit → Deque T n → Prop}
    (hpos : position < n) (hlive : (d.rawByteArray position).isSome)
    (hQ : Q PUnit.unit
      { d with rawByteArray := Function.update d.rawByteArray position none }) :
    wp (destroyByPosition position) Q E d := by
  simp only [destroyByPosition, onStorage, wp_bind, wp_assert, wp_zoom]
  exact ⟨hpos, wp_destroyValue hlive hQ⟩

/-- A push behind the last item: nothing happens on a full deque, and a
constructor that throws changes nothing. -/
theorem wp_emplaceBack (h : Rep d l) {value : Except ε T} {Q : PUnit → Deque T n → Prop}
    (hskip : l.length = n → Q PUnit.unit d)
    (hok : ∀ v d', value = .ok v → l.length < n → Rep d' (l ++ [v]) → Q PUnit.unit d')
    (hthrow : ∀ e, value = .error e → l.length < n → E e d) : wp (emplaceBack value) Q E d := by
  have hlt := h.ring.start_lt
  have hle := h.ring.length_le
  have he := h.mEnd_eq
  simp only [emplaceBack, wp_bind, wp_get, wp_ite]
  constructor
  · intro hfull
    rw [wp_pure]
    exact hskip (h.full_iff.mp hfull)
  · intro hfull
    have hroom : l.length < n := by have := mt h.full_iff.mpr hfull; omega
    generalize hnew : (if d.mEnd ≥ d.capacity then 0 else d.mEnd + 1) = newEnd
    generalize hpos : (if newEnd < d.mBegin then newEnd else d.mEnd) = position
    have hslot : position = (d.mBegin + l.length) % n := by
      rw [mod_eq_ite (by omega), ← hpos, ← hnew, capacity]
      split_ifs at he ⊢ <;> omega
    refine wp_constructAtPosition (by rw [hslot]; exact Nat.mod_lt _ (by omega))
      (by rw [hslot]; exact h.ring.free_of_le (Nat.le_refl _) hroom) (fun v hv => ?_)
      fun e he => hthrow e he hroom
    rw [wp_modify, hslot]
    refine hok v _ hv hroom (Rep.of_ring (h.ring.push_back hroom v) ?_)
    rw [List.length_append, List.length_singleton, ← hnew, capacity]
    dsimp only
    split_ifs at he ⊢ <;> omega

theorem wp_emplaceFront (h : Rep d l) {value : Except ε T} {Q : PUnit → Deque T n → Prop}
    (hskip : l.length = n → Q PUnit.unit d)
    (hok : ∀ v d', value = .ok v → l.length < n → Rep d' (v :: l) → Q PUnit.unit d')
    (hthrow : ∀ e, value = .error e → l.length < n → E e d) : wp (emplaceFront value) Q E d := by
  have hlt := h.ring.start_lt
  have hle := h.ring.length_le
  have he := h.mEnd_eq
  simp only [emplaceFront, wp_bind, wp_get, wp_ite]
  constructor
  · intro hfull
    rw [wp_pure]
    exact hskip (h.full_iff.mp hfull)
  · intro hfull
    have hroom : l.length < n := by have := mt h.full_iff.mpr hfull; omega
    generalize hb : (if d.mBegin ≤ 0 then d.capacity - 1 else d.mBegin - 1) = newBegin
    have hbegin : newBegin < n := by rw [← hb, capacity]; split <;> omega
    have hnext : d.mBegin = (newBegin + 1) % n := by
      rw [mod_eq_ite (by omega), ← hb, capacity]
      split_ifs <;> omega
    have hfree : d.rawByteArray newBegin = none := by
      refine h.ring.free _ fun i hi => ?_
      rw [mod_eq_ite (by omega), ← hb, capacity]
      split_ifs <;> omega
    refine wp_constructAtPosition hbegin hfree (fun v hv => ?_) fun e he => hthrow e he hroom
    rw [wp_modify]
    refine hok v _ hv hroom (Rep.of_ring (h.ring.push_front hbegin hnext hroom v) ?_)
    rw [List.length_cons, ← hb, capacity]
    split_ifs at he ⊢ <;> omega

theorem wp_popBack (h : Rep d l) :
    wp popBack (fun _ d' => Rep d' l.dropLast) E d := by
  have hlt := h.ring.start_lt
  have hle := h.ring.length_le
  have he := h.mEnd_eq
  simp only [popBack, wp_bind, wp_get, wp_ite]
  constructor
  · intro hempty
    have hl := h.empty_iff.mp hempty
    rw [wp_pure]
    subst hl
    exact h
  · intro hempty
    have hne : l ≠ [] := mt h.empty_iff.mpr hempty
    rw [wp_modify]
    obtain ⟨l, v, rfl⟩ : ∃ l' v, l = l' ++ [v] :=
      ⟨l.dropLast, l.getLast hne, (List.dropLast_append_getLast hne).symm⟩
    rw [List.length_append, List.length_singleton] at hle he
    generalize hnew : (if d.mEnd ≤ 0 then d.capacity else d.mEnd - 1) = newEnd
    generalize hpos : (if d.mEnd < d.mBegin then d.mEnd else newEnd) = position
    have hslot : position = (d.mBegin + l.length) % n := by
      rw [mod_eq_ite (by omega), ← hpos, ← hnew, capacity]
      split_ifs at he ⊢ <;> omega
    rw [List.dropLast_concat]
    refine wp_destroyByPosition (by rw [hslot]; exact Nat.mod_lt _ (by omega))
      (by rw [hslot]; exact h.ring.live (by simp)) ?_
    rw [hslot]
    refine Rep.of_ring h.ring.pop_back ?_
    rw [← hnew, capacity]
    dsimp only
    split_ifs at he ⊢ <;> omega

theorem wp_popFront (h : Rep d l) :
    wp popFront (fun _ d' => Rep d' l.tail) E d := by
  have hlt := h.ring.start_lt
  have hle := h.ring.length_le
  have he := h.mEnd_eq
  simp only [popFront, wp_bind, wp_get, wp_ite]
  constructor
  · intro hempty
    have hl := h.empty_iff.mp hempty
    rw [wp_pure]
    subst hl
    exact h
  · intro hempty
    have hne : l ≠ [] := mt h.empty_iff.mpr hempty
    rw [wp_modify]
    cases l with
    | nil => exact absurd rfl hne
    | cons v l =>
      rw [List.length_cons] at hle he
      have hlive : (d.rawByteArray d.mBegin).isSome := by
        have h0 := h.ring.live (Nat.succ_pos l.length)
        rwa [Nat.add_zero, Nat.mod_eq_of_lt hlt] at h0
      refine wp_destroyByPosition hlt hlive ?_
      generalize hb : (if d.mBegin ≥ d.capacity - 1 then 0 else d.mBegin + 1) = newBegin
      have hnext : newBegin = (d.mBegin + 1) % n := by
        rw [mod_eq_ite (by omega), ← hb, capacity]
        split_ifs <;> omega
      rw [List.tail_cons]
      refine Rep.of_ring (hnext ▸ h.ring.pop_front) ?_
      rw [← hb, capacity]
      dsimp only
      split_ifs at he ⊢ <;> omega

theorem wp_destroyEach {amount : Nat} : ∀ {begin_ : Nat} {d : Deque T n}
    {Q : PUnit → Deque T n → Prop}, begin_ + amount ≤ n →
    (∀ p, begin_ ≤ p → p < begin_ + amount → (d.rawByteArray p).isSome) →
    (∀ raw, (∀ p, raw p = if begin_ ≤ p ∧ p < begin_ + amount then none else d.rawByteArray p) →
      Q PUnit.unit { d with rawByteArray := raw }) →
    wp (destroyEach begin_ amount) Q E d := by
  induction amount with
  | zero =>
    intro begin_ d Q _ _ hQ
    rw [destroyEach, wp_pure]
    exact hQ d.rawByteArray fun p => (if_neg (by omega)).symm
  | succ amount ih =>
    intro begin_ d Q hle hlive hQ
    rw [destroyEach, wp_bind]
    refine wp_destroyByPosition (by omega) (hlive begin_ (by omega) (by omega)) ?_
    refine ih (by omega) (fun p h1 h2 => ?_) fun raw hraw => hQ raw fun p => ?_
    · dsimp only
      rw [Function.update_of_ne (by omega)]
      exact hlive p (by omega) (by omega)
    · rw [hraw p]
      dsimp only
      by_cases hp : p = begin_
      · rw [hp, if_neg (by omega), if_pos (by omega)]
        exact Function.update_self ..
      · rw [Function.update_of_ne hp]
        split_ifs <;> first | rfl | omega

theorem wp_clear (h : Rep d l) {Q : PUnit → Deque T n → Prop}
    (hQ : ∀ raw : Storage T, (∀ p, raw p = none) → Q PUnit.unit ⟨raw, 0, 0⟩) :
    wp clear Q E d := by
  have hlt := h.ring.start_lt
  have hend := h.mEnd_le
  simp only [clear, wp_bind, wp_get, wp_modify, wp_ite]
  constructor
  · intro hs
    refine wp_destroyEach (by omega)
      (fun p h1 h2 => (h.isSome_straight hs p).mpr (by omega)) fun raw hraw => hQ raw fun p => ?_
    rw [hraw p]
    split_ifs with hp
    · rfl
    · have hdead := mt (h.isSome_straight hs p).mp (by omega)
      exact Option.not_isSome_iff_eq_none.mp hdead
  · intro hs
    have hs' : d.mEnd < d.mBegin := by omega
    rw [capacity]
    refine wp_destroyEach (by omega)
      (fun p h1 h2 => (h.isSome_wrapped hs' p).mpr (by omega)) fun raw₁ hraw₁ => ?_
    dsimp only at hraw₁ ⊢
    refine wp_destroyEach (by omega) (fun p h1 h2 => ?_) fun raw hraw => hQ raw fun p => ?_
    · dsimp only
      rw [hraw₁ p, if_neg (by omega)]
      exact (h.isSome_wrapped hs' p).mpr (by omega)
    · rw [hraw p]
      dsimp only
      split_ifs with hp
      · rfl
      · rw [hraw₁ p]
        split_ifs with hq
        · rfl
        · have hdead := mt (h.isSome_wrapped hs' p).mp (by omega)
          exact Option.not_isSome_iff_eq_none.mp hdead

/-- An assignment holds the objects it has copied; if one of its rounds throws,
the deque is as the default constructor leaves it. -/
theorem wp_assignInternal (h : Rep d l) {source : List (Round T ε)}
    (hnoexcept : ∀ round ∈ source, round.advanceDestination = none)
    {Q : PUnit → Deque T n → Prop}
    (hok : ∀ vs d', (source.take n).mapM Round.outcome = .ok vs → Rep d' vs → Q PUnit.unit d')
    (hthrow : ∀ e raw, (source.take n).mapM Round.outcome = .error e → (∀ p, raw p = none) →
      E e ⟨raw, 0, 0⟩) : wp (assignInternal source) Q E d := by
  have hlt := h.ring.start_lt
  simp only [assignInternal, wp_bind]
  refine wp_clear h fun raw hraw => ?_
  simp only [onStorage, wp_zoom, wp_modify]
  refine wp_mono ?_ ?_ (wp_copyLoop source [] raw hnoexcept (Nat.zero_le n) fun p _ _ => hraw p)
  · rintro result raw' ⟨vs, hvs, hamount, hin, hout⟩
    rw [List.length_nil, Nat.sub_zero, Nat.sub_zero] at hvs
    rw [List.nil_append] at hamount hin
    have hlen : vs.length ≤ n := by
      rw [length_of_mapM hvs, List.length_take]
      exact Nat.min_le_left ..
    refine hok vs _ hvs (Rep.of_ring ⟨by omega, hlen, fun i hi => ?_, fun p hp => ?_⟩ ?_)
    · rw [Nat.zero_add, Nat.mod_eq_of_lt (by omega), hin i (Nat.zero_le i) (by omega), Nat.sub_zero]
    · by_cases hpn : p < n
      · rw [hin p (Nat.zero_le p) hpn, Nat.sub_zero, List.getElem?_eq_none]
        by_contra hlen'
        exact hp p (by omega) (by rw [Nat.zero_add, Nat.mod_eq_of_lt hpn])
      · rw [hout p (by omega), hraw p]
    · rw [if_pos (by omega), hamount, Nat.zero_add]
  · rintro e raw' ⟨hthrows, hin, hout⟩
    rw [List.length_nil, Nat.sub_zero, Nat.sub_zero] at hthrows
    refine hthrow e raw' hthrows fun p => ?_
    by_cases hpn : p < n
    · exact hin p (Nat.zero_le p) hpn
    · rw [hout p (by omega), hraw p]

/-- Rounds in which nothing throws give their objects. -/
theorem mapM_outcome_ok (vs : List T) :
    (vs.map Round.ok).mapM Round.outcome = (.ok vs : Except ε (List T)) := by
  induction vs with
  | nil => rfl
  | cons v vs ih =>
    rw [List.map_cons, List.mapM_cons, ih]
    rfl

/-- An assignment in which nothing throws. -/
theorem wp_assignInternal_ok (h : Rep d l) (vs : List T) :
    wp (assignInternal (vs.map Round.ok)) (fun _ d' => Rep d' (vs.take n)) E d := by
  refine wp_assignInternal h ?_ ?_ ?_
  · intro round hround
    obtain ⟨v, -, rfl⟩ := List.mem_map.mp hround
    rfl
  · intro vs' d' hvs hd'
    rw [← List.map_take, mapM_outcome_ok] at hvs
    rwa [Except.ok.inj hvs]
  · intro e raw hthrows
    rw [← List.map_take, mapM_outcome_ok] at hthrows
    cases hthrows

theorem Rep.reduceOption_iterate (h : Rep d l) : d.iterate.reduceOption = l := by
  rw [h.iterate_eq]
  simp [List.reduceOption]

theorem wp_assignDeque (h : Rep d l) {rhs : Deque T n} {l' : List T} (hr : Rep rhs l') :
    wp (assignDeque Round.ok rhs) (fun _ d' => Rep d' (l'.take n)) E d := by
  rw [assignDeque, hr.reduceOption_iterate]
  exact wp_assignInternal_ok h l'

/-! ### Calls without effect -/

theorem emplaceBack_full (h : d.full = true) (value : Except ε T) :
    emplaceBack value d = some (.ok PUnit.unit, d) := by
  show (if d.full = true then pure PUnit.unit else _ : Prog (Deque T n) ε PUnit) d = _
  rw [if_pos h]
  rfl

theorem emplaceFront_full (h : d.full = true) (value : Except ε T) :
    emplaceFront value d = some (.ok PUnit.unit, d) := by
  show (if d.full = true then pure PUnit.unit else _ : Prog (Deque T n) ε PUnit) d = _
  rw [if_pos h]
  rfl

theorem popBack_empty (h : d.empty = true) :
    (popBack : Prog (Deque T n) ε PUnit) d = some (.ok PUnit.unit, d) := by
  show (if d.empty = true then pure PUnit.unit else _ : Prog (Deque T n) ε PUnit) d = _
  rw [if_pos h]
  rfl

theorem popFront_empty (h : d.empty = true) :
    (popFront : Prog (Deque T n) ε PUnit) d = some (.ok PUnit.unit, d) := by
  show (if d.empty = true then pure PUnit.unit else _ : Prog (Deque T n) ε PUnit) d = _
  rw [if_pos h]
  rfl

end

/-! ### What a caller sees -/

/-- The observers of `d` answer as those of the list `l`, and the two indices are in bounds. -/
structure Agrees (d : Deque T n) (l : List T) : Prop where
  size : d.size = l.length
  empty : d.empty = true ↔ l = []
  full : d.full = true ↔ l.length = n
  front : d.front = l.head?
  back : d.back = l.getLast?
  at_ : ∀ i, i < d.size → d.at_ i = l[i]?
  iterate : d.iterate = l.map some
  mBegin_lt : d.mBegin < n
  mEnd_le : d.mEnd ≤ n

theorem Rep.at_nil {d : Deque T n} (h : Rep d []) (i : Nat) : d.at_ i = none := by
  rw [at_]
  split <;> exact h.ring.eq_none _

theorem Rep.agrees {d : Deque T n} {l : List T} (h : Rep d l) : Agrees d l where
  size := h.size_eq
  empty := h.empty_iff
  full := h.full_iff
  front := by
    cases l with
    | nil => exact h.at_nil 0
    | cons v l => exact h.at_eq (Nat.succ_pos l.length)
  back := by
    rw [Deque.back, Deque.size, h.size_eq, List.getLast?_eq_getElem?]
    rcases Nat.eq_zero_or_pos l.length with h0 | hpos
    · have hnil := List.length_eq_zero_iff.mp h0
      subst hnil
      exact h.at_nil _
    · exact h.at_eq (by omega)
  at_ := fun i hi => h.at_eq (by rwa [Deque.size, h.size_eq] at hi)
  iterate := h.iterate_eq
  mBegin_lt := h.ring.start_lt
  mEnd_le := h.mEnd_le

end Deque

/-! ### Any sequence of operations on any number of deques -/

/-- A call of a modifying member.  No constructor throws, so a call carries the
objects themselves. -/
inductive Op (T ι : Type)
  | pushBack (value : T)
  | pushFront (value : T)
  | emplaceBack (value : T)
  | emplaceFront (value : T)
  | popBack
  | popFront
  | clear
  | assign (source : List T)
  | assignDeque (rhs : ι)

namespace Op

variable {T ι : Type} [DecidableEq ι] {n : Nat}

/-- The code of a call on the deque `this` among the deques `s`. -/
def code (s : ι → Deque T n) (this : ι) : Op T ι → Prog (Deque T n) Empty PUnit
  | pushBack value => Deque.pushBack (.ok value)
  | pushFront value => Deque.pushFront (.ok value)
  | emplaceBack value => Deque.emplaceBack (.ok value)
  | emplaceFront value => Deque.emplaceFront (.ok value)
  | popBack => Deque.popBack
  | popFront => Deque.popFront
  | clear => Deque.clear
  | assign source => Deque.assign (source.map Round.ok)
  -- `if(&rhs==this) return *this;`
  | assignDeque rhs => if rhs = this then pure PUnit.unit
    else Deque.assignDeque Round.ok (s rhs)

/-- What the call does to the list bounded by `n` that stands for `this`. -/
def onLists (n : Nat) (l : ι → List T) (this : ι) : Op T ι → List T
  | pushBack value | emplaceBack value =>
    if (l this).length < n then l this ++ [value] else l this
  | pushFront value | emplaceFront value =>
    if (l this).length < n then value :: l this else l this
  | popBack => (l this).dropLast
  | popFront => (l this).tail
  | clear => []
  | assign source => source.take n
  | assignDeque rhs => (l rhs).take n

/-- One call on one of the deques. -/
def step (s : ι → Deque T n) (this : ι) (op : Op T ι) : Option (ι → Deque T n) :=
  match op.code s this (s this) with
  | some (.ok _, d) => some (Function.update s this d)
  | some (.error e, _) => nomatch e
  | none => none

/-- The deques of a program: each starts as the default constructor leaves it. -/
def machine (T ι : Type) [DecidableEq ι] (n : Nat) : Machine (ι → Deque T n) (ι × Op T ι) where
  init s := s = fun _ => Deque.make T n
  next s a := step s a.1 a.2

/-- The lists after a sequence of calls. -/
def lists (n : Nat) (calls : List (ι × Op T ι)) (l : ι → List T) : ι → List T :=
  calls.foldl (fun l a => Function.update l a.1 (a.2.onLists n l a.1)) l

theorem wp_code {s : ι → Deque T n} {l : ι → List T} (h : ∀ i, (s i).Rep (l i)) (this : ι)
    (op : Op T ι) :
    wp (op.code s this) (fun _ d => d.Rep (op.onLists n l this)) (fun _ _ => False) (s this) := by
  cases op with
  | pushBack value | emplaceBack value =>
    refine Deque.wp_emplaceBack (h this) (fun hfull => ?_) (fun v d hv hroom hd => ?_) nofun
    · rw [onLists, if_neg (by omega)]
      exact h this
    · cases hv
      rw [onLists, if_pos hroom]
      exact hd
  | pushFront value | emplaceFront value =>
    refine Deque.wp_emplaceFront (h this) (fun hfull => ?_) (fun v d hv hroom hd => ?_) nofun
    · rw [onLists, if_neg (by omega)]
      exact h this
    · cases hv
      rw [onLists, if_pos hroom]
      exact hd
  | popBack => exact Deque.wp_popBack (h this)
  | popFront => exact Deque.wp_popFront (h this)
  | clear =>
    refine Deque.wp_clear (h this) fun raw hraw => ?_
    exact Deque.Rep.of_ring (Foundation.Ring.nil (by have := (h this).ring.start_lt; omega) hraw)
      (by simp [onLists])
  | assign source => exact Deque.wp_assignInternal_ok (h this) source
  | assignDeque rhs =>
    rw [code, wp_ite]
    constructor
    · intro hself
      rw [wp_pure, onLists, hself, List.take_of_length_le (h this).ring.length_le]
      exact h this
    · intro _
      exact Deque.wp_assignDeque (h this) (h rhs)

theorem step_rep {s : ι → Deque T n} {l : ι → List T} (h : ∀ i, (s i).Rep (l i)) (this : ι)
    (op : Op T ι) : ∃ s', op.step s this = some s' ∧
      ∀ i, (s' i).Rep (Function.update l this (op.onLists n l this) i) := by
  obtain ⟨u, d, hrun, hd⟩ := (wp_code h this op).returns
  refine ⟨Function.update s this d, by rw [step, hrun], fun i => ?_⟩
  by_cases hi : i = this
  · subst hi
    rw [Function.update_self, Function.update_self]
    exact hd
  · rw [Function.update_of_ne hi, Function.update_of_ne hi]
    exact h i

/-- A call that leaves its deque leaves all of them. -/
theorem step_eq_self {s : ι → Deque T n} {this : ι} {op : Op T ι}
    (h : op.code s this (s this) = some (.ok PUnit.unit, s this)) : op.step s this = some s := by
  rw [step, h]
  exact congrArg some (Function.update_eq_self this s)

theorem run_rep (calls : List (ι × Op T ι)) : ∀ {s : ι → Deque T n} {l : ι → List T},
    (∀ i, (s i).Rep (l i)) → ∃ s', (machine T ι n).run s calls = some s' ∧
      ∀ i, (s' i).Rep (lists n calls l i) := by
  induction calls with
  | nil => intro s l h; exact ⟨s, rfl, h⟩
  | cons a calls ih =>
    intro s l h
    obtain ⟨m, hm, hrep⟩ := step_rep h a.1 a.2
    obtain ⟨s', hs', hrep'⟩ := ih hrep
    refine ⟨s', ?_, hrep'⟩
    rw [Machine.run_cons]
    show (a.2.step s a.1).bind _ = _
    rw [hm]
    exact hs'

/-- **The deques refine lists bounded by their capacity.**  Any sequence of
calls on any number of deques runs, and after it every deque answers as the
list that the same calls give.  A push on a full deque and a pop on an empty one
leave all of the state as it was. -/
theorem refines_bounded_list (hn : 0 < n) (calls : List (ι × Op T ι)) :
    ∃ s, (machine T ι n).run (fun _ => Deque.make T n) calls = some s ∧
      (∀ i, (s i).Agrees (lists n calls (fun _ => []) i)) ∧
      (∀ i v, (s i).full = true → ∀ op ∈ [pushBack v, pushFront v, emplaceBack v, emplaceFront v],
        (machine T ι n).next s (i, op) = some s) ∧
      ∀ i, (s i).empty = true → ∀ op ∈ [popBack, popFront],
        (machine T ι n).next s (i, op) = some s := by
  obtain ⟨s, hs, hrep⟩ := run_rep (n := n) calls (s := fun _ => Deque.make T n)
    (l := fun _ => []) fun _ => Deque.rep_make hn
  refine ⟨s, hs, fun i => (hrep i).agrees, fun i v hfull op hop => ?_, fun i hempty op hop => ?_⟩
  · simp only [List.mem_cons, List.not_mem_nil, or_false] at hop
    refine step_eq_self ?_
    rcases hop with rfl | rfl | rfl | rfl
    · exact Deque.emplaceBack_full hfull _
    · exact Deque.emplaceFront_full hfull _
    · exact Deque.emplaceBack_full hfull _
    · exact Deque.emplaceFront_full hfull _
  · simp only [List.mem_cons, List.not_mem_nil, or_false] at hop
    refine step_eq_self ?_
    rcases hop with rfl | rfl
    · exact Deque.popBack_empty hempty
    · exact Deque.popFront_empty hempty

/-- A run on one slot: the second push is dropped. -/
theorem refines_bounded_list_one_slot : 0 < 1 ∧
    ∃ s, (machine Nat Unit 1).run (fun _ => Deque.make Nat 1)
        [((), pushBack 7), ((), pushFront 8)] = some s ∧ (s ()).Agrees [7] := by
  refine ⟨by decide, ?_⟩
  obtain ⟨s, hs, hagrees, -⟩ := refines_bounded_list (T := Nat) (ι := Unit) (n := 1) (by decide)
    [((), pushBack 7), ((), pushFront 8)]
  exact ⟨s, hs, hagrees ()⟩

end Op

end Garbage.InplaceFixedDeque
