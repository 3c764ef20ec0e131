import Garbage.AssocList.InStep
import Mathlib.Data.List.Destutter
import Mathlib.Data.List.Perm.Subperm

/-!
# Erasing elements

`erase(p)` moves its iterator on before it looks up what to erase, and the index alone
forgets the item behind `p`: whenever it returns, the list is as long as before and
the index is one shorter (`erase_unlinks_nothing`).  The other members end in it.

* `erase(first, last)` is a loop of `erase`, and is right where it is not entered.
* `erase(key)` erases the range from `find(key)` to `find(key)`, which is empty.
* `remove(key)` erases at `find(key)`, and that is the end where there is no such key.
* `remove_if` and `unique` are loops that search in the header, behind the body: the
  first round erases what `begin()` points to.

`Leaves c kept w w'` is what they are for: the list and the index hold the items of
`kept` and no others.
-/

namespace Garbage.AssocList

variable {κ ν : Type}

/-- The list and the index hold the same items. -/
def SameItems (w : World κ ν) (c : Nat) : Prop := (w.maps c).index.Perm (w.maps c).list

/-- The items of `kept` are left of the map, in its order, and the others destroyed. -/
structure Leaves (c : Nat) (kept : List Nat) (w w' : World κ ν) : Prop where
  list : (w'.maps c).list = kept
  index : (w'.maps c).index.Perm kept
  same : ∀ n ∈ kept, contents n w' = contents n w
  destroyed : ∀ n ∈ (w.maps c).list, n ∉ kept → w'.items n = none
  others : ∀ d, d ≠ c → w'.maps d = w.maps d

/-! ### The members -/

def begin (c : Nat) (w : World κ ν) : Option Nat := (w.maps c).list.head?

/-- The items from an iterator to the end. -/
def toEnd (p : Option Nat) (list : List Nat) : List Nat :=
  match p with
  | none => []
  | some n => list.dropWhile (· ≠ n)

section Members

variable [DecidableEq κ]

/-- `iterator erase(const_iterator p)`: `++p` is undefined at the end and at a
destroyed item. -/
def eraseAt (c : Nat) (p : Option Nat) (w : World κ ν) : Option (Option Nat × World κ ν) := do
  let n ← p
  let _ ← w.items n
  let w' ← erase c n w
  return (after n (w.maps c).list, w')

/-- `for(;first!=last ; first = this->erase(first));` -/
def eraseRange (c : Nat) : Nat → Option Nat → Option Nat → World κ ν →
    Option (Option Nat × World κ ν)
  | 0, _, _, _ => none
  | fuel + 1, first, last, w =>
    if first = last then some (first, w)
    else do
      let (first, w) ← eraseAt c first w
      eraseRange c fuel first last w

def equalRange (c : Nat) (key : κ) (w : World κ ν) : Option Nat × Option Nat :=
  (find c key w, find c key w)

def remove (c : Nat) (key : κ) (w : World κ ν) : Option (World κ ν) :=
  (eraseAt c (find c key w) w).map Prod.snd

/-- `std::find_if` on the items to the end. -/
def findIf (pred : κ × ν → Bool) (w : World κ ν) : List Nat → Option (Option Nat)
  | [] => some none
  | n :: ns => do
    let item ← w.items n
    if pred (item.key, item.mapped) then some (some n) else findIf pred w ns

def adjacentFind (binaryPred : κ × ν → κ × ν → Bool) (w : World κ ν) :
    List Nat → Option (Option Nat)
  | [] => some none
  | [_] => some none
  | n :: m :: ns => do
    let item ← w.items n
    let item' ← w.items m
    if binaryPred (item.key, item.mapped) (item'.key, item'.mapped) then some (some n)
    else adjacentFind binaryPred w (m :: ns)

/-- `for(current = cbegin(); current != last; current = search(current, last))
current = this->erase(current);` -/
def eraseLoop (search : World κ ν → List Nat → Option (Option Nat)) (c : Nat) :
    Nat → Option Nat → World κ ν → Option (World κ ν)
  | 0, _, _ => none
  | fuel + 1, current, w =>
    if current = none then some w
    else do
      let (current, w) ← eraseAt c current w
      let current ← search w (toEnd current (w.maps c).list)
      eraseLoop search c fuel current w

def removeIf (pred : κ × ν → Bool) (c fuel : Nat) (w : World κ ν) : Option (World κ ν) :=
  eraseLoop (findIf pred) c fuel (begin c w) w

def unique (binaryPred : κ × ν → κ × ν → Bool) (c fuel : Nat) (w : World κ ν) :
    Option (World κ ν) :=
  eraseLoop (adjacentFind binaryPred) c fuel (begin c w) w

end Members

/-! ### Nothing is unlinked -/

theorem Shrunk.trans {c : Nat} {w w' w'' : World κ ν} (h : Shrunk c w w') (h' : Shrunk c w' w'') :
    Shrunk c w w'' :=
  ⟨h'.list.trans h.list, h'.index.trans h.index⟩

/-- No item is left out of both. -/
theorem Shrunk.not_leaves {c : Nat} {kept : List Nat} {w w' : World κ ν} (h : Shrunk c w w')
    (hsame : SameItems w c) : ¬ Leaves c kept w w' := by
  intro hleaves
  have hlength := hleaves.index.length_eq
  rw [← hleaves.list, h.list, ← hsame.length_eq] at hlength
  exact Nat.ne_of_lt h.index hlength

section Shrinking

variable [DecidableEq κ] {c : Nat} {w w' : World κ ν}

theorem eraseAt_shrinks {p next : Option Nat} (h : eraseAt c p w = some (next, w')) :
    Shrunk c w w' := by
  obtain ⟨n, -, h⟩ := Option.bind_eq_some_iff.mp h
  obtain ⟨item, -, h⟩ := Option.bind_eq_some_iff.mp h
  obtain ⟨w₁, he, h⟩ := Option.bind_eq_some_iff.mp h
  cases h
  exact erase_unlinks_nothing he

@[simp] theorem eraseRange_self (c fuel : Nat) (p : Option Nat) (w : World κ ν) :
    eraseRange c (fuel + 1) p p w = some (p, w) := by
  simp [eraseRange]

theorem eraseRange_shrinks {fuel : Nat} {first last next : Option Nat} (hne : first ≠ last)
    (h : eraseRange c fuel first last w = some (next, w')) : Shrunk c w w' := by
  induction fuel generalizing first w with
  | zero => cases h
  | succ fuel ih =>
    simp only [eraseRange, hne, if_false] at h
    obtain ⟨⟨first', w₁⟩, he, h⟩ := Option.bind_eq_some_iff.mp h
    have hshrunk := eraseAt_shrinks he
    by_cases hlast : first' = last
    · cases fuel with
      | zero => cases h
      | succ fuel =>
        rw [hlast, eraseRange_self] at h
        cases h
        exact hshrunk
    · exact hshrunk.trans (ih hlast h)

theorem eraseLoop_shrinks {search : World κ ν → List Nat → Option (Option Nat)} {fuel n : Nat}
    (h : eraseLoop search c fuel (some n) w = some w') : Shrunk c w w' := by
  induction fuel generalizing n w with
  | zero => cases h
  | succ fuel ih =>
    simp only [eraseLoop, reduceCtorEq, if_false] at h
    obtain ⟨⟨next, w₁⟩, he, h⟩ := Option.bind_eq_some_iff.mp h
    obtain ⟨current, -, h⟩ := Option.bind_eq_some_iff.mp h
    have hshrunk := eraseAt_shrinks he
    cases current with
    | none =>
      cases fuel with
      | zero => cases h
      | succ fuel =>
        simp only [eraseLoop, if_true, Option.some.injEq] at h
        exact h ▸ hshrunk
    | some m => exact hshrunk.trans (ih h)

end Shrinking

/-! ### What the members are for -/

def between (first last : Option Nat) (list : List Nat) : List Nat :=
  (toEnd first list).takeWhile fun n => some n ≠ last

section Purpose

variable (c : Nat) (w : World κ ν)

/-- The element at `p` goes, and the answer is its successor. -/
def EraseRight [DecidableEq κ] (p : Nat) : Prop :=
  ∃ w', eraseAt c (some p) w = some (after p (w.maps c).list, w') ∧
    Leaves c ((w.maps c).list.filter (· ≠ p)) w w'

/-- The elements of the range go, and the loop ends. -/
def EraseRangeRight [DecidableEq κ] (first last : Option Nat) : Prop :=
  ∃ fuel w', eraseRange c fuel first last w = some (last, w') ∧
    Leaves c ((w.maps c).list.filter (· ∉ between first last (w.maps c).list)) w w'

/-- The element of the key goes, and is counted. -/
def EraseKeyRight [DecidableEq κ] (key : κ) : Prop :=
  (eraseKey w).2 = (find c key w).toList.length ∧
    Leaves c ((w.maps c).list.filter (some · ≠ find c key w)) w (eraseKey w).1

def RemoveRight [DecidableEq κ] (key : κ) : Prop :=
  ∃ w', remove c key w = some w' ∧
    Leaves c ((w.maps c).list.filter (some · ≠ find c key w)) w w'

def satisfies (pred : κ × ν → Bool) (n : Nat) : Bool :=
  (w.items n).any fun item => pred (item.key, item.mapped)

def matches₂ (binaryPred : κ × ν → κ × ν → Bool) (n m : Nat) : Bool :=
  (w.items n).any fun item => satisfies w (binaryPred (item.key, item.mapped)) m

def RemoveIfRight [DecidableEq κ] (pred : κ × ν → Bool) : Prop :=
  ∃ fuel w', removeIf pred c fuel w = some w' ∧
    Leaves c ((w.maps c).list.filter fun n => !satisfies w pred n) w w'

/-- The first element of each run is left: `destutter` leaves what the last one left
does not match. -/
def UniqueRight [DecidableEq κ] (binaryPred : κ × ν → κ × ν → Bool) : Prop :=
  ∃ fuel w', unique binaryPred c fuel w = some w' ∧
    Leaves c ((w.maps c).list.destutter fun n m => matches₂ w binaryPred n m = false) w w'

end Purpose

theorem InStep.sameItems {c : Nat} {w : World κ ν} (h : InStep w c) : SameItems w c := by
  have hsub : (w.maps c).list.Subperm (w.maps c).index :=
    h.once.subperm fun n hn => (h.same n).mp hn
  exact (hsub.perm_of_length_le (Nat.le_of_eq h.size.symm)).symm

theorem SameItems.leaves {c : Nat} {w : World κ ν} (h : SameItems w c) :
    Leaves c (w.maps c).list w w :=
  ⟨rfl, h, fun _ _ => rfl, fun _ hn hk => absurd hn hk, fun _ _ => rfl⟩

theorem between_self (p : Option Nat) (list : List Nat) : between p p list = [] := by
  cases p with
  | none => rfl
  | some n =>
    unfold between toEnd
    induction list with
    | nil => rfl
    | cons m list ih =>
      by_cases hm : m = n
      · simp [hm]
      · simpa [hm] using ih

/-! ### The results -/

/-- A new key is pushed. -/
theorem next_pushBack [DecidableEq κ] {mode : InsertMode} {c node : Nat} {key : κ} {mapped : ν}
    {w : World κ ν} (hfree : w.items node = none) (hnew : find c key w = none) :
    next (some w) (.pushBack mode c node key mapped) =
      some (some (added c none node key mapped w)) := by
  have hvalid : Valid w c none node := ⟨nofun, Option.isNone_iff_eq_none.mpr hfree⟩
  have hpush : pushBack mode c node key mapped w = _ := insert_new mode hnew
  simp [next, hvalid, hpush]

/-- A map of two items, as two calls of `push_back` make it (`run_twoItems`). -/
def twoItems : World Nat Nat :=
  added 0 none 9 2 20 (added 0 none 8 1 10 ⟨fun _ => none, fun _ => ⟨[], []⟩⟩)

theorem run_twoItems : machine.run start [.pushBack .notChangeIfExist 0 8 1 10,
    .pushBack .notChangeIfExist 0 9 2 20] = some (some twoItems) := by
  let one : World Nat Nat := added 0 none 8 1 10 ⟨fun _ => none, fun _ => ⟨[], []⟩⟩
  have hfirst : next start (.pushBack .notChangeIfExist 0 8 1 10) = some (some one) :=
    next_pushBack rfl rfl
  have hsecond : next (some one) (.pushBack .notChangeIfExist 0 9 2 20) = some (some twoItems) :=
    next_pushBack rfl rfl
  exact Option.bind_eq_some_iff.mpr ⟨_, hfirst, Option.bind_eq_some_iff.mpr ⟨_, hsecond, rfl⟩⟩

theorem twoItems_inStep : InStep twoItems 0 := ((InStep.of_new rfl).added rfl rfl).added rfl rfl

section Results

variable [DecidableEq κ] {c : Nat} {w : World κ ν}

/-- What `erase(key)` erases is its empty range. -/
theorem eraseRange_equalRange (c fuel : Nat) (key : κ) (w : World κ ν) :
    eraseRange c (fuel + 1) (equalRange c key w).1 (equalRange c key w).2 w =
      some ((equalRange c key w).2, (eraseKey w).1) :=
  eraseRange_self c fuel _ w

theorem not_eraseRight (h : SameItems w c) (p : Nat) : ¬ EraseRight c w p :=
  fun ⟨_, he, hleaves⟩ => (eraseAt_shrinks he).not_leaves h hleaves

theorem eraseRangeRight_iff (h : SameItems w c) (first last : Option Nat) :
    EraseRangeRight c w first last ↔ first = last := by
  constructor
  · intro ⟨fuel, w', he, hleaves⟩
    by_contra hne
    exact (eraseRange_shrinks hne he).not_leaves h hleaves
  · intro he
    subst he
    refine ⟨1, w, eraseRange_self c 0 first w, ?_⟩
    rw [between_self, List.filter_eq_self.mpr (by simp)]
    exact h.leaves

theorem eraseKeyRight_iff (h : SameItems w c) (key : κ) :
    EraseKeyRight c w key ↔ find c key w = none := by
  constructor
  · intro ⟨hcount, _⟩
    cases hf : find c key w with
    | none => rfl
    | some n => simp [eraseKey, hf] at hcount
  · intro hf
    refine ⟨by simp [eraseKey, hf], ?_⟩
    rw [List.filter_eq_self.mpr (by simp [hf])]
    exact h.leaves

/-- A key that is there costs its successor, and one that is not the end. -/
theorem not_removeRight (h : SameItems w c) (key : κ) : ¬ RemoveRight c w key := by
  intro ⟨w', hr, hleaves⟩
  obtain ⟨⟨next, w'⟩, he, rfl⟩ := Option.map_eq_some_iff.mp hr
  exact (eraseAt_shrinks he).not_leaves h hleaves

/-- **Erasing is right where nothing is to be erased**: an empty range, or a key that
is not there.  An element is never erased rightly, through an iterator or by `remove`. -/
theorem erase_right_iff (h : SameItems w c) :
    (∀ p ∈ (w.maps c).list, ¬ EraseRight c w p) ∧
      (∀ first last, EraseRangeRight c w first last ↔ first = last) ∧
      (∀ key, EraseKeyRight c w key ↔ find c key w = none) ∧
      ∀ key, ¬ RemoveRight c w key :=
  ⟨fun p _ => not_eraseRight h p, eraseRangeRight_iff h, eraseKeyRight_iff h, not_removeRight h⟩

theorem erase_right_iff_two_items :
    ¬ EraseRight 0 twoItems 9 ∧ EraseRangeRight 0 twoItems (some 8) (some 8) ∧
      EraseKeyRight 0 twoItems 3 := by
  have h := erase_right_iff twoItems_inStep.sameItems
  exact ⟨h.1 9 (by decide), (h.2.1 _ _).mpr rfl, (h.2.2.1 3).mpr rfl⟩

/-- The first of two items is to be erased, and the index forgets the second; a key
that is not there is removed at the end. -/
theorem erase_forgets_successor :
    ¬ EraseRight 0 twoItems 8 ∧ ¬ RemoveRight 0 twoItems 3 ∧
      (eraseAt 0 (some 8) twoItems).map
          (fun r => (r.1, (r.2.maps 0).list, (r.2.maps 0).index)) =
        some (some 9, [8, 9], [8]) := by
  refine ⟨?_, ?_, rfl⟩
  · intro ⟨w', he, hleaves⟩
    exact absurd ((eraseAt_shrinks he).list.symm.trans hleaves.list) (by decide)
  · intro ⟨w', he, _⟩
    exact nomatch (show none = some w' from he)

/-- A loop that is right is not entered. -/
theorem list_nil_of_eraseLoop {search : World κ ν → List Nat → Option (Option Nat)} {fuel : Nat}
    {w' : World κ ν} {kept : List Nat} (h : SameItems w c)
    (he : eraseLoop search c fuel (begin c w) w = some w') (hleaves : Leaves c kept w w') :
    (w.maps c).list = [] := by
  cases hb : begin c w with
  | none => exact List.head?_eq_none_iff.mp hb
  | some n =>
    rw [hb] at he
    exact absurd hleaves ((eraseLoop_shrinks he).not_leaves h)

/-- **`remove_if` and `unique` are right on empty lists**, whatever the predicate. -/
theorem remove_if_right_iff (h : SameItems w c) (pred : κ × ν → Bool)
    (binaryPred : κ × ν → κ × ν → Bool) :
    (RemoveIfRight c w pred ↔ (w.maps c).list = []) ∧
      (UniqueRight c w binaryPred ↔ (w.maps c).list = []) := by
  refine ⟨⟨?removeIf, ?removeIfNil⟩, ?unique, ?uniqueNil⟩
  case removeIf =>
    intro ⟨fuel, w', he, hleaves⟩
    exact list_nil_of_eraseLoop h he hleaves
  case removeIfNil =>
    intro hnil
    refine ⟨1, w, by simp [removeIf, begin, hnil, eraseLoop], ?_⟩
    simpa [hnil] using h.leaves
  case unique =>
    intro ⟨fuel, w', he, hleaves⟩
    exact list_nil_of_eraseLoop h he hleaves
  case uniqueNil =>
    intro hnil
    refine ⟨1, w, by simp [unique, begin, hnil, eraseLoop], ?_⟩
    simpa [hnil] using h.leaves

/-- The map 1 is new.  The map 0 has two items, and the predicates match the first of them,
and both. -/
theorem remove_if_right_iff_twoItems :
    (RemoveIfRight 1 twoItems (fun item => item.1 = 1) ∧
        UniqueRight 1 twoItems (fun _ _ => true)) ∧
      ¬ RemoveIfRight 0 twoItems (fun item => item.1 = 1) ∧
        ¬ UniqueRight 0 twoItems (fun _ _ => true) := by
  have hnew : SameItems twoItems 1 := List.Perm.refl []
  have hempty := remove_if_right_iff hnew (fun item => item.1 = 1) (fun _ _ => true)
  have hitems := remove_if_right_iff twoItems_inStep.sameItems (fun item => item.1 = 1)
    (fun _ _ => true)
  have hne : (twoItems.maps 0).list ≠ [] := List.cons_ne_nil _ _
  exact ⟨⟨hempty.1.mpr rfl, hempty.2.mpr rfl⟩, mt hitems.1.mp hne, mt hitems.2.mp hne⟩

/-- Nothing matches.  The first round erases the first item, the index forgets and
destroys the second, and the search begins at it. -/
theorem remove_if_erases_begin :
    ¬ RemoveIfRight 0 twoItems (fun _ => false) ∧ ¬ UniqueRight 0 twoItems (fun _ _ => false) ∧
      ∀ fuel, removeIf (fun _ => false) 0 (fuel + 1) twoItems = none := by
  refine ⟨?_, ?_, fun fuel => rfl⟩
  · intro ⟨fuel, w', he, hleaves⟩
    exact nomatch list_nil_of_eraseLoop twoItems_inStep.sameItems he hleaves
  · intro ⟨fuel, w', he, hleaves⟩
    exact nomatch list_nil_of_eraseLoop twoItems_inStep.sameItems he hleaves

end Results

end Garbage.AssocList
