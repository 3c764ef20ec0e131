import Garbage.AssocList.MapList

/-!
# The list in step with the index

`InStep w c`: the list of a map holds each item of its index once and nothing
else, the items are alive, and their keys differ.  Three kinds of steps end it.

* `erase` moves on before it looks at its item, and then destroys an item of the
  index without unlinking it (`InStep.erase_breaks`).
* `clear` empties the index only (`InStep.clear_breaks`).
* `move_if_exist` gives a hint to the insertion of a key that is there; the answer
  is then that an item was made, and a linked item is linked again
  (`InStep.move_breaks`).

`Clean` is a step that is none of these.  All other steps keep every map in step,
so **a run stays in step exactly when its steps are clean** (`in_step_iff_clean`).
-/

namespace Garbage.AssocList

open Foundation (Machine)

variable {κ ν : Type}

/-- What an item holds and whether it is linked, without its getter. -/
def contents (n : Nat) (w : World κ ν) : Option (κ × ν × Bool) :=
  (w.items n).map fun item => (item.key, item.mapped, item.linked)

structure InStep (w : World κ ν) (c : Nat) : Prop where
  same : ∀ n, n ∈ (w.maps c).list ↔ n ∈ (w.maps c).index
  once : (w.maps c).list.Nodup
  size : (w.maps c).list.length = size c w
  linked : ∀ n ∈ (w.maps c).index, ∃ key mapped, contents n w = some (key, mapped, true)
  unique : ∀ n ∈ (w.maps c).index, ∀ m ∈ (w.maps c).index,
    (contents n w).map Prod.fst = (contents m w).map Prod.fst → n = m

/-- All maps are in step, and nothing undefined happened. -/
def Good (s : Option (World κ ν)) : Prop := ∃ w, s = some w ∧ ∀ c, InStep w c

/-! ### The list -/

theorem insertBefore_perm (position : Option Nat) (n : Nat) (list : List Nat) :
    (insertBefore position n list).Perm (n :: list) := by
  cases position with
  | none => exact List.perm_append_singleton n list
  | some p =>
    have h : (insertBefore (some p) n list).Perm
        (n :: (list.takeWhile (· ≠ p) ++ list.dropWhile (· ≠ p))) := List.perm_middle
    rwa [List.takeWhile_append_dropWhile] at h

/-! ### The insertions -/

section Insertions

variable {c node n : Nat} {position : Option Nat} {mapped : ν} {w : World κ ν}

/-- A new item at the position. -/
def added (c : Nat) (position : Option Nat) (node : Nat) (key : κ) (mapped : ν)
    (w : World κ ν) : World κ ν where
  items := Function.update w.items node (some ⟨key, mapped, c, true⟩)
  maps := Function.update w.maps c
    ⟨(w.maps c).index ++ [node], insertBefore position node (w.maps c).list⟩

/-- The getter of `n` is written. -/
def regetter (c n : Nat) (w : World κ ν) : World κ ν :=
  { w with
    items := Function.update w.items n ((w.items n).map fun item => { item with getter := c }) }

variable [DecidableEq κ] {key : κ}

theorem notChangeIfExist_new (hint : Option Nat) (h : find c key w = none) :
    NotChangeIfExist.insert c position node key mapped hint w =
      some (added c position node key mapped w, node, true) := by
  simp [NotChangeIfExist.insert, indexInsert, h, listUpdate, listInsert, added]

theorem notChangeIfExist_existing (position : Option Nat) (node : Nat) (mapped : ν)
    (h : find c key w = some n) :
    NotChangeIfExist.insert c position node key mapped none w =
      some (regetter c n w, n, false) := by
  simp [NotChangeIfExist.insert, indexInsert, h, listUpdate, regetter]

theorem insert_new (mode : InsertMode) (h : find c key w = none) :
    insert mode c position node key mapped w =
      some (added c position node key mapped w, node, true) := by
  cases mode with
  | notChangeIfExist => exact notChangeIfExist_new none h
  | moveIfExist =>
    simp only [insert, MoveIfExist.insert, h]
    exact notChangeIfExist_new none h

theorem find_mem (h : find c key w = some n) : n ∈ (w.maps c).index :=
  List.mem_of_find?_eq_some h

theorem find_none (h : find c key w = none) (hn : n ∈ (w.maps c).index) :
    (contents n w).map Prod.fst ≠ some key := by
  have hk := List.find?_eq_none.mp h n hn
  cases hi : w.items n with
  | none => simp [contents, hi]
  | some item => simpa [contents, hi] using hk

end Insertions

/-! ### The steps that unlink nothing -/

/-- The list is as it was, and the index has lost something. -/
structure Shrunk (c : Nat) (w w' : World κ ν) : Prop where
  list : (w'.maps c).list = (w.maps c).list
  index : (w'.maps c).index.length < (w.maps c).index.length

/-- **`erase` unlinks nothing**, and takes one item from the index. -/
theorem erase_unlinks_nothing [DecidableEq κ] {c n : Nat} {w w' : World κ ν}
    (h : erase c n w = some w') : Shrunk c w w' := by
  obtain ⟨p, -, h⟩ := Option.bind_eq_some_iff.mp h
  obtain ⟨item, -, h⟩ := Option.bind_eq_some_iff.mp h
  obtain ⟨found, -, h⟩ := Option.bind_eq_some_iff.mp h
  obtain ⟨hfound, h⟩ := Option.ite_none_right_eq_some.mp h
  cases h
  refine ⟨by simp, ?_⟩
  simp only [Function.update_self, List.length_erase_of_mem hfound]
  exact Nat.sub_one_lt (Nat.ne_of_gt (List.length_pos_of_mem hfound))

namespace InStep

variable {c d node n : Nat} {position : Option Nat} {key : κ} {mapped : ν} {w w' : World κ ν}

theorem not_mem_of_free (h : InStep w c) (hn : w.items n = none) : n ∉ (w.maps c).index := by
  intro hi
  obtain ⟨key, mapped, hc⟩ := h.linked n hi
  simp [contents, hn] at hc

/-- What a step does outside the map and its items does not matter. -/
theorem congr (h : InStep w c) (hm : w'.maps d = w.maps c)
    (hc : ∀ n ∈ (w.maps c).index, contents n w' = contents n w) : InStep w' d where
  same := by
    rw [hm]
    exact h.same
  once := by
    rw [hm]
    exact h.once
  size := by
    simp only [AssocList.size, hm]
    exact h.size
  linked := by
    intro n hn
    rw [hm] at hn
    rw [hc n hn]
    exact h.linked n hn
  unique := by
    intro n hn m hm' he
    rw [hm] at hn hm'
    rw [hc n hn, hc m hm'] at he
    exact h.unique n hn m hm' he

theorem of_new (h : w.maps c = ⟨[], []⟩) : InStep w c where
  same n := by rw [h]
  once := by
    rw [h]
    exact List.nodup_nil
  size := by simp [AssocList.size, h]
  linked n hn := by simp [h] at hn
  unique n hn := by simp [h] at hn

/-! ### The steps that keep it -/

theorem contents_regetter (c n m : Nat) (w : World κ ν) :
    contents m (regetter c n w) = contents m w := by
  rcases eq_or_ne m n with rfl | hne
  · simp [contents, regetter, Function.comp_def]
  · simp [contents, regetter, hne]

theorem contents_added_self :
    contents node (added c position node key mapped w) = some (key, mapped, true) := by
  simp [contents, added]

theorem contents_added (hne : n ≠ node) :
    contents n (added c position node key mapped w) = contents n w := by
  simp [contents, added, hne]

theorem regetter (h : InStep w d) : InStep (regetter c n w) d :=
  h.congr rfl fun m _ => contents_regetter c n m w

theorem added_other (h : InStep w d) (hd : d ≠ c) (hfree : w.items node = none) :
    InStep (added c position node key mapped w) d := by
  refine h.congr (Function.update_of_ne hd _ _) fun n hn => contents_added ?_
  rintro rfl
  exact h.not_mem_of_free hfree hn

/-- **A new key.**  Its item goes into both containers. -/
theorem added [DecidableEq κ] (h : InStep w c) (hfree : w.items node = none)
    (hnew : find c key w = none) : InStep (added c position node key mapped w) c := by
  have hmaps : (AssocList.added c position node key mapped w).maps c =
      ⟨(w.maps c).index ++ [node], insertBefore position node (w.maps c).list⟩ :=
    Function.update_self ..
  have hperm := insertBefore_perm position node (w.maps c).list
  have hnode : node ∉ (w.maps c).index := h.not_mem_of_free hfree
  have hne : ∀ n ∈ (w.maps c).index, n ≠ node := fun n hn he => hnode (he ▸ hn)
  have hkey : ∀ n ∈ (w.maps c).index,
      (contents n (AssocList.added c position node key mapped w)).map Prod.fst ≠ some key := by
    intro n hn
    rw [contents_added (hne n hn)]
    exact find_none hnew hn
  refine ⟨?same, ?once, ?size, ?linked, ?unique⟩
  case same =>
    intro n
    rw [hmaps, hperm.mem_iff, List.mem_cons, List.mem_append, List.mem_singleton, h.same]
    exact or_comm
  case once =>
    rw [hmaps, hperm.nodup_iff, List.nodup_cons, h.same]
    exact ⟨hnode, h.once⟩
  case size =>
    rw [AssocList.size, hmaps, hperm.length_eq, List.length_cons, List.length_append, h.size]
    rfl
  case linked =>
    intro n hn
    rw [hmaps, List.mem_append, List.mem_singleton] at hn
    rcases hn with hn | rfl
    · rw [contents_added (hne n hn)]
      exact h.linked n hn
    · exact ⟨key, mapped, contents_added_self⟩
  case unique =>
    intro n hn m hm he
    rw [hmaps, List.mem_append, List.mem_singleton] at hn hm
    rcases hn with hn | rfl <;> rcases hm with hm | rfl
    · rw [contents_added (hne n hn), contents_added (hne m hm)] at he
      exact h.unique n hn m hm he
    · rw [contents_added_self] at he
      exact absurd he (hkey n hn)
    · rw [contents_added_self] at he
      exact absurd he.symm (hkey m hm)
    · rfl

theorem swap (hall : ∀ c, InStep w c) (d : Nat) : InStep (swap c d w) n := by
  rcases eq_or_ne n d with rfl | hd
  · exact (hall c).congr (Function.update_self ..) fun _ _ => rfl
  rcases eq_or_ne n c with rfl | hc
  · exact (hall d).congr ((Function.update_of_ne hd _ _).trans (Function.update_self ..))
      fun _ _ => rfl
  · exact (hall n).congr ((Function.update_of_ne hd _ _).trans (Function.update_of_ne hc _ _))
      fun _ _ => rfl

theorem clear (hall : ∀ c, InStep w c) (hc : (w.maps c).list = []) (d : Nat) :
    InStep (clear c w) d := by
  have hindex : (w.maps c).index = [] := by
    have hsize := (hall c).size
    rw [hc] at hsize
    exact List.eq_nil_of_length_eq_zero hsize.symm
  have hmaps : (AssocList.clear c w).maps d = w.maps d := by
    rcases eq_or_ne d c with rfl | hd
    · simp [AssocList.clear, ← hindex]
    · exact Function.update_of_ne hd _ _
  refine (hall d).congr hmaps fun n _ => ?_
  simp [contents, AssocList.clear, hindex]

/-! ### The steps that break it -/

theorem not_of_shrunk (h : InStep w c) (hshrunk : Shrunk c w w') : ¬ InStep w' c := by
  intro h'
  have hsize := h'.size
  rw [hshrunk.list, h.size] at hsize
  exact Nat.ne_of_gt hshrunk.index hsize

variable [DecidableEq κ]

/-- **`erase` breaks it**, if it is defined at all. -/
theorem erase_breaks (h : InStep w c) (n : Nat) : ¬ Good (erase c n w) := by
  intro ⟨w', he, hall⟩
  exact h.not_of_shrunk (erase_unlinks_nothing he) (hall c)

omit [DecidableEq κ] in
theorem clear_breaks (h : InStep w c) (hc : (w.maps c).list ≠ []) :
    ¬ Good (some (AssocList.clear c w)) := by
  intro ⟨w', he, hall⟩
  cases he
  have hindex : 0 < (w.maps c).index.length := by
    rw [← AssocList.size, ← h.size]
    exact List.length_pos_iff.mpr hc
  have hshrunk : Shrunk c w (AssocList.clear c w) :=
    ⟨by simp [AssocList.clear], by simpa [AssocList.clear] using hindex⟩
  exact h.not_of_shrunk hshrunk (hall c)

/-- **`move_if_exist` breaks it**: the item of the key is linked already. -/
theorem move_breaks (h : InStep w c) (hkey : find c key w ≠ none) :
    insert .moveIfExist c position node key mapped w = none := by
  obtain ⟨n, hn⟩ := Option.ne_none_iff_exists'.mp hkey
  obtain ⟨key', mapped', hc⟩ := h.linked n (find_mem hn)
  obtain ⟨item, hi, he⟩ := Option.map_eq_some_iff.mp hc
  have hl : item.linked = true := congrArg (fun e => e.2.2) he
  simp [insert, MoveIfExist.insert, NotChangeIfExist.insert, hn, indexInsert, listUpdate,
    listInsert, hi, hl]

end InStep

/-! ### The runs -/

variable [DecidableEq κ]

/-- `move_if_exist` meets a new key. -/
def New (mode : InsertMode) (c : Nat) (position : Option Nat) (node : Nat) (key : κ)
    (w : World κ ν) : Prop :=
  mode = .moveIfExist → Valid w c position node → find c key w = none

/-- No element is erased, no map with elements is cleared, and no existing key is
inserted with `move_if_exist`. -/
def Clean (s : Option (World κ ν)) (a : Action κ ν) : Prop :=
  ∀ w ∈ s, match a with
    | .insert mode c position node key _ => New mode c position node key w
    | .pushBack mode c node key _ | .pushFront mode c node key _ => New mode c none node key w
    | .erase c n => n ∉ (w.maps c).list
    | .clear c => (w.maps c).list = []
    | .eraseKey _ _ | .swap _ _ => True

theorem good_insert {mode : InsertMode} {c node : Nat} {position : Option Nat} {key : κ}
    {mapped : ν} {w : World κ ν} (hall : ∀ c, InStep w c) (hv : Valid w c position node)
    (hnew : New mode c position node key w) :
    Good ((insert mode c position node key mapped w).map Prod.fst) := by
  have hfree : w.items node = none := Option.isNone_iff_eq_none.mp hv.2
  cases hf : find c key w with
  | none =>
    rw [insert_new mode hf]
    refine ⟨_, rfl, fun d => ?_⟩
    rcases eq_or_ne d c with rfl | hd
    · exact (hall d).added hfree hf
    · exact (hall d).added_other hd hfree
  | some n =>
    cases mode with
    | notChangeIfExist =>
      rw [insert, notChangeIfExist_existing position node mapped hf]
      exact ⟨_, rfl, fun d => (hall d).regetter⟩
    | moveIfExist => exact absurd (hnew rfl hv) (by simp [hf])

theorem good_next (s : Option (World κ ν)) (a : Action κ ν) (s' : Option (World κ ν))
    (hs : Good s) (hclean : Clean s a) (hn : machine.next s a = some s') : Good s' := by
  obtain ⟨w, rfl, hall⟩ := hs
  have hclean := hclean w rfl
  cases a with
  | insert mode c position node key mapped =>
    obtain ⟨hv, he⟩ := Option.ite_none_right_eq_some.mp hn
    cases he
    exact good_insert hall hv hclean
  | pushBack mode c node key mapped =>
    obtain ⟨hv, he⟩ := Option.ite_none_right_eq_some.mp hn
    cases he
    exact good_insert hall hv hclean
  | pushFront mode c node key mapped =>
    obtain ⟨hv, he⟩ := Option.ite_none_right_eq_some.mp hn
    cases he
    exact good_insert hall hv hclean
  | erase c n => exact absurd (Option.ite_none_right_eq_some.mp hn).1 hclean
  | eraseKey c key =>
    cases hn
    exact ⟨w, rfl, hall⟩
  | clear c =>
    cases hn
    exact ⟨_, rfl, InStep.clear hall hclean⟩
  | swap c d =>
    cases hn
    exact ⟨_, rfl, fun _ => InStep.swap hall d⟩

theorem not_new {mode : InsertMode} {c node : Nat} {position : Option Nat} {key : κ} (mapped : ν)
    {w : World κ ν} (hall : ∀ c, InStep w c) (h : ¬ New mode c position node key w) :
    Valid w c position node ∧
      ¬ Good ((insert mode c position node key mapped w).map Prod.fst) := by
  simp only [New, Classical.not_imp] at h
  obtain ⟨rfl, hv, hkey⟩ := h
  rw [(hall c).move_breaks hkey]
  exact ⟨hv, fun ⟨_, he, _⟩ => nomatch he⟩

theorem bad_next (s : Option (World κ ν)) (a : Action κ ν) (hs : Good s) (hclean : ¬ Clean s a) :
    ∃ s', machine.next s a = some s' ∧ ¬ Good s' := by
  obtain ⟨w, rfl, hall⟩ := hs
  simp only [Clean, Option.mem_def, Option.some.injEq, forall_eq'] at hclean
  cases a with
  | insert mode c position node key mapped =>
    obtain ⟨hv, hbad⟩ := not_new mapped hall hclean
    exact ⟨_, if_pos hv, hbad⟩
  | pushBack mode c node key mapped =>
    obtain ⟨hv, hbad⟩ := not_new mapped hall hclean
    exact ⟨_, if_pos hv, hbad⟩
  | pushFront mode c node key mapped =>
    obtain ⟨hv, hbad⟩ := not_new mapped hall hclean
    exact ⟨_, if_pos hv, hbad⟩
  | erase c n => exact ⟨_, if_pos (not_not.mp hclean), (hall c).erase_breaks n⟩
  | eraseKey c key => exact absurd trivial hclean
  | clear c => exact ⟨_, rfl, (hall c).clear_breaks hclean⟩
  | swap c d => exact absurd trivial hclean

omit [DecidableEq κ] in
theorem good_start : Good (start : Option (World κ ν)) :=
  ⟨_, rfl, fun _ => .of_new rfl⟩

/-- **Every map is in step all along a run exactly when its steps are clean**, and
the insertion of an existing key with `not_change_if_exist` answers with the
existing element and `false` and changes nothing but the getter. -/
theorem in_step_iff_clean (actions : List (Action κ ν)) :
    (machine.AllStates Good start actions ↔ machine.AllSteps Clean start actions) ∧
      ∀ (w : World κ ν) (c : Nat) (position : Option Nat) (node : Nat) (key : κ) (mapped : ν)
        (found : Nat), find c key w = some found →
        ∃ w', insert .notChangeIfExist c position node key mapped w = some (w', found, false) ∧
          w'.maps = w.maps ∧ ∀ n, contents n w' = contents n w := by
  constructor
  · exact Machine.allStates_iff_allSteps (fun _ h => h) good_next bad_next actions start good_start
  · intro w c position node key mapped found hfound
    exact ⟨regetter c found w, notChangeIfExist_existing position node mapped hfound, rfl,
      fun m => InStep.contents_regetter c found m w⟩

/-- A key is pushed twice: the second push answers with the first item. -/
theorem in_step_iff_clean_pushed_twice :
    let push : Action Nat Nat := .pushBack .notChangeIfExist 0 8 1 10
    machine.AllStates Good start [push, .pushBack .notChangeIfExist 0 9 1 20] ∧
      ∀ w, machine.run start [push] = some (some w) →
        ∃ w', insert .notChangeIfExist 0 none 9 1 20 w = some (w', 8, false) ∧
          w'.maps = w.maps ∧ ∀ n, contents n w' = contents n w := by
  intro push
  constructor
  · apply (in_step_iff_clean _).1.mpr
    exact ⟨fun _ _ => nofun, fun _ _ => ⟨fun _ _ => nofun, fun _ _ => trivial⟩⟩
  · intro w hw
    cases hw
    exact (in_step_iff_clean []).2 _ 0 none 9 1 20 8 rfl

/-- Two keys are pushed and the first is erased: the second leaves the index and
stays in the list.  `clear` leaves its list too, and `move_if_exist` is undefined
at an existing key. -/
theorem erase_keeps_list :
    let one : Action Nat Nat := .pushBack .notChangeIfExist 0 8 1 10
    let two : Action Nat Nat := .pushBack .notChangeIfExist 0 9 2 20
    let sides (s : Option (World Nat Nat)) :=
      s.map fun w => ((w.maps 0).list, (w.maps 0).index)
    ¬ machine.AllStates Good start [one, two, .erase 0 8] ∧
      (machine.run start [one, two, .erase 0 8]).map sides = some (some ([8, 9], [8])) ∧
      (machine.run start [one, two, .clear 0]).map sides = some (some ([8, 9], [])) ∧
      (machine.run start [one, two, .insert .moveIfExist 0 (some 8) 10 2 30]).map sides =
        some none := by
  intro one two sides
  refine ⟨fun h => ?_, rfl, rfl, rfl⟩
  obtain ⟨w, he, hall⟩ := ((h.2 _ rfl).2 _ rfl).2 _ rfl
  cases he
  exact absurd (hall 0).size (by decide)

end Garbage.AssocList
