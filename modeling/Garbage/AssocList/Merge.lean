import Garbage.AssocList.Erasure
import Garbage.Foundation.StableMerge

/-!
# Merging two maps

`merge(x, comp)` walks both lists and inserts in front of `si`, a position of `x`,
what `di` points to, an element of `*this`: its key is there, so `not_change_if_exist`
inserts nothing, and `move_if_exist` links a linked item.  So the loops move nothing
(`mergeLoops_unchanged`).  The loop for the rest of `x` never moves `si`, and runs `di`
into the end.  At last `x.clear()` destroys the elements that were to be moved, and
leaves the list of `x` as it is.

**The contract is kept if `x` is empty, and never else** (`merge_right_iff`).
-/

namespace Garbage.AssocList

open Foundation (SortedBy StrictWeak StablyMerged stablyMerged_merge)

variable {κ ν : Type}

/-- What a map holds, in its order. -/
def elements (c : Nat) (w : World κ ν) : List (κ × ν) :=
  (w.maps c).list.filterMap fun n => (w.items n).map fun item => (item.key, item.mapped)

section Members

variable [DecidableEq κ]
  -- the address of a new node
  (node : World κ ν → Nat)
  (mode : InsertMode) (comp : κ × ν → κ × ν → Bool) (c d : Nat)

/-- `this->insert(si, ::boost::move(*di))` -/
def insertOwn (di : Nat) (si : Option Nat) (w : World κ ν) : Option (World κ ν) := do
  let item ← w.items di
  let (w, _) ← insert mode c si (node w) item.key item.mapped w
  return w

/-- `while(di!=die && si!=sie)` -/
def mergeLoop : Nat → Option Nat → Option Nat → World κ ν →
    Option (Option Nat × Option Nat × World κ ν)
  | fuel + 1, some di, some si, w => do
    let own ← w.items di
    let other ← w.items si
    if comp (other.key, other.mapped) (own.key, own.mapped) then
      let w ← insertOwn node mode c di (some si) w
      mergeLoop fuel (after di (w.maps c).list) (some si) w
    else mergeLoop fuel (some di) (after si (w.maps d).list) w
  | 0, some _, some _, _ => none
  | _, di, si, w => some (di, si, w)

/-- `while(si!=sie)`: `si` is not moved. -/
def tailLoop : Nat → Option Nat → Option Nat → World κ ν → Option (World κ ν)
  | _, _, none, w => some w
  | 0, _, some _, _ => none
  | fuel + 1, di, some si, w => do
    let n ← di
    let w ← insertOwn node mode c n (some si) w
    tailLoop fuel (after n (w.maps c).list) (some si) w

def mergeLoops (fuel : Nat) (w : World κ ν) : Option (World κ ν) := do
  let (di, si, w) ← mergeLoop node mode comp c d fuel (begin c w) (begin d w) w
  tailLoop node mode c fuel di si w

def merge (fuel : Nat) (w : World κ ν) : Option (World κ ν) :=
  (mergeLoops node mode comp c d fuel w).map (clear d)

end Members

/-! ### The loops -/

/-- Nothing but getters differs. -/
structure Unmoved (w w' : World κ ν) : Prop where
  maps : w'.maps = w.maps
  contents : ∀ n, contents n w' = contents n w

theorem Unmoved.refl (w : World κ ν) : Unmoved w w := ⟨rfl, fun _ => rfl⟩

theorem Unmoved.trans {w w' w'' : World κ ν} (h : Unmoved w w') (h' : Unmoved w' w'') :
    Unmoved w w'' :=
  ⟨h'.maps.trans h.maps, fun n => (h'.contents n).trans (h.contents n)⟩

theorem Unmoved.inStep {c : Nat} {w w' : World κ ν} (h : Unmoved w w') (hc : InStep w c) :
    InStep w' c :=
  hc.congr (congrFun h.maps c) fun n _ => h.contents n

theorem mem_of_after {n m : Nat} {list : List Nat} (h : after n list = some m) : m ∈ list :=
  List.dropWhile_subset _ (List.mem_of_mem_tail (List.mem_of_head? h))

section Loops

variable [DecidableEq κ] {node : World κ ν → Nat} {mode : InsertMode}
  {comp : κ × ν → κ × ν → Bool} {c d : Nat} {w w' : World κ ν}

/-- An element of the map is not inserted again. -/
theorem insertOwn_unmoved {di : Nat} {si : Option Nat} (hc : InStep w c)
    (hdi : di ∈ (w.maps c).list) (h : insertOwn node mode c di si w = some w') :
    Unmoved w w' := by
  obtain ⟨item, hitem, h⟩ := Option.bind_eq_some_iff.mp h
  obtain ⟨⟨w₁, r⟩, he, h⟩ := Option.bind_eq_some_iff.mp h
  cases h
  have hkey : find c item.key w ≠ none := by
    intro hnone
    exact find_none hnone ((hc.same di).mp hdi) (by simp [AssocList.contents, hitem])
  cases mode with
  | moveIfExist => rw [hc.move_breaks hkey] at he; cases he
  | notChangeIfExist =>
    obtain ⟨n, hn⟩ := Option.ne_none_iff_exists'.mp hkey
    rw [insert, notChangeIfExist_existing _ _ _ hn] at he
    cases he
    exact ⟨rfl, fun m => InStep.contents_regetter c n m w⟩

/-- The rest of `x` is never moved. -/
theorem tailLoop_some (fuel si : Nat) (di : Option Nat) (w : World κ ν) :
    tailLoop node mode c fuel di (some si) w = none := by
  induction fuel generalizing di w with
  | zero => rfl
  | succ fuel ih => simp [tailLoop, ih]

theorem mergeLoop_unmoved {fuel : Nat} {di si di' si' : Option Nat} (hc : InStep w c)
    (hdi : ∀ n, di = some n → n ∈ (w.maps c).list)
    (h : mergeLoop node mode comp c d fuel di si w = some (di', si', w')) : Unmoved w w' := by
  induction fuel generalizing di si w with
  | zero =>
    cases di <;> cases si <;> cases h <;> exact .refl _
  | succ fuel ih =>
    cases di with
    | none =>
      cases h
      exact .refl _
    | some n =>
      cases si with
      | none =>
        cases h
        exact .refl _
      | some m =>
        simp only [mergeLoop] at h
        obtain ⟨own, -, h⟩ := Option.bind_eq_some_iff.mp h
        obtain ⟨other, -, h⟩ := Option.bind_eq_some_iff.mp h
        split at h
        · obtain ⟨w₁, hinsert, h⟩ := Option.bind_eq_some_iff.mp h
          have hunmoved := insertOwn_unmoved hc (hdi n rfl) hinsert
          refine hunmoved.trans (ih (hunmoved.inStep hc) ?_ h)
          intro k hk
          exact mem_of_after hk
        · exact ih hc hdi h

/-- **The loops move nothing**, if they end at all. -/
theorem mergeLoops_unmoved {fuel : Nat} (hc : InStep w c)
    (h : mergeLoops node mode comp c d fuel w = some w') : Unmoved w w' := by
  obtain ⟨⟨di, si, w₁⟩, hloop, htail⟩ := Option.bind_eq_some_iff.mp h
  have hunmoved := mergeLoop_unmoved hc (fun n hn => List.mem_of_head? hn) hloop
  cases si with
  | some si => exact nomatch (tailLoop_some fuel si di w₁).symm.trans htail
  | none =>
    cases fuel <;> cases htail <;> exact hunmoved

end Loops

/-! ### The contract -/

section Contract

variable [DecidableEq κ] (node : World κ ν → Nat) (mode : InsertMode)
  (comp : κ × ν → κ × ν → Bool) (c d : Nat) (w : World κ ν)

/-- The call ends, `x` is empty, and `*this` holds the elements of both, merged
stably. -/
def MergeRight : Prop :=
  ∃ fuel w', merge node mode comp c d fuel w = some w' ∧
    (w'.maps d).list = [] ∧ (w'.maps d).index = [] ∧ SameItems w' c ∧
    StablyMerged comp (elements c w) (elements d w) (elements c w')

variable {node mode comp c d w}

omit [DecidableEq κ] in
theorem clear_of_index_nil (h : (w.maps d).index = []) : clear d w = w := by
  have hmaps : Function.update w.maps d { w.maps d with index := [] } = w.maps := by
    rw [← h]
    exact Function.update_eq_self d w.maps
  simp [clear, h, hmaps]

/-- What is in the list of `x` stays in it. -/
theorem list_nil_of_mergeRight (hc : InStep w c) (h : MergeRight node mode comp c d w) :
    (w.maps d).list = [] := by
  obtain ⟨fuel, w', hmerge, hlist, _⟩ := h
  obtain ⟨w₁, hloops, rfl⟩ := Option.map_eq_some_iff.mp hmerge
  have hmaps := congrFun (mergeLoops_unmoved hc hloops).maps d
  simpa [clear, hmaps] using hlist

/-- **The contract of `merge` is kept exactly if `x` is empty**, with either mode of
insertion and whatever `comp` is. -/
theorem merge_right_iff (hc : InStep w c) (hd : InStep w d) :
    MergeRight node mode comp c d w ↔ (w.maps d).list = [] := by
  constructor
  · exact list_nil_of_mergeRight hc
  · intro hnil
    have hindex : (w.maps d).index = [] := List.perm_nil.mp (hnil ▸ hd.sameItems)
    refine ⟨0, w, ?_, hnil, hindex, hc.sameItems, ?_⟩
    · have hbegin : begin d w = none := by simp [begin, hnil]
      have hloops : mergeLoops node mode comp c d 0 w = some w := by
        unfold mergeLoops
        rw [hbegin]
        cases begin c w <;> rfl
      rw [merge, hloops, Option.map_some, clear_of_index_nil hindex]
    · have helements : elements d w = [] := by simp [elements, hnil]
      rw [helements]
      simpa using stablyMerged_merge comp (List.disjoint_nil_right (elements c w))

theorem merge_right_iff_new_map :
    MergeRight (fun _ => 7) .notChangeIfExist (fun a b => a.1 < b.1) 0 1 twoItems :=
  (merge_right_iff twoItems_inStep (InStep.of_new rfl)).mpr rfl

end Contract

/-- Two maps of one item each. -/
def oneEach : World Nat Nat :=
  added 1 none 9 2 20 (added 0 none 8 1 10 ⟨fun _ => none, fun _ => ⟨[], []⟩⟩)

def lessKey (a b : Nat × Nat) : Bool := a.1 < b.1

theorem strictWeak_lessKey : StrictWeak lessKey where
  irrefl a := by simp [lessKey]
  trans a b c := by
    simp only [lessKey, decide_eq_true_eq]
    exact Nat.lt_trans
  incomp_trans a b c := by
    simp only [lessKey, decide_eq_true_eq]
    omega

/-- The element of `x` is lost, and its list is left with a destroyed item. -/
theorem merge_loses_element :
    InStep oneEach 0 ∧ InStep oneEach 1 ∧ StrictWeak lessKey ∧
      elements 0 oneEach = [(1, 10)] ∧ elements 1 oneEach = [(2, 20)] ∧
      ¬ MergeRight (fun _ => 7) .notChangeIfExist lessKey 0 1 oneEach ∧
      (merge (fun _ => 7) .notChangeIfExist lessKey 0 1 2 oneEach).map
          (fun w => (elements 0 w, (w.maps 1).list, w.items 9 |>.isSome)) =
        some ([(1, 10)], [9], false) := by
  have hzero : InStep oneEach 0 :=
    ((InStep.of_new rfl).added rfl rfl).added_other (by decide) rfl
  have hone : InStep oneEach 1 :=
    ((InStep.of_new rfl).added_other (by decide) rfl).added rfl rfl
  refine ⟨hzero, hone, strictWeak_lessKey, rfl, rfl, fun h => ?_, rfl⟩
  exact nomatch list_nil_of_mergeRight hzero h

end Garbage.AssocList
