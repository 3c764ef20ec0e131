import Garbage.Foundation.Machine
import Garbage.RandomAccessList.Container
import Mathlib.Logic.Equiv.Basic

/-!
# The operations and what they mean

`ListOp` are the operations on one list, `Op` those on all list variables.  An
iterator argument is given by its position.  An operation means two things:
`exec` is the program, and `list` or `lists` is what it does to plain lists.

The elements of the plain lists have a type `γ` of their own and values `val` in
`α`: the values themselves, or nodes with their values.  The elements put in are
an argument, `values` says which values they have.  So nothing but `val` can
make a difference (`ListOp.map_list`, `Op.map_lists`).

`plain` is the machine of the plain lists, `machine` the one of the program.
-/

namespace Garbage.RandomAccessList

open Foundation (Prog Machine)
open Foundation.Prog

variable {α ε γ δ : Type}

/-! ### `unique` on plain lists -/

/-- Drop the elements after `cur` that `p` does not tell from the last one kept. -/
def uniqueFrom (p : γ → γ → Bool) (cur : γ) : List γ → List γ
  | [] => []
  | d :: ds => if p d cur then uniqueFrom p cur ds else d :: uniqueFrom p d ds

/-- What `unique` keeps of a list. -/
def uniqueList (p : γ → γ → Bool) : List γ → List γ
  | [] => []
  | c :: cs => c :: uniqueFrom p c cs

theorem uniqueFrom_sublist (p : γ → γ → Bool) (l : List γ) : ∀ cur : γ,
    (uniqueFrom p cur l).Sublist l := by
  induction l with
  | nil => intro cur; exact List.Sublist.slnil
  | cons d ds ih =>
    intro cur
    rw [uniqueFrom]
    split
    · exact (ih cur).cons d
    · exact (ih d).cons_cons d

theorem uniqueList_sublist (p : γ → γ → Bool) (l : List γ) : (uniqueList p l).Sublist l := by
  cases l with
  | nil => exact List.Sublist.slnil
  | cons c cs => exact (uniqueFrom_sublist p cs c).cons_cons c

theorem map_uniqueFrom {f : γ → δ} {p : γ → γ → Bool} {q : δ → δ → Bool}
    (hpq : ∀ a b, q (f a) (f b) = p a b) (l : List γ) : ∀ cur : γ,
    (uniqueFrom p cur l).map f = uniqueFrom q (f cur) (l.map f) := by
  induction l with
  | nil => intro cur; rfl
  | cons d ds ih =>
    intro cur
    rw [uniqueFrom, List.map_cons, uniqueFrom, hpq]
    split
    · exact ih cur
    · exact congrArg (f d :: ·) (ih d)

theorem map_uniqueList {f : γ → δ} {p : γ → γ → Bool} {q : δ → δ → Bool}
    (hpq : ∀ a b, q (f a) (f b) = p a b) (l : List γ) :
    (uniqueList p l).map f = uniqueList q (l.map f) := by
  cases l with
  | nil => rfl
  | cons c cs => exact congrArg (f c :: ·) (map_uniqueFrom hpq cs c)

/-! ### Operations on one list -/

inductive ListOp (α : Type) where
  | emplace (pos : Nat) (value : α)
  | insertCount (pos count : Nat) (value : α)
  | insertRange (pos : Nat) (values : List α)
  | erase (pos : Nat)
  | eraseRange (first last : Nat)
  | clear
  | reverse
  | sort (comp : α → α → Bool)
  | unique (p : α → α → Bool)

namespace ListOp

/-- The program of an operation, with its iterators made from their positions. -/
def exec (alloc : Allocator) : ListOp α → Prog (Tree α) ε PUnit
  | emplace pos value => do
    let it ← Container.iteratorAt pos
    let _ ← Container.emplace alloc it value
    pure PUnit.unit
  | insertCount pos count value => do
    let it ← Container.iteratorAt pos
    let _ ← Container.insertCount alloc it count value
    pure PUnit.unit
  | insertRange pos values => do
    let it ← Container.iteratorAt pos
    let _ ← Container.insertRange alloc it values
    pure PUnit.unit
  | erase pos => do
    let it ← Container.iteratorAt pos
    let _ ← Container.erase it
    pure PUnit.unit
  | eraseRange first last => do
    let first ← Container.iteratorAt first
    let last ← Container.iteratorAt last
    let _ ← Container.eraseRange first last
    pure PUnit.unit
  | clear => Container.clear
  | reverse => Container.reverse
  | sort comp => Container.sort comp
  | unique p => Container.unique p

/-- The iterator arguments are valid for a list of `n` elements. -/
def Valid (n : Nat) : ListOp α → Prop
  | emplace pos _ => pos ≤ n
  | insertCount pos _ _ => pos ≤ n
  | insertRange pos _ => pos ≤ n
  | erase pos => pos < n
  | eraseRange first last => first ≤ last ∧ last ≤ n
  | clear => True
  | reverse => True
  | sort _ => True
  | unique _ => True

instance (n : Nat) : DecidablePred (Valid (α := α) n)
  | emplace pos _ => inferInstanceAs (Decidable (pos ≤ n))
  | insertCount pos _ _ => inferInstanceAs (Decidable (pos ≤ n))
  | insertRange pos _ => inferInstanceAs (Decidable (pos ≤ n))
  | erase pos => inferInstanceAs (Decidable (pos < n))
  | eraseRange first last => inferInstanceAs (Decidable (first ≤ last ∧ last ≤ n))
  | clear => isTrue trivial
  | reverse => isTrue trivial
  | sort _ => isTrue trivial
  | unique _ => isTrue trivial

/-- The values of the elements put in. -/
def values : ListOp α → List α
  | emplace _ value => [value]
  | insertCount _ count value => List.replicate count value
  | insertRange _ values => values
  | _ => []

/-- The operation on a plain list; `news` are the elements put in. -/
def list (val : γ → α) (news xs : List γ) : ListOp α → List γ
  | emplace pos _ => xs.take pos ++ news ++ xs.drop pos
  | insertCount pos _ _ => xs.take pos ++ news ++ xs.drop pos
  | insertRange pos _ => xs.take pos ++ news ++ xs.drop pos
  | erase pos => xs.take pos ++ xs.drop (pos + 1)
  | eraseRange first last => xs.take first ++ xs.drop last
  | clear => []
  | reverse => xs.reverse
  | sort comp => xs.mergeSort fun a b => !comp (val b) (val a)
  | unique p => uniqueList (fun a b => p (val a) (val b)) xs

theorem map_list {f : γ → δ} {val : γ → α} {val' : δ → α} (hval : ∀ a, val' (f a) = val a)
    (op : ListOp α) (news xs : List γ) :
    (op.list val news xs).map f = op.list val' (news.map f) (xs.map f) := by
  cases op with
  | sort comp =>
    refine List.map_mergeSort fun a _ b _ => ?_
    rw [hval, hval]
  | unique p =>
    refine map_uniqueList (fun a b => ?_) xs
    rw [hval, hval]
  | clear => rfl
  | _ => simp [list]

end ListOp

/-! ### Operations on all lists -/

inductive Op (α : Type) where
  | create (l : Nat)
  | destroy (l : Nat)
  | on (l : Nat) (op : ListOp α)
  | assign (l : Nat) (values : List α)
  | assignCount (l count : Nat) (value : α)
  | splice (l pos other : Nat)
  | spliceRange (l pos other first last : Nat)
  | swap (l other : Nat)

namespace Op

def exec (alloc : Allocator) : Op α → Prog (World α) ε PUnit
  | create l => World.create alloc l
  | destroy l => World.destroy l
  | on l op => World.onList l (op.exec alloc)
  | assign l values => World.assign alloc l values
  | assignCount l count value => World.assignCount alloc l count value
  | splice l pos other => do
    let it ← World.onList l (Container.iteratorAt pos)
    World.splice l it other
  | spliceRange l pos other first last => do
    let it ← World.onList l (Container.iteratorAt pos)
    let first ← World.onList other (Container.iteratorAt first)
    let last ← World.onList other (Container.iteratorAt last)
    World.spliceRange l it other first last
  | swap l other => World.swap l other

/-- The lists named exist, their iterators are valid, and nothing is spliced
from a list into itself. -/
def Valid (sizes : Nat → Option Nat) : Op α → Prop
  | create l => sizes l = none
  | destroy l => (sizes l).isSome
  | on l op => ∃ n ∈ sizes l, op.Valid n
  | assign l _ => (sizes l).isSome
  | assignCount l _ _ => (sizes l).isSome
  | splice l pos other => l ≠ other ∧ (sizes other).isSome ∧ ∃ n ∈ sizes l, pos ≤ n
  | spliceRange l pos other first last =>
    l ≠ other ∧ (∃ n ∈ sizes other, first ≤ last ∧ last ≤ n) ∧ ∃ n ∈ sizes l, pos ≤ n
  | swap l other => (sizes l).isSome ∧ (sizes other).isSome

instance (sizes : Nat → Option Nat) : DecidablePred (Valid (α := α) sizes)
  | create l => inferInstanceAs (Decidable (sizes l = none))
  | destroy l => inferInstanceAs (Decidable ((sizes l).isSome = true))
  | on l op => inferInstanceAs (Decidable (∃ n ∈ sizes l, op.Valid n))
  | assign l _ => inferInstanceAs (Decidable ((sizes l).isSome = true))
  | assignCount l _ _ => inferInstanceAs (Decidable ((sizes l).isSome = true))
  | splice l pos other =>
    inferInstanceAs (Decidable (l ≠ other ∧ (sizes other).isSome = true ∧ ∃ n ∈ sizes l, pos ≤ n))
  | spliceRange l pos other first last =>
    inferInstanceAs (Decidable (l ≠ other ∧ (∃ n ∈ sizes other, first ≤ last ∧ last ≤ n) ∧
      ∃ n ∈ sizes l, pos ≤ n))
  | swap l other =>
    inferInstanceAs (Decidable ((sizes l).isSome = true ∧ (sizes other).isSome = true))

/-- The values of the elements put in. -/
def values : Op α → List α
  | on _ op => op.values
  | assign _ values => values
  | assignCount _ count value => List.replicate count value
  | _ => []

/-- The operation on plain lists; `news` are the elements put in. -/
def lists (val : γ → α) (news : List γ) (m : Nat → Option (List γ)) :
    Op α → Nat → Option (List γ)
  | create l => Function.update m l (some [])
  | destroy l => Function.update m l none
  | on l op => Function.update m l ((m l).map fun xs => op.list val news xs)
  | assign l _ => Function.update m l (some news)
  | assignCount l _ _ => Function.update m l (some news)
  | splice l pos other =>
    Function.update (Function.update m other (some [])) l
      ((m l).map fun xs => xs.take pos ++ (m other).getD [] ++ xs.drop pos)
  | spliceRange l pos other first last =>
    Function.update
      (Function.update m other ((m other).map fun ys => ys.take first ++ ys.drop last)) l
      ((m l).map fun xs => xs.take pos ++ (((m other).getD []).take last).drop first ++ xs.drop pos)
  | swap l other => fun k => m (Equiv.swap l other k)

/-- The operations that leave the elements of a list in that list: those on one
list, and `swap`, which exchanges the trees. -/
def Stable : Op α → Prop
  | on _ _ => True
  | swap _ _ => True
  | _ => False

/-- The list variable that has the tree of `l` after a stable operation. -/
def track : Op α → Nat → Nat
  | swap l other => Equiv.swap l other
  | _ => id

theorem map_update {f : γ → δ} (m : Nat → Option γ) (l : Nat) (o : Option γ) :
    (fun k => (Function.update m l o k).map f) =
      Function.update (fun k => (m k).map f) l (o.map f) :=
  funext fun k => Function.apply_update (fun _ o => Option.map f o) m l o k

theorem map_lists {f : γ → δ} {val : γ → α} {val' : δ → α} (hval : ∀ a, val' (f a) = val a)
    (op : Op α) (news : List γ) (m : Nat → Option (List γ)) :
    (fun k => (op.lists val news m k).map (List.map f)) =
      op.lists val' (news.map f) fun k => (m k).map (List.map f) := by
  have hgetD : ∀ o : Option (List γ), (o.map (List.map f)).getD [] = (o.getD []).map f :=
    fun o => by cases o <;> rfl
  cases op with
  | create l => exact map_update m l _
  | destroy l => exact map_update m l _
  | on l op =>
    rw [lists, map_update, lists, Option.map_map, Option.map_map]
    simp only [Function.comp_def, ListOp.map_list hval]
  | assign l _ => exact map_update m l _
  | assignCount l _ _ => exact map_update m l _
  | splice l pos other =>
    rw [lists, map_update, map_update, lists, Option.map_map, Option.map_map, hgetD]
    simp [Function.comp_def]
  | spliceRange l pos other first last =>
    rw [lists, map_update, map_update, lists, Option.map_map, Option.map_map, Option.map_map,
      Option.map_map, hgetD]
    simp [Function.comp_def]
  | swap l other => rfl

end Op

/-! ### Machines -/

/-- The machine of the plain lists. -/
def plain (α : Type) : Machine (Nat → Option (List α)) (Op α) where
  init m := ∀ l, m l = none
  next m op :=
    if op.Valid fun l => (m l).map List.length then some (op.lists id op.values m) else none

def World.sizes (w : World α) (l : Nat) : Option Nat :=
  (w.lists l).bind fun stump =>
    match (Container.size : Prog (Tree α) Empty Nat) ⟨w.heap, stump⟩ with
    | some (.ok n, _) => some n
    | _ => none

/-- The machine of the program: it starts without lists, and its operations
have valid iterators. -/
def machine (alloc : Allocator) : Machine (World α) (Op α) where
  init w := ∀ l, w.lists l = none
  next w op :=
    if op.Valid w.sizes then
      match (op.exec alloc : Prog (World α) Empty PUnit) w with
      | some (.ok _, w') => some w'
      | _ => none
    else none

end Garbage.RandomAccessList
