import Garbage.Foundation.Machine
import Mathlib.Logic.Function.Basic

/-!
# The map with a list

`map_list` is a draft, read as it is meant: `index` is an unordered set of items,
`list` an intrusive list that links the same items.  An item has a hook of the
list, which knows whether it is linked (`safe_link`), and a pointer to the map
that it was put into.

Items are named by their addresses.  An iterator of the list is an address, or
`none` for the end.  `none` for the whole world is undefined behaviour: the end
or a destroyed item is dereferenced, a foreign iterator is erased, or an item
that is linked is linked again, which `safe_link` asserts against.
-/

namespace Garbage.AssocList

open Foundation (Machine)

structure Item (κ ν : Type) where
  key : κ
  mapped : ν
  /-- `index_iterator_getter` -/
  getter : Nat
  linked : Bool

structure MapList where
  index : List Nat
  list : List Nat

structure World (κ ν : Type) where
  items : Nat → Option (Item κ ν)
  maps : Nat → MapList

inductive InsertMode
  | notChangeIfExist
  | moveIfExist
  deriving DecidableEq

variable {κ ν : Type} [DecidableEq κ]

/-! ### The index and the list -/

omit [DecidableEq κ] in
def size (c : Nat) (w : World κ ν) : Nat := (w.maps c).index.length

def find (c : Nat) (key : κ) (w : World κ ν) : Option Nat :=
  (w.maps c).index.find? fun n => (w.items n).any fun item => item.key = key

/-- The iterator behind the one at `n`. -/
def after (n : Nat) (list : List Nat) : Option Nat := (list.dropWhile (· ≠ n)).tail.head?

def insertBefore (position : Option Nat) (n : Nat) (list : List Nat) : List Nat :=
  match position with
  | none => list ++ [n]
  | some p => list.takeWhile (· ≠ p) ++ n :: list.dropWhile (· ≠ p)

omit [DecidableEq κ] in
def listInsert (c : Nat) (position : Option Nat) (n : Nat) (w : World κ ν) : Option (World κ ν) :=
  match w.items n with
  | none => none
  | some item =>
    if item.linked then none
    else some { w with
      items := Function.update w.items n (some { item with linked := true })
      maps := Function.update w.maps c { w.maps c with
        list := insertBefore position n (w.maps c).list } }

/-! ### Insertion -/

/-- `index_insert`: the set gives the item of the key, or makes one at `node`.  With
a hint the answer says that it was made. -/
def indexInsert (c node : Nat) (key : κ) (mapped : ν) (hint : Option Nat) (w : World κ ν) :
    World κ ν × Nat × Bool :=
  match find c key w with
  | some found => (w, found, hint.isSome)
  | none => ({ w with
      items := Function.update w.items node (some ⟨key, mapped, c, false⟩)
      maps := Function.update w.maps c { w.maps c with index := (w.maps c).index ++ [node] } },
      node, true)

omit [DecidableEq κ] in
def listUpdate (c : Nat) (position : Option Nat) (r : World κ ν × Nat × Bool) :
    Option (World κ ν × Nat × Bool) := do
  let (w, n, inserted) := r
  let w ← if inserted then listInsert c position n w else some w
  let items := Function.update w.items n ((w.items n).map fun item => { item with getter := c })
  return ({ w with items := items }, n, inserted)

def NotChangeIfExist.insert (c : Nat) (position : Option Nat) (node : Nat) (key : κ) (mapped : ν)
    (hint : Option Nat) (w : World κ ν) : Option (World κ ν × Nat × Bool) :=
  listUpdate c position (indexInsert c node key mapped hint w)

def MoveIfExist.insert (c : Nat) (position : Option Nat) (node : Nat) (key : κ) (mapped : ν)
    (w : World κ ν) : Option (World κ ν × Nat × Bool) :=
  match find c key w with
  | none => NotChangeIfExist.insert c position node key mapped none w
  | some found =>
    let iteratorInList := if some found = position then after found (w.maps c).list else some found
    NotChangeIfExist.insert c iteratorInList node key mapped (some found) w

def insert (mode : InsertMode) (c : Nat) (position : Option Nat) (node : Nat) (key : κ)
    (mapped : ν) (w : World κ ν) : Option (World κ ν × Nat × Bool) :=
  match mode with
  | .notChangeIfExist => NotChangeIfExist.insert c position node key mapped none w
  | .moveIfExist => MoveIfExist.insert c position node key mapped w

/-- `priv_insert` without a position inserts before the end. -/
def privInsert (mode : InsertMode) (c node : Nat) (key : κ) (mapped : ν) (w : World κ ν) :
    Option (World κ ν × Nat × Bool) :=
  insert mode c none node key mapped w

def pushBack (mode : InsertMode) (c node : Nat) (key : κ) (mapped : ν) (w : World κ ν) :
    Option (World κ ν × Nat × Bool) :=
  insert mode c none node key mapped w

/-- `push_front` is forwarded to `priv_insert`, not to `priv_push_front`. -/
def pushFront (mode : InsertMode) (c node : Nat) (key : κ) (mapped : ν) (w : World κ ν) :
    Option (World κ ν × Nat × Bool) :=
  privInsert mode c node key mapped w

/-! ### Removal and swap -/

/-- `index.erase` of an iterator, which destroys the item.  Nothing unlinks it: its
address stays in the list. -/
def indexErase (c n : Nat) (w : World κ ν) : Option (World κ ν) :=
  if n ∈ (w.maps c).index then some { w with
    items := Function.update w.items n none
    maps := Function.update w.maps c { w.maps c with index := (w.maps c).index.erase n } }
  else none

/-- `erase` moves its iterator on before it looks up what to erase. -/
def erase (c n : Nat) (w : World κ ν) : Option (World κ ν) := do
  let p ← after n (w.maps c).list
  let item ← w.items p
  let found ← find item.getter item.key w
  indexErase c found w

/-- `erase` of a key: the range of the key is empty. -/
def eraseKey (w : World κ ν) : World κ ν × Nat := (w, 0)

def clear (c : Nat) (w : World κ ν) : World κ ν where
  items n := if n ∈ (w.maps c).index then none else w.items n
  maps := Function.update w.maps c { w.maps c with index := [] }

def swap (c d : Nat) (w : World κ ν) : World κ ν :=
  { w with maps := Function.update (Function.update w.maps c (w.maps d)) d (w.maps c) }

/-! ### Runs -/

inductive Action (κ ν : Type)
  | insert (mode : InsertMode) (c : Nat) (position : Option Nat) (node : Nat) (key : κ) (mapped : ν)
  | pushBack (mode : InsertMode) (c node : Nat) (key : κ) (mapped : ν)
  | pushFront (mode : InsertMode) (c node : Nat) (key : κ) (mapped : ν)
  | erase (c n : Nat)
  | eraseKey (c : Nat) (key : κ)
  | clear (c : Nat)
  | swap (c d : Nat)

/-- The position is an iterator of the map, and a new node is at a free address. -/
def Valid (w : World κ ν) (c : Nat) (position : Option Nat) (node : Nat) : Prop :=
  (∀ p ∈ position, p ∈ (w.maps c).list) ∧ (w.items node).isNone

instance (w : World κ ν) (c : Nat) (position : Option Nat) (node : Nat) :
    Decidable (Valid w c position node) := by
  unfold Valid
  infer_instance

def next (s : Option (World κ ν)) (a : Action κ ν) : Option (Option (World κ ν)) :=
  s.bind fun w =>
    match a with
    | .insert mode c position node key mapped =>
      if Valid w c position node then
        some ((insert mode c position node key mapped w).map Prod.fst)
      else none
    | .pushBack mode c node key mapped =>
      if Valid w c none node then some ((pushBack mode c node key mapped w).map Prod.fst) else none
    | .pushFront mode c node key mapped =>
      if Valid w c none node then some ((pushFront mode c node key mapped w).map Prod.fst) else none
    | .erase c n => if n ∈ (w.maps c).list then some (erase c n w) else none
    | .eraseKey _ _ => some (some (eraseKey w).1)
    | .clear c => some (some (clear c w))
    | .swap c d => some (some (swap c d w))

def start : Option (World κ ν) := some ⟨fun _ => none, fun _ => ⟨[], []⟩⟩

def machine : Machine (Option (World κ ν)) (Action κ ν) where
  init s := s = start
  next := next

end Garbage.AssocList
