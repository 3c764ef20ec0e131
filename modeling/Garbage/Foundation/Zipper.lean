import Mathlib.Data.List.Basic
import Mathlib.Data.List.Nodup
import Mathlib.Data.Tree.Basic

/-!
# Places in a binary tree

A place in a tree is the subtree at it and the list of `Frame`s above it, the
innermost first: on which side the hole is, the key there, and the subtree on
the other side.  `plug` puts the tree together again.  In the inorder of the
tree the keys `before` a place come first, then those of the subtree, then those
`after` it.

`rotateUp side` lifts the child on `side`.  `balance` lifts the child that is
higher by two or more, without a look at the children of that child, and `up`
balances each node on the way from a place to the root.  None of them changes
the inorder.
-/

namespace Garbage.Foundation

open BinaryTree

/-- The two sides of a node. -/
inductive Side
  | left
  | right
  deriving DecidableEq, Repr

def Side.flip : Side → Side
  | left => right
  | right => left

@[simp] theorem Side.flip_flip (side : Side) : side.flip.flip = side := by cases side <;> rfl

@[simp] theorem Side.flip_ne (side : Side) : side.flip ≠ side := by cases side <;> decide

theorem Side.eq_flip_of_ne {side side' : Side} (h : side ≠ side') : side' = side.flip := by
  cases side <;> cases side' <;> first | rfl | exact absurd rfl h

variable {α : Type}

namespace Zipper

/-- The keys from left to right. -/
def inorder : BinaryTree α → List α
  | nil => []
  | node key l r => inorder l ++ key :: inorder r

def root? : BinaryTree α → Option α
  | nil => none
  | node key _ _ => some key

def child (side : Side) : BinaryTree α → BinaryTree α
  | nil => nil
  | node _ l r => match side with
    | .left => l
    | .right => r

/-- The node with `t` on `side` and `s` on the other side. -/
def join (side : Side) (key : α) (t s : BinaryTree α) : BinaryTree α :=
  match side with
  | .left => node key t s
  | .right => node key s t

/-- A node above a place: the side of the hole, the key, the other child. -/
structure Frame (α : Type) where
  side : Side
  key : α
  sibling : BinaryTree α

/-- The node of the frame with `t` in the hole. -/
def Frame.plug (f : Frame α) (t : BinaryTree α) : BinaryTree α := join f.side f.key t f.sibling

/-- The tree with `t` at the place. -/
def plug : List (Frame α) → BinaryTree α → BinaryTree α
  | [], t => t
  | f :: fs, t => plug fs (f.plug t)

/-- The keys of a frame to the left of its hole. -/
def Frame.before (f : Frame α) : List α :=
  match f.side with
  | .left => []
  | .right => inorder f.sibling ++ [f.key]

/-- The keys of a frame to the right of its hole. -/
def Frame.after (f : Frame α) : List α :=
  match f.side with
  | .left => f.key :: inorder f.sibling
  | .right => []

def before : List (Frame α) → List α
  | [] => []
  | f :: fs => before fs ++ f.before

def after : List (Frame α) → List α
  | [] => []
  | f :: fs => f.after ++ after fs

/-- The keys of the frames and of their siblings. -/
def keys : List (Frame α) → List α
  | [] => []
  | f :: fs => f.key :: (inorder f.sibling ++ keys fs)

/-- The key above a place, `base` at the root. -/
def above (base : Option α) : List (Frame α) → Option α
  | [] => base
  | f :: _ => some f.key

/-! ### Inorder -/

@[simp] theorem inorder_nil : inorder (nil : BinaryTree α) = [] := rfl

@[simp] theorem inorder_node (key : α) (l r : BinaryTree α) :
    inorder (node key l r) = inorder l ++ key :: inorder r := rfl

@[simp] theorem root?_nil : root? (nil : BinaryTree α) = none := rfl

@[simp] theorem root?_node (key : α) (l r : BinaryTree α) : root? (node key l r) = some key := rfl

@[simp] theorem root?_join (side : Side) (key : α) (t s : BinaryTree α) :
    root? (join side key t s) = some key := by cases side <;> rfl

@[simp] theorem child_join_self (side : Side) (key : α) (t s : BinaryTree α) :
    child side (join side key t s) = t := by cases side <;> rfl

@[simp] theorem child_join_flip (side : Side) (key : α) (t s : BinaryTree α) :
    child side.flip (join side key t s) = s := by cases side <;> rfl

theorem join_flip (side : Side) (key : α) (t s : BinaryTree α) :
    join side.flip key t s = join side key s t := by cases side <;> rfl

theorem inorder_join_perm (side : Side) (key : α) (t s : BinaryTree α) :
    (inorder (join side key t s)).Perm (key :: (inorder t ++ inorder s)) := by
  cases side with
  | left => exact List.perm_middle
  | right => exact List.perm_middle.trans (List.perm_append_comm.cons key)

@[simp] theorem mem_inorder_join {side : Side} {key x : α} {t s : BinaryTree α} :
    x ∈ inorder (join side key t s) ↔ x = key ∨ x ∈ inorder t ∨ x ∈ inorder s := by
  rw [(inorder_join_perm side key t s).mem_iff, List.mem_cons, List.mem_append]

theorem nodup_inorder_join (side : Side) {key : α} {t s : BinaryTree α} :
    (inorder (join side key t s)).Nodup ↔ (key ∉ inorder t ∧ key ∉ inorder s) ∧
      (inorder t).Nodup ∧ (inorder s).Nodup ∧ (inorder t).Disjoint (inorder s) := by
  rw [(inorder_join_perm side key t s).nodup_iff, List.nodup_cons, List.mem_append, not_or,
    List.nodup_append']

@[simp] theorem height_join (side : Side) (key : α) (t s : BinaryTree α) :
    (join side key t s).height = max t.height s.height + 1 := by
  cases side with
  | left => rfl
  | right => exact congrArg (· + 1) (Nat.max_comm _ _)

@[simp] theorem numNodes_join (side : Side) (key : α) (t s : BinaryTree α) :
    (join side key t s).numNodes = t.numNodes + s.numNodes + 1 := by
  cases side with
  | left => rfl
  | right => exact congrArg (· + 1) (Nat.add_comm _ _)

theorem mem_of_root? {t : BinaryTree α} {key : α} (h : root? t = some key) : key ∈ inorder t := by
  cases t with
  | nil => cases h
  | node k l r => simp_all

/-- Every tree but the empty one is a node, seen from either side. -/
theorem exists_join (side : Side) {t : BinaryTree α} (h : t ≠ nil) :
    ∃ key u s, t = join side key u s := by
  cases t with
  | nil => exact absurd rfl h
  | node key l r =>
    cases side with
    | left => exact ⟨key, l, r, rfl⟩
    | right => exact ⟨key, r, l, rfl⟩

theorem root?_eq_none {t : BinaryTree α} : root? t = none ↔ t = nil := by
  cases t <;> simp

theorem exists_root? {t : BinaryTree α} (h : t ≠ nil) : ∃ key, root? t = some key := by
  cases t with
  | nil => exact absurd rfl h
  | node key l r => exact ⟨key, rfl⟩

theorem length_inorder (t : BinaryTree α) : (inorder t).length = t.numNodes := by
  induction t with
  | nil => rfl
  | node key l r ihl ihr =>
    rw [inorder_node, List.length_append, List.length_cons, ihl, ihr, numNodes]
    omega

theorem inorder_plug_frame (f : Frame α) (t : BinaryTree α) :
    inorder (f.plug t) = f.before ++ inorder t ++ f.after := by
  obtain ⟨side, key, sibling⟩ := f
  cases side <;> simp [Frame.plug, join, Frame.before, Frame.after]

theorem inorder_plug (fs : List (Frame α)) : ∀ t : BinaryTree α,
    inorder (plug fs t) = before fs ++ inorder t ++ after fs := by
  induction fs with
  | nil => intro t; simp [plug, before, after]
  | cons f fs ih =>
    intro t
    rw [plug, ih, inorder_plug_frame, before, after]
    simp only [List.append_assoc]

theorem keys_append (fs gs : List (Frame α)) : keys (fs ++ gs) = keys fs ++ keys gs := by
  induction fs with
  | nil => rfl
  | cons f fs ih => rw [List.cons_append, keys, keys, ih, List.cons_append, List.append_assoc]

/-- A tree has the keys at a place and those around it. -/
theorem inorder_plug_perm (fs : List (Frame α)) : ∀ t : BinaryTree α,
    (inorder (plug fs t)).Perm (inorder t ++ keys fs) := by
  induction fs with
  | nil => intro t; rw [keys, List.append_nil]; rfl
  | cons f fs ih =>
    intro t
    have hjoin := inorder_join_perm f.side f.key t f.sibling
    refine (ih (f.plug t)).trans ((hjoin.append_right _).trans ?_)
    rw [keys, List.cons_append, List.append_assoc]
    exact List.perm_middle.symm

theorem root?_plug_frame (f : Frame α) (t : BinaryTree α) : root? (f.plug t) = some f.key :=
  root?_join f.side f.key t f.sibling

/-- The root of the whole tree depends on the root of the subtree only. -/
theorem root?_plug_congr (fs : List (Frame α)) : ∀ {t u : BinaryTree α}, root? t = root? u →
    root? (plug fs t) = root? (plug fs u) := by
  induction fs with
  | nil => intro t u h; exact h
  | cons f fs ih =>
    intro t u _
    exact ih ((root?_plug_frame f t).trans (root?_plug_frame f u).symm)

/-- Below a frame the root of the whole tree is above the subtree. -/
theorem exists_root?_plug_cons (fs : List (Frame α)) : ∀ (f : Frame α) (t : BinaryTree α),
    ∃ key ∈ keys (f :: fs), root? (plug (f :: fs) t) = some key := by
  induction fs with
  | nil => intro f t; exact ⟨f.key, by simp [keys], root?_plug_frame f t⟩
  | cons g fs ih =>
    intro f t
    obtain ⟨key, hkey, hroot⟩ := ih g (f.plug t)
    refine ⟨key, ?_, hroot⟩
    rw [keys, List.mem_cons, List.mem_append]
    exact .inr (.inr hkey)

theorem plug_append (fs gs : List (Frame α)) : ∀ t : BinaryTree α,
    plug (fs ++ gs) t = plug gs (plug fs t) := by
  induction fs with
  | nil => intro t; rfl
  | cons f fs ih => intro t; exact ih (f.plug t)

theorem before_append (fs gs : List (Frame α)) : before (fs ++ gs) = before gs ++ before fs := by
  induction fs with
  | nil => simp [before]
  | cons f fs ih => rw [List.cons_append, before, ih, before, List.append_assoc]

theorem after_append (fs gs : List (Frame α)) : after (fs ++ gs) = after fs ++ after gs := by
  induction fs with
  | nil => rfl
  | cons f fs ih => rw [List.cons_append, after, ih, after, List.append_assoc]

/-- Every occurrence of a key in the inorder has its place. -/
theorem exists_plug {key : α} {t : BinaryTree α} : ∀ {xs ys : List α},
    inorder t = xs ++ key :: ys → ∃ fs l r, t = plug fs (node key l r) ∧
      before fs ++ inorder l = xs ∧ inorder r ++ after fs = ys := by
  induction t with
  | nil => intro xs ys h; cases xs <;> cases h
  | node k l r ihl ihr =>
    intro xs ys h
    rw [inorder_node, List.append_eq_append_iff] at h
    rcases h with ⟨as, rfl, hr⟩ | ⟨bs, hl, hys⟩
    · cases as with
      | nil =>
        obtain ⟨rfl, rfl⟩ := List.cons.inj hr
        exact ⟨[], l, r, rfl, by simp [before], by simp [after]⟩
      | cons a as =>
        obtain ⟨rfl, hr'⟩ := List.cons.inj hr
        obtain ⟨fs, l', r', rfl, rfl, rfl⟩ := ihr hr'
        refine ⟨fs ++ [⟨.right, k, l⟩], l', r', by rw [plug_append]; rfl, ?_, ?_⟩
        · simp [before_append, before, Frame.before]
        · simp [after_append, after, Frame.after]
    · cases bs with
      | nil =>
        obtain ⟨rfl, rfl⟩ := List.cons.inj hys
        exact ⟨[], l, r, rfl, by simpa [before] using hl, by simp [after]⟩
      | cons b bs =>
        obtain ⟨rfl, rfl⟩ := List.cons.inj hys
        obtain ⟨fs, l', r', rfl, rfl, rfl⟩ := ihl hl
        refine ⟨fs ++ [⟨.left, k, r⟩], l', r', by rw [plug_append]; rfl, ?_, ?_⟩
        · simp [before_append, before, Frame.before]
        · simp [after_append, after, Frame.after]

theorem exists_plug_of_mem {key : α} {t : BinaryTree α} (h : key ∈ inorder t) :
    ∃ fs l r, t = plug fs (node key l r) := by
  obtain ⟨xs, ys, hxs⟩ := List.append_of_mem h
  obtain ⟨fs, l, r, ht, -⟩ := exists_plug hxs
  exact ⟨fs, l, r, ht⟩

/-! ### The last node on a side -/

/-- The way to the last node of `join side key t s` on `side`: the frames to it,
its key and its other child. -/
def extreme (side : Side) : BinaryTree α → α → BinaryTree α → List (Frame α) × α × BinaryTree α
  | nil, key, s => ([], key, s)
  | node k l r, key, s => match side with
    | .left => ((extreme .left l k r).1 ++ [⟨.left, key, s⟩], (extreme .left l k r).2)
    | .right => ((extreme .right r k l).1 ++ [⟨.right, key, s⟩], (extreme .right r k l).2)

theorem extreme_join (side : Side) (k : α) (u v : BinaryTree α) (key : α) (s : BinaryTree α) :
    extreme side (join side k u v) key s =
      ((extreme side u k v).1 ++ [⟨side, key, s⟩], (extreme side u k v).2) := by
  cases side <;> rfl

/-- Induction along one side of a tree. -/
theorem induction_on_side (side : Side) {P : BinaryTree α → Prop} (hnil : P nil)
    (hjoin : ∀ key u s, P u → P (join side key u s)) (t : BinaryTree α) : P t := by
  induction t with
  | nil => exact hnil
  | node key l r ihl ihr =>
    cases side with
    | left => exact hjoin key l r ihl
    | right => exact hjoin key r l ihr

theorem plug_extreme (side : Side) (t : BinaryTree α) : ∀ (key : α) (s : BinaryTree α),
    plug (extreme side t key s).1
      (join side (extreme side t key s).2.1 nil (extreme side t key s).2.2)
      = join side key t s := by
  induction t using induction_on_side side with
  | hnil => intro key s; cases side <;> rfl
  | hjoin k u v ih =>
    intro key s
    rw [extreme_join, plug_append, ih k v]
    rfl

theorem side_of_mem_extreme (side : Side) (t : BinaryTree α) : ∀ (key : α) (s : BinaryTree α),
    ∀ f ∈ (extreme side t key s).1, f.side = side := by
  induction t using induction_on_side side with
  | hnil => intro key s f hf; cases side <;> cases hf
  | hjoin k u v ih =>
    intro key s f hf
    rw [extreme_join] at hf
    rcases List.mem_append.mp hf with hf | hf
    · exact ih k v f hf
    · rw [List.mem_singleton.mp hf]

/-- A place below frames to the right has nothing after it. -/
theorem after_eq_nil {fs : List (Frame α)} (h : ∀ f ∈ fs, f.side = .right) : after fs = [] := by
  induction fs with
  | nil => rfl
  | cons f fs ih =>
    rw [after, ih fun g hg => h g (List.mem_cons_of_mem _ hg), Frame.after,
      h f List.mem_cons_self, List.append_nil]

/-! ### The nodes met on the way to a side -/

/-- The keys in the order in which they are met on the way to `side`. -/
def outward (side : Side) (t : BinaryTree α) : List α :=
  match side with
  | .left => (inorder t).reverse
  | .right => inorder t

/-- The keys beyond a place on `side`, the nearest first. -/
def ahead (side : Side) : List (Frame α) → List α
  | [] => []
  | f :: fs => (if f.side = side then [] else f.key :: outward side f.sibling) ++ ahead side fs

@[simp] theorem outward_nil (side : Side) : outward side (nil : BinaryTree α) = [] := by
  cases side <;> rfl

theorem outward_join_flip (side : Side) (key : α) (t s : BinaryTree α) :
    outward side (join side.flip key t s) = outward side t ++ key :: outward side s := by
  cases side with
  | left => simp [outward, join, Side.flip]
  | right => rfl

theorem ahead_right (fs : List (Frame α)) : ahead .right fs = after fs := by
  induction fs with
  | nil => rfl
  | cons f fs ih =>
    obtain ⟨side, key, sibling⟩ := f
    rw [ahead, after, ih]
    cases side <;> rfl

theorem ahead_left (fs : List (Frame α)) : ahead .left fs = (before fs).reverse := by
  induction fs with
  | nil => rfl
  | cons f fs ih =>
    obtain ⟨side, key, sibling⟩ := f
    rw [ahead, before, ih, List.reverse_append]
    cases side <;> simp [Frame.before, outward]

/-- The first key met is the last one on the other side. -/
theorem head?_outward (side : Side) (t : BinaryTree α) : ∀ (key : α) (s : BinaryTree α)
    (l : List α), (outward side (join side.flip key t s) ++ l).head? =
      some (extreme side.flip t key s).2.1 := by
  induction t using induction_on_side side.flip with
  | hnil => intro key s l; rw [outward_join_flip, outward_nil]; cases side <;> rfl
  | hjoin k u v ih =>
    intro key s l
    rw [outward_join_flip, List.append_assoc, ih k v, extreme_join]

/-- A key in the order met on the way to `side` has its place, and the keys met
after it are those on `side` of it. -/
theorem exists_place_outward (side : Side) {key : α} {t : BinaryTree α} {xs ys : List α}
    (h : outward side t = xs ++ key :: ys) :
    ∃ fs u v, t = plug fs (join side key u v) ∧ ys = outward side u ++ ahead side fs := by
  cases side with
  | left =>
    have h' : inorder t = ys.reverse ++ key :: xs.reverse := by
      rw [← List.reverse_reverse (inorder t), show (inorder t).reverse = _ from h]
      simp
    obtain ⟨fs, l, r, rfl, hl, -⟩ := exists_plug h'
    refine ⟨fs, l, r, rfl, ?_⟩
    rw [ahead_left, ← List.reverse_reverse ys, ← hl, List.reverse_append]
    rfl
  | right =>
    obtain ⟨fs, l, r, rfl, -, hr⟩ := exists_plug (show inorder t = _ from h)
    exact ⟨fs, r, l, rfl, by rw [ahead_right]; exact hr.symm⟩

theorem ne_nil_of_outward {side : Side} {key : α} {t : BinaryTree α} {xs ys : List α}
    (h : outward side t = xs ++ key :: ys) : t ≠ nil := by
  rintro rfl
  rw [outward_nil] at h
  cases xs <;> cases h

/-! ### Positions -/

/-- The position of the root of `t` below the frames `fs`. -/
def position (fs : List (Frame α)) (t : BinaryTree α) : Nat :=
  (before fs).length + (child .left t).numNodes

/-- The key at the position of a place. -/
theorem getElem?_position (fs : List (Frame α)) {t : BinaryTree α} (ht : t ≠ nil) :
    (inorder (plug fs t))[position fs t]? = root? t := by
  cases t with
  | nil => exact absurd rfl ht
  | node key l r =>
    have hlen : position fs (node key l r) = (before fs ++ inorder l).length := by
      rw [List.length_append, length_inorder]
      rfl
    rw [hlen, inorder_plug, inorder_node, ← List.append_assoc, List.append_assoc,
      List.cons_append, List.getElem?_append_right (Nat.le_refl _), Nat.sub_self]
    rfl

/-! ### Rotations -/

/-- Lift the child on `side`. -/
def rotateUp : Side → BinaryTree α → BinaryTree α
  | .left, node p (node q a b) c => node q a (node p b c)
  | .right, node p c (node q b a) => node q (node p c b) a
  | _, t => t

@[simp] theorem rotateUp_join (side : Side) (p q : α) (a b c : BinaryTree α) :
    rotateUp side (join side p (join side q a b) c) = join side q a (join side.flip p c b) := by
  cases side <;> rfl

theorem inorder_rotateUp (side : Side) (t : BinaryTree α) :
    inorder (rotateUp side t) = inorder t := by
  cases t with
  | nil => cases side <;> rfl
  | node p l r =>
    cases side with
    | left => cases l <;> simp [rotateUp]
    | right => cases r <;> simp [rotateUp]

/-- Lift the child that is higher by two or more. -/
def balance (t : BinaryTree α) : BinaryTree α :=
  if (child .left t).height > (child .right t).height + 1 then rotateUp .left t
  else if (child .right t).height > (child .left t).height + 1 then rotateUp .right t
  else t

/-- Balance each node from a place up to the root. -/
def up : List (Frame α) → BinaryTree α → BinaryTree α
  | [], t => t
  | f :: fs, t => up fs (balance (f.plug t))

theorem balance_of_heavy (side : Side) {key : α} {t s : BinaryTree α}
    (h : t.height > s.height + 1) :
    balance (join side key t s) = rotateUp side (join side key t s) := by
  cases side with
  | left => exact if_pos h
  | right => exact (if_neg (show ¬ s.height > t.height + 1 by omega)).trans (if_pos h)

theorem balance_of_even (side : Side) {key : α} {t s : BinaryTree α}
    (ht : t.height ≤ s.height + 1) (hs : s.height ≤ t.height + 1) :
    balance (join side key t s) = join side key t s := by
  cases side with
  | left => exact (if_neg (Nat.not_lt.mpr ht)).trans (if_neg (Nat.not_lt.mpr hs))
  | right => exact (if_neg (Nat.not_lt.mpr hs)).trans (if_neg (Nat.not_lt.mpr ht))

theorem inorder_balance (t : BinaryTree α) : inorder (balance t) = inorder t := by
  rw [balance]
  split
  · exact inorder_rotateUp .left t
  · split
    · exact inorder_rotateUp .right t
    · rfl

/-- **Balancing on the way up keeps the inorder.** -/
theorem inorder_up (fs : List (Frame α)) : ∀ t : BinaryTree α,
    inorder (up fs t) = before fs ++ inorder t ++ after fs := by
  induction fs with
  | nil => intro t; simp [up, before, after]
  | cons f fs ih =>
    intro t
    rw [up, ih, inorder_balance, inorder_plug_frame, before, after]
    simp only [List.append_assoc]

/-! ### Vines -/

/-- The tree without left children. -/
def vine : List α → BinaryTree α
  | [] => nil
  | key :: keys => node key nil (vine keys)

@[simp] theorem inorder_vine (l : List α) : inorder (vine l) = l := by
  induction l with
  | nil => rfl
  | cons key l ih => rw [vine, inorder_node, inorder_nil, ih, List.nil_append]

theorem root?_vine (l : List α) : root? (vine l) = l.head? := by cases l <;> rfl

/-! ### Insertion and deletion -/

/-- The empty place right before the root of `node key l r`. -/
def gap (fs : List (Frame α)) (key : α) (l r : BinaryTree α) : List (Frame α) :=
  match l with
  | nil => ⟨.left, key, r⟩ :: fs
  | node k a b => ⟨.right, (extreme .right b k a).2.1, (extreme .right b k a).2.2⟩ ::
      ((extreme .right b k a).1 ++ ⟨.left, key, r⟩ :: fs)

/-- The place from which the tree is balanced after the root of `node key l r`
was taken out: its left neighbor moves into its place. -/
def cut (fs : List (Frame α)) (l r : BinaryTree α) : List (Frame α) × BinaryTree α :=
  match l with
  | nil => (fs, r)
  | node k a b => ((extreme .right b k a).1 ++ ⟨.left, (extreme .right b k a).2.1, r⟩ :: fs,
      (extreme .right b k a).2.2)

/-- The inorder of a node by its last descendant to the right. -/
theorem inorder_extreme_right (k : α) (a b : BinaryTree α) : inorder (node k a b) =
    before (extreme .right b k a).1 ++
      (inorder (extreme .right b k a).2.2 ++ [(extreme .right b k a).2.1]) := by
  have h := congrArg inorder (plug_extreme .right b k a)
  rw [inorder_plug, after_eq_nil (side_of_mem_extreme .right b k a), List.append_nil] at h
  exact h.symm

theorem plug_gap (fs : List (Frame α)) (key : α) (l r : BinaryTree α) :
    plug (gap fs key l r) nil = plug fs (node key l r) := by
  cases l with
  | nil => rfl
  | node k a b =>
    rw [gap, plug, plug_append]
    exact congrArg (fun t => plug fs (node key t r)) (plug_extreme .right b k a)

theorem before_gap (fs : List (Frame α)) (key : α) (l r : BinaryTree α) :
    before (gap fs key l r) = before fs ++ inorder l := by
  cases l with
  | nil => rfl
  | node k a b =>
    rw [gap, before, before_append, before, inorder_extreme_right]
    simp [Frame.before]

theorem after_gap (fs : List (Frame α)) (key : α) (l r : BinaryTree α) :
    after (gap fs key l r) = key :: (inorder r ++ after fs) := by
  cases l with
  | nil => rfl
  | node k a b =>
    rw [gap, after, after_append, after, after_eq_nil (side_of_mem_extreme .right b k a)]
    rfl

/-- **A key put into the gap comes right before the old one.** -/
theorem inorder_up_gap (fs : List (Frame α)) (key x : α) (l r : BinaryTree α) :
    inorder (up (gap fs key l r) (node x nil nil)) =
      before fs ++ inorder l ++ x :: key :: (inorder r ++ after fs) := by
  rw [inorder_up, before_gap, after_gap]
  simp

/-- **Taking a key out leaves the others in order.** -/
theorem inorder_up_cut (fs : List (Frame α)) (l r : BinaryTree α) :
    inorder (up (cut fs l r).1 (cut fs l r).2) =
      before fs ++ inorder l ++ (inorder r ++ after fs) := by
  rw [inorder_up]
  cases l with
  | nil => simp [cut]
  | node k a b =>
    rw [cut, before_append, after_append, before, after,
      after_eq_nil (side_of_mem_extreme .right b k a), inorder_extreme_right]
    simp [Frame.before, Frame.after]

end Zipper

end Garbage.Foundation
