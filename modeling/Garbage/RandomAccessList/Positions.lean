import Garbage.RandomAccessList.Agreement
import Mathlib.Data.BitVec
import Mathlib.Tactic.Ring

/-!
# What the positions are

The members of `Indexing` on a tree with right links and numbers, with their
assertions and without.  `neighbor` steps along the nodes from left to right or
back.  `getIndex` is the position of a node up to `2 ^ w`: what it has added up
on its way is the position of the node where it is less that of the node where
it started.  `getByIndex` is the node at a position; the positions it looks for
are always those of the subtree where it is.
-/

namespace Garbage.RandomAccessList

open Foundation (Prog Side)
open Foundation.Prog
open Foundation.Zipper
open BinaryTree

variable {α ε : Type} {w : Nat} {t T : BinaryTree Ptr} {fs : List (Frame Ptr)} {f : Frame Ptr}
  {p : Ptr} {s : Tree α}

namespace AvlTreeStump

variable {E : ε → Tree α → Prop}

/-! ### Steps -/

theorem wp_neighbor_outward (side : Side) {xs ys : List Ptr} {Q : Option Ptr → Tree α → Prop}
    (hR : Rep s T) (hT : outward side T = xs ++ p :: ys) (hQ : Q ys.head? s) :
    wp (neighbor side p) Q E s :=
  wp_neighbor_of_outward side hR.settled.toPlace hT hQ

theorem Asserted.wp_neighbor_outward {E : Assertion → Tree α → Prop} (side : Side)
    {xs ys : List Ptr} {Q : Option Ptr → Tree α → Prop}
    (hR : Rep s T) (hT : outward side T = xs ++ p :: ys) (hQ : Q ys.head? s) :
    wp (neighbor side (some p)) Q E s := by
  obtain ⟨fs, u, v, rfl, -⟩ := exists_place_outward side hT
  exact (agrees_neighbor side hR.located).wp (AvlTreeStump.wp_neighbor_outward side hR hT hQ)

theorem wp_applyNTimes {side : Side} {functor : Option Ptr → Prog (Tree α) ε (Option Ptr)}
    (hfunctor : ∀ {xs ys : List Ptr} {p : Ptr} {Q : Option Ptr → Tree α → Prop},
      outward side T = xs ++ p :: ys → Q ys.head? s → wp (functor (some p)) Q E s) (n : Nat) :
    ∀ {xs ys : List Ptr} {p : Ptr}, outward side T = xs ++ p :: ys → n ≤ ys.length →
      wp (applyNTimes functor n (some p)) (fun o s' => s' = s ∧ o = (p :: ys)[n]?) E s := by
  induction n with
  | zero =>
    intro xs ys p _ _
    exact ⟨rfl, rfl⟩
  | succ n ih =>
    intro xs ys p hT hn
    cases ys with
    | nil => cases hn
    | cons q ys =>
      rw [applyNTimes, wp_bind]
      refine hfunctor hT ?_
      have hT' : outward side T = (xs ++ [p]) ++ q :: ys := by rw [hT]; simp
      exact ih hT' (Nat.le_of_succ_le_succ hn)

/-! ### `getIndex` -/

theorem wp_leftSubtreeSize {Q : Nat → Tree α → Prop} (hS : Settled s.heap fs t)
    (ht : root? t = some p) (hQ : Q (child .left t).numNodes s) :
    wp (leftSubtreeSize p) Q E s := by
  cases t with
  | nil => cases ht
  | node q l r =>
    obtain rfl : q = p := Option.some.inj ht
    unfold leftSubtreeSize
    rw [wp_bind, wp_load, hS.linked.2.1]
    refine ⟨hS.live q (by simp), ?_⟩
    exact wp_nodeSize hS.counted.2.2.1 (fun x hx => hS.live x (by simp [hx])) hQ

theorem wp_rightSubtreeSize {Q : BitVec w → Tree α → Prop} (hS : Settled s.heap fs t)
    (ht : root? t = some p)
    (hQ : Q (BitVec.ofNat w t.numNodes - BitVec.ofNat w (child .left t).numNodes - 1) s) :
    wp (rightSubtreeSize w p) Q E s := by
  unfold rightSubtreeSize
  rw [wp_bind, wp_load]
  refine ⟨hS.live p (List.mem_append_left _ (mem_of_root? ht)), ?_⟩
  rw [wp_bind]
  refine wp_leftSubtreeSize hS ht ?_
  cases t with
  | nil => cases ht
  | node q l r =>
    obtain rfl : q = p := Option.some.inj ht
    rw [hS.counted.1]
    exact hQ

/-- From a node to its parent, `getIndex` adds the difference of their positions. -/
theorem wp_pathSize {Q : BitVec w → Tree α → Prop} (hR : Rep s (plug (f :: fs) t))
    (ht : root? t = some p)
    (hQ : Q (BitVec.ofNat w (position fs (f.plug t)) - BitVec.ofNat w (position (f :: fs) t)) s) :
    wp (pathSize w f.side f.key) Q E s := by
  have hS : Settled s.heap (f :: fs) t := hR.settled.at_place
  have hR' : Rep s (plug fs (f.plug t)) := hR
  have hS' : Settled s.heap fs (f.plug t) := hR'.settled.at_place
  have hlive : f.key ∈ s.heap.live := hS.live f.key (by simp [keys])
  obtain ⟨-, hchild, -⟩ := hS.ctx
  obtain ⟨side, key, sibling⟩ := f
  cases side with
  | left =>
    show wp (leftPathSize w key) _ _ _
    unfold leftPathSize
    rw [wp_bind, wp_load, show (s.heap.node key).left = some p from hchild.trans ht]
    refine ⟨hlive, ?_⟩
    dsimp only
    rw [wp_bind]
    refine wp_leftSubtreeSize hS' rfl ?_
    rw [wp_bind]
    refine wp_leftSubtreeSize hS ht ?_
    rw [wp_pure]
    convert hQ using 1
    simp only [position, before, Frame.before, Frame.plug, join, child, List.append_nil,
      BitVec.ofNat_add]
    ring
  | right =>
    show wp (do
      let size ← rightPathSize w key
      pure (-size)) _ _ _
    unfold rightPathSize
    rw [wp_bind, wp_bind]
    refine wp_rightSubtreeSize hS' rfl ?_
    rw [wp_bind, wp_load, show (s.heap.node key).right = some p from hchild.trans ht]
    refine ⟨hlive, ?_⟩
    dsimp only
    rw [wp_bind]
    refine wp_rightSubtreeSize hS ht ?_
    rw [wp_pure, wp_pure]
    convert hQ using 1
    simp only [position, before, Frame.before, Frame.plug, join, child, numNodes,
      List.length_append, List.length_singleton, length_inorder, BitVec.ofNat_add]
    ring

/-- A step of `getIndex` towards the root. -/
def ascend (childType : Ptr → Prog (Tree α) ε Side) (s : Ptr × BitVec w) :
    Prog (Tree α) ε (Ptr × BitVec w ⊕ Ptr × BitVec w) := do
  match ← load s.1 TAvlTreeNode.parent with
  | none => pure (.inr s)
  | some parent => do
    let type ← childType s.1
    let size ← pathSize w type parent
    pure (.inl (parent, s.2 + size))

/-- The way to the root. -/
theorem wp_ascends {childType : Ptr → Prog (Tree α) ε Side} (hR : Rep s T)
    (hchildType : ∀ {f : Frame Ptr} {fs : List (Frame Ptr)} {t : BinaryTree Ptr} {p : Ptr}
      {Q : Side → Tree α → Prop}, T = plug (f :: fs) t → root? t = some p → Q f.side s →
      wp (childType p) Q E s)
    (hT : T = plug fs t) (ht : root? t = some p) :
    wp (rounds (ascend childType) (p, (0 : BitVec w))) (fun x s' => s' = s ∧ root? T = some x.1 ∧
      x.2 = BitVec.ofNat w (position [] T) - BitVec.ofNat w (position fs t)) E s := by
  refine wp_rounds (I := fun n x s' => s' = s ∧ ∃ gs u, T = plug gs u ∧ root? u = some x.1 ∧
    x.2 = BitVec.ofNat w (position gs u) - BitVec.ofNat w (position fs t) ∧ n = gs.length) ?_
    fs.length ⟨rfl, fs, t, hT, ht, (BitVec.sub_self _).symm, rfl⟩ ?_
  · rintro n ⟨x, acc⟩ s' ⟨rfl, gs, u, rfl, hx, rfl, rfl⟩
    have hP : Place s'.heap gs u := hR.settled.at_place.toPlace
    unfold ascend
    rw [wp_bind, wp_load, hP.linked.parent hx]
    refine ⟨hP.live x (List.mem_append_left _ (mem_of_root? hx)), ?_⟩
    cases gs with
    | nil => exact ⟨rfl, hx, rfl⟩
    | cons g gs =>
      dsimp only [above]
      rw [wp_bind]
      refine hchildType rfl hx ?_
      rw [wp_bind]
      refine wp_pathSize hR hx ?_
      rw [wp_pure]
      refine ⟨gs.length, Nat.lt_succ_self _, rfl, gs, g.plug u, rfl, root?_plug_frame g u, ?_, rfl⟩
      ring
  · subst hT
    exact hR.settled.at_place.toPlace.length_le

/-- The end of `getIndex`. -/
theorem wp_fromRoot {i : Nat} {Q : BitVec w → Tree α → Prop} (hR : Rep s T)
    (hp : root? T = some p) (hQ : Q (BitVec.ofNat w i) s) :
    wp (do
      let leftSize ← leftSubtreeSize p
      pure (BitVec.ofNat w leftSize -
        (BitVec.ofNat w (position [] T) - BitVec.ofNat w i))) Q E s := by
  rw [wp_bind]
  refine wp_leftSubtreeSize hR.settled hp ?_
  rw [wp_pure]
  convert hQ using 1
  simp only [position, before, List.length_nil, Nat.zero_add]
  ring

/-- **`getIndex`** is the position of a node. -/
theorem wp_getIndex {Q : BitVec w → Tree α → Prop} (hR : Rep s (plug fs t))
    (ht : root? t = some p) (hQ : Q (BitVec.ofNat w (position fs t)) s) :
    wp (getIndex w p) Q E s := by
  show wp (do
    let last ← rounds (ascend childType) (p, (0 : BitVec w))
    let leftSize ← leftSubtreeSize last.1
    pure (BitVec.ofNat w leftSize - last.2)) Q E s
  rw [wp_bind]
  refine (wp_ascends hR (fun hT hp hQ => ?_) rfl ht).imp ?_
  · exact wp_childType (hT ▸ hR).settled.at_place.toPlace hp hQ
  · rintro ⟨x, acc⟩ s' ⟨rfl, hx, rfl⟩
    exact wp_fromRoot hR hx hQ

theorem Asserted.wp_getIndex {E : Assertion → Tree α → Prop} {Q : BitVec w → Tree α → Prop}
    (hR : Rep s (plug fs t)) (ht : root? t = some p)
    (hQ : Q (BitVec.ofNat w (position fs t)) s) : wp (getIndex w p) Q E s := by
  show wp (do
    require .getIndex fun this => this.stump.root ≠ none
    let last ← rounds (ascend childType) (p, (0 : BitVec w))
    require .getIndex fun this => some last.1 = this.stump.root
    let leftSize ← leftSubtreeSize last.1
    pure (BitVec.ofNat w leftSize - last.2)) Q E s
  rw [wp_bind, wp_require]
  refine ⟨fun _ => ?_, fun h => absurd (hR.located.root_ne_none ht) h⟩
  rw [wp_bind]
  refine (wp_ascends hR (fun hT hp hQ => ?_) rfl ht).imp ?_
  · have hR' := hT ▸ hR
    exact (agrees_childType hR'.located hp).wp (wp_childType hR'.settled.at_place.toPlace hp hQ)
  · rintro ⟨x, acc⟩ s' ⟨rfl, hx, rfl⟩
    rw [wp_bind, wp_require]
    refine ⟨fun _ => ?_, fun h => absurd (hx.symm.trans hR.root.symm) h⟩
    exact wp_fromRoot hR hx hQ

/-! ### `getByIndex` -/

/-- The search stands at a subtree that has the position looked for; `n` is the
number of its nodes. -/
def Searching (T : BinaryTree Ptr) (searchedIndex n : Nat) (c : Search) : Prop :=
  ∃ fs l r, T = plug fs (node c.currentNode l r) ∧ c.leftIndexBorder = (before fs).length ∧
    c.currentIndex = c.leftIndexBorder + l.numNodes ∧ c.leftIndexBorder ≤ searchedIndex ∧
    searchedIndex < c.leftIndexBorder + n ∧ n = (node c.currentNode l r).numNodes

theorem Searching.border_le {k n : Nat} {c : Search} (h : Searching T k n c) :
    c.leftIndexBorder ≤ c.currentIndex := by
  obtain ⟨_, l, _, -, -, hc, -⟩ := h
  omega

/-- The search goes on at a child. -/
theorem wp_descend {bad : Prog (Tree α) ε (Search ⊕ Option Ptr)} {k border : Nat}
    {Q : Search ⊕ Option Ptr → Tree α → Prop} (hR : Rep s (plug fs t))
    (hborder : border = (before fs).length) (hle : border ≤ k) (hlt : k < border + t.numNodes)
    (hQ : ∀ c, Searching (plug fs t) k t.numNodes c → Q (.inl c) s) :
    wp (Search.descend (root? t) border bad) Q E s := by
  cases t with
  | nil => exact absurd hlt (by rw [numNodes]; omega)
  | node q l r =>
    rw [root?_node]
    show wp (do
      let leftSize ← leftSubtreeSize q
      pure (.inl { currentNode := q, leftIndexBorder := border,
                   currentIndex := border + leftSize })) Q E s
    rw [wp_bind]
    refine wp_leftSubtreeSize hR.settled.at_place rfl ?_
    rw [wp_pure]
    exact hQ _ ⟨fs, l, r, rfl, hborder, rfl, hle, hlt, rfl⟩

theorem wp_searchRound (bad : Prog (Tree α) ε (Search ⊕ Option Ptr)) {k n : Nat} {c : Search}
    (hR : Rep s T) (hc : Searching T k n c) :
    wp (Search.body k bad c) (fun r s' => s' = s ∧
      match r with
      | .inl c' => ∃ m, m < n ∧ Searching T k m c'
      | .inr o => o = (inorder T)[k]?) E s := by
  obtain ⟨fs, l, r, rfl, hborder, hcurrent, hle, hlt, rfl⟩ := hc
  obtain ⟨x, border, current⟩ := c
  dsimp only at hborder hcurrent hle hlt hR
  have hS : Settled s.heap fs (node x l r) := hR.settled.at_place
  have hx : x ∈ s.heap.live := hS.live x (by simp)
  obtain ⟨-, hleft, hright, -⟩ := hS.linked
  rw [numNodes] at hlt
  unfold Search.body
  dsimp only
  rw [wp_ite]
  refine ⟨fun hgt => ?_, fun hgt => ?_⟩
  · rw [wp_bind, wp_load, hleft]
    have hRl : Rep s (plug (⟨.left, x, r⟩ :: fs) l) := hR
    refine ⟨hx, wp_descend hRl ?_ hle (by omega) ?_⟩
    · rw [hborder]
      simp [before, Frame.before]
    · intro c' hc'
      exact ⟨rfl, l.numNodes, by rw [numNodes]; omega, hc'⟩
  · rw [wp_ite]
    refine ⟨fun hlt' => ?_, fun hlt' => ?_⟩
    · rw [wp_bind]
      refine wp_leftSubtreeSize hS rfl ?_
      rw [wp_bind, wp_load, hright]
      have hRr : Rep s (plug (⟨.right, x, l⟩ :: fs) r) := hR
      refine ⟨hx, wp_descend (k := k) hRr ?_ ?_ ?_ ?_⟩
      · rw [hborder]
        simp only [child, before, Frame.before, List.length_append, List.length_singleton,
          length_inorder]
        omega
      · rw [child]
        omega
      · rw [child]
        omega
      · intro c' hc'
        exact ⟨rfl, r.numNodes, by rw [numNodes]; omega, hc'⟩
    · have hk : k = position fs (node x l r) := by
        rw [position, child]
        omega
      rw [wp_pure, hk, getElem?_position fs (by simp)]
      exact ⟨rfl, rfl⟩

theorem wp_search {body : Search → Prog (Tree α) ε (Search ⊕ Option Ptr)} {k : Nat}
    (hR : Rep s T) (hp : root? T = some p) (hk : k < T.numNodes)
    (hbody : ∀ n c, Searching T k n c → wp (body c) (fun r s' => s' = s ∧
      match r with
      | .inl c' => ∃ m, m < n ∧ Searching T k m c'
      | .inr o => o = (inorder T)[k]?) E s) :
    wp (do
      let currentIndex ← leftSubtreeSize p
      rounds body { currentNode := p, leftIndexBorder := 0, currentIndex })
      (fun o s' => s' = s ∧ o = (inorder T)[k]?) E s := by
  rw [wp_bind]
  refine wp_leftSubtreeSize hR.settled hp ?_
  refine wp_rounds (I := fun n c s' => s' = s ∧ Searching T k n c) ?_ T.numNodes ⟨rfl, ?_⟩
    hR.settled.toPlace.numNodes_le
  · rintro n c s' ⟨rfl, hc⟩
    refine (hbody n c hc).imp ?_
    rintro r s'' ⟨rfl, hr⟩
    cases r with
    | inl c' =>
      obtain ⟨m, hm, hc'⟩ := hr
      exact ⟨m, hm, rfl, hc'⟩
    | inr o => exact ⟨rfl, hr⟩
  · cases T with
    | nil => cases hp
    | node q l r =>
      obtain rfl : q = p := Option.some.inj hp
      have hk' : k < 0 + (node q l r).numNodes := by rwa [Nat.zero_add]
      exact ⟨[], l, r, rfl, rfl, (Nat.zero_add _).symm, Nat.zero_le _, hk', rfl⟩

/-- **`getByIndex`** is the node at a position, or `NULL` beyond the last one. -/
theorem wp_getByIndex (k : Nat) (hR : Rep s T) (hT : T ≠ nil) :
    wp (getByIndex k) (fun o s' => s' = s ∧ o = (inorder T)[k]?) E s := by
  obtain ⟨p, hp⟩ := exists_root? hT
  unfold getByIndex
  rw [wp_bind, wp_get, hR.root, hp]
  dsimp only
  rw [wp_bind, ← hp]
  refine wp_nodeSize hR.settled.counted (fun x hx => hR.settled.live x
    (List.mem_append_left _ hx)) ?_
  rw [wp_ite]
  refine ⟨fun hk => ?_, fun hk => ?_⟩
  · rw [wp_pure, List.getElem?_eq_none (by rw [length_inorder]; exact hk)]
    exact ⟨rfl, rfl⟩
  · exact wp_search hR hp (Nat.lt_of_not_le hk) fun n c hc => wp_searchRound _ hR hc

theorem Asserted.wp_getByIndex {E : Assertion → Tree α → Prop} (k : Nat) (hR : Rep s T)
    (hT : T ≠ nil) :
    wp (getByIndex k) (fun o s' => s' = s ∧ o = (inorder T)[k]?) E s := by
  obtain ⟨p, hp⟩ := exists_root? hT
  unfold getByIndex
  rw [wp_bind, wp_get, hR.root, hp]
  dsimp only
  rw [wp_bind, ← hp]
  refine wp_nodeSize hR.settled.counted (fun x hx => hR.settled.live x
    (List.mem_append_left _ hx)) ?_
  rw [wp_ite]
  refine ⟨fun hk => ?_, fun hk => ?_⟩
  · rw [wp_pure, List.getElem?_eq_none (by rw [length_inorder]; exact hk)]
    exact ⟨rfl, rfl⟩
  · refine wp_search hR hp (Nat.lt_of_not_le hk) fun n c hc => ?_
    rw [wp_bind]
    refine (wp_searchRound _ hR hc).imp ?_
    rintro r s' ⟨rfl, hr⟩
    cases r with
    | inl c' =>
      obtain ⟨m, hm, hc'⟩ := hr
      dsimp only
      rw [wp_bind, wp_require]
      exact ⟨fun _ => ⟨rfl, m, hm, hc'⟩, fun h => absurd hc'.border_le h⟩
    | inr o => exact ⟨rfl, hr⟩

/-! ### `goTo` and `distance` -/

/-- The side to which `goTo` goes. -/
def stepSide (stepAmount : Int) : Side := if 0 ≤ stepAmount then .right else .left

/-- What the members that find their way in a tree do. -/
structure Navigates (w : Nat) (neighbor : Side → Option Ptr → Prog (Tree α) ε (Option Ptr))
    (getIndex : Ptr → Prog (Tree α) ε (BitVec w))
    (getByIndex : Nat → Prog (Tree α) ε (Option Ptr)) : Prop where
  neighbor {s : Tree α} {T : BinaryTree Ptr} {p : Ptr} {xs ys : List Ptr} {E : ε → Tree α → Prop}
    {Q : Option Ptr → Tree α → Prop} (side : Side) : Rep s T →
    outward side T = xs ++ p :: ys → Q ys.head? s → wp (neighbor side (some p)) Q E s
  getIndex {s : Tree α} {t : BinaryTree Ptr} {fs : List (Frame Ptr)} {p : Ptr}
    {E : ε → Tree α → Prop} {Q : BitVec w → Tree α → Prop} : Rep s (plug fs t) →
    root? t = some p → Q (BitVec.ofNat w (position fs t)) s → wp (getIndex p) Q E s
  getByIndex {s : Tree α} {T : BinaryTree Ptr} {E : ε → Tree α → Prop} (k : Nat) : Rep s T →
    T ≠ nil → wp (getByIndex k) (fun o s' => s' = s ∧ o = (inorder T)[k]?) E s

theorem navigates (w : Nat) :
    Navigates w (neighborOrNull (α := α) (ε := ε)) (getIndex w) getByIndex where
  neighbor side hR hT hQ := wp_neighbor_outward side hR hT hQ
  getIndex := wp_getIndex
  getByIndex := wp_getByIndex

theorem Asserted.navigates (w : Nat) :
    Navigates w (neighbor (α := α)) (getIndex w) getByIndex where
  neighbor side hR hT hQ := wp_neighbor_outward side hR hT hQ
  getIndex := wp_getIndex
  getByIndex := wp_getByIndex

namespace Navigates

variable {neighbor : Side → Option Ptr → Prog (Tree α) ε (Option Ptr)}
  {getIndex : Ptr → Prog (Tree α) ε (BitVec w)}
  {getByIndex : Nat → Prog (Tree α) ε (Option Ptr)}

/-- **`goTo`** that stays in the tree comes to its end. -/
theorem goTo (h : Navigates w neighbor getIndex getByIndex) {k : Int} {xs ys : List Ptr}
    {Q : Option Ptr → Tree α → Prop} (hR : Rep s T)
    (hT : outward (stepSide k) T = xs ++ p :: ys) (hk : k.natAbs ≤ ys.length)
    (hQ : ∀ o, Q o s) :
    wp (do
      if k.natAbs ≤ 2 then applyNTimes (neighbor (stepSide k)) k.natAbs (some p)
      else do
        let i ← getIndex p
        getByIndex (i + BitVec.ofInt w k).toNat) Q E s := by
  rw [wp_ite]
  refine ⟨fun _ => ?_, fun _ => ?_⟩
  · refine (wp_applyNTimes (fun hT hQ => ?_) k.natAbs hT hk).imp ?_
    · exact h.neighbor (stepSide k) hR hT hQ
    · rintro o s' ⟨rfl, -⟩
      exact hQ o
  · have hne := ne_nil_of_outward hT
    obtain ⟨fs, u, v, rfl, -⟩ := exists_place_outward (stepSide k) hT
    rw [wp_bind]
    refine h.getIndex hR (root?_join ..) ((h.getByIndex _ hR hne).imp ?_)
    rintro o s' ⟨rfl, -⟩
    exact hQ o

/-- **`distance`** of two nodes. -/
theorem distance (h : Navigates w neighbor getIndex getByIndex) {gs : List (Frame Ptr)}
    {u : BinaryTree Ptr} {q : Ptr} {Q : Int → Tree α → Prop} (hR : Rep s T)
    (hfs : T = plug fs t) (ht : root? t = some p) (hgs : T = plug gs u) (hu : root? u = some q)
    (hQ : Q (BitVec.ofNat w (position gs u) - BitVec.ofNat w (position fs t)).toInt s) :
    wp (do
      let rightIndex ← getIndex q
      let leftIndex ← getIndex p
      pure (rightIndex - leftIndex).toInt) Q E s := by
  rw [wp_bind]
  refine h.getIndex (hgs ▸ hR) hu ?_
  rw [wp_bind]
  exact h.getIndex (hfs ▸ hR) ht hQ

end Navigates

end AvlTreeStump

end Garbage.RandomAccessList
