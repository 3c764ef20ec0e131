import Garbage.Foundation.Zipper

/-!
# When single rotations keep a tree balanced

`Balanced` is the AVL condition, and `BalancedAround n fs` the part of it that
the frames `fs` have when a subtree of height `n` is in the hole.  `up` balances
by single rotations that always lift the higher child.  That is the AVL
algorithm without its double rotations, so it fails on a subtree whose higher
child is on the inner side.

The results say exactly when.  A new leaf leaves the tree balanced exactly if
`InsertOk` (`balanced_up_leaf`), a subtree that got lower exactly if `ShrinkOk`
(`balanced_up_shrunk`).  Both walk up as long as the heights change.
`GrowOk side h` is the walk after an insertion: the subtree in the hole grew from
`h` to `h + 1` by its child on `side`.  An inner one that had to be rotated is
repaired only by an opposite rotation right above it.
-/

namespace Garbage.Foundation.Zipper

open BinaryTree

variable {α : Type} {side : Side} {key : α} {t s : BinaryTree α} {f : Frame α}
  {fs : List (Frame α)} {h : Nat}

/-- The heights of the two children of every node differ by at most one. -/
def Balanced : BinaryTree α → Prop
  | nil => True
  | node _ l r => (l.height ≤ r.height + 1 ∧ r.height ≤ l.height + 1) ∧ Balanced l ∧ Balanced r

instance decidableBalanced : DecidablePred (Balanced (α := α))
  | nil => isTrue trivial
  | node _ l r =>
    have := decidableBalanced l
    have := decidableBalanced r
    inferInstanceAs (Decidable ((l.height ≤ r.height + 1 ∧ r.height ≤ l.height + 1) ∧
      Balanced l ∧ Balanced r))

/-- The frames are balanced around a subtree of height `n`. -/
def BalancedAround : Nat → List (Frame α) → Prop
  | _, [] => True
  | n, f :: fs => (n ≤ f.sibling.height + 1 ∧ f.sibling.height ≤ n + 1) ∧ Balanced f.sibling ∧
      BalancedAround (max n f.sibling.height + 1) fs

theorem balanced_join : Balanced (join side key t s) ↔
    (t.height ≤ s.height + 1 ∧ s.height ≤ t.height + 1) ∧ Balanced t ∧ Balanced s := by
  cases side with
  | left => exact Iff.rfl
  | right => exact and_congr and_comm and_comm

theorem height_plug_frame (f : Frame α) (t : BinaryTree α) :
    (f.plug t).height = max t.height f.sibling.height + 1 :=
  height_join f.side f.key t f.sibling

theorem balanced_plug (fs : List (Frame α)) : ∀ t : BinaryTree α,
    Balanced (plug fs t) ↔ Balanced t ∧ BalancedAround t.height fs := by
  induction fs with
  | nil => intro t; exact (and_true _).symm ▸ Iff.rfl
  | cons f fs ih =>
    intro t
    rw [plug, ih, height_plug_frame, Frame.plug, balanced_join, BalancedAround]
    tauto

/-- Nothing is rotated around a subtree that the frames fit. -/
theorem up_of_balancedAround (fs : List (Frame α)) : ∀ t : BinaryTree α,
    BalancedAround t.height fs → up fs t = plug fs t := by
  induction fs with
  | nil => intro t _; rfl
  | cons f fs ih =>
    intro t hfs
    have hbal : balance (f.plug t) = f.plug t := balance_of_even f.side hfs.1.1 hfs.1.2
    rw [up, plug, hbal]
    apply ih
    rw [height_plug_frame]
    exact hfs.2.2

theorem balanced_up_of_around (hfs : BalancedAround t.height fs) :
    Balanced (up fs t) ↔ Balanced t := by
  rw [up_of_balancedAround fs t hfs, balanced_plug]
  exact and_iff_left hfs

/-- A tree of two nodes is balanced. -/
theorem balanced_of_numNodes_le_two (ht : t.numNodes ≤ 2) : Balanced t := by
  induction t with
  | nil => trivial
  | node key l r ihl ihr =>
    rw [numNodes] at ht
    have hl := height_le_numNodes l
    have hr := height_le_numNodes r
    exact ⟨by omega, ihl (by omega), ihr (by omega)⟩

/-! ### What a rotation no longer reaches -/

/-- A subtree below the root is not balanced. -/
def UnbalancedBelow : BinaryTree α → Prop
  | nil => False
  | node _ l r => ¬ Balanced l ∨ ¬ Balanced r

theorem unbalancedBelow_join :
    UnbalancedBelow (join side key t s) ↔ ¬ Balanced t ∨ ¬ Balanced s := by
  cases side with
  | left => exact Iff.rfl
  | right => exact or_comm

theorem UnbalancedBelow.not_balanced (ht : UnbalancedBelow t) : ¬ Balanced t := by
  cases t with
  | nil => exact ht.elim
  | node key l r => exact fun hb => ht.elim (fun hl => hl hb.2.1) fun hr => hr hb.2.2

/-- A rotation above keeps a subtree below out of balance. -/
theorem UnbalancedBelow.balance_plug (ht : UnbalancedBelow t) (f : Frame α) :
    UnbalancedBelow (balance (f.plug t)) := by
  obtain ⟨side, p, c⟩ := f
  have hnot := ht.not_balanced
  rw [Frame.plug]
  dsimp only
  by_cases htall : t.height > c.height + 1
  · -- the rotation lifts `t`
    have hne : t ≠ nil := by rintro rfl; exact ht
    obtain ⟨q, a, b, rfl⟩ := exists_join side hne
    rw [balance_of_heavy side htall, rotateUp_join, unbalancedBelow_join, balanced_join]
    rw [unbalancedBelow_join] at ht
    tauto
  · by_cases hctall : c.height > t.height + 1
    · -- the rotation lifts the sibling
      have hne : c ≠ nil := by rintro rfl; exact absurd hctall (by simp [height])
      obtain ⟨q, a, b, rfl⟩ := exists_join side.flip hne
      rw [← join_flip, balance_of_heavy side.flip hctall, rotateUp_join, unbalancedBelow_join,
        balanced_join]
      tauto
    · rw [balance_of_even side (by omega) (by omega), unbalancedBelow_join]
      exact .inl hnot

theorem UnbalancedBelow.up (fs : List (Frame α)) : ∀ {t : BinaryTree α}, UnbalancedBelow t →
    ¬ Balanced (up fs t) := by
  induction fs with
  | nil => intro t ht; exact ht.not_balanced
  | cons f fs ih => intro t ht; exact ih (ht.balance_plug f)

/-- A subtree out of balance that is not lifted stays out of balance. -/
theorem not_balanced_up_cons (ht : ¬ Balanced t) (hle : t.height ≤ f.sibling.height + 1)
    (hge : f.sibling.height ≤ t.height + 1) : ¬ Balanced (up (f :: fs) t) := by
  have hbal : balance (f.plug t) = f.plug t := balance_of_even f.side hle hge
  rw [Zipper.up, hbal]
  exact UnbalancedBelow.up fs (unbalancedBelow_join.mpr (.inl ht))

/-! ### After an insertion -/

/-- The place right above is repaired by an opposite rotation. -/
def Straightens (side : Side) (h : Nat) : List (Frame α) → Prop
  | [] => False
  | f :: _ => f.side ≠ side ∧ f.sibling.height = h

/-- The tree ends up balanced after the subtree in the hole grew from `h` to
`h + 1` by its child on `side`. -/
def GrowOk : Side → Nat → List (Frame α) → Prop
  | _, _, [] => True
  | side, h, f :: fs =>
    if f.sibling.height = h + 1 then True
    else if f.sibling.height = h then GrowOk f.side (h + 1) fs
    else f.side = side ∨ Straightens f.side h fs

/-- The tree ends up balanced after a leaf was put into the hole. -/
def InsertOk : List (Frame α) → Prop
  | [] => True
  | f :: fs => f.sibling.height = 0 → GrowOk f.side 1 fs

/-- A subtree that leans by three to the inner side is never repaired. -/
theorem not_balanced_up_steep (fs : List (Frame α)) : ∀ {side : Side} {q : α}
    {a b : BinaryTree α}, a.height + 3 ≤ b.height → BalancedAround b.height fs →
    ¬ Balanced (up fs (join side q a b)) := by
  induction fs with
  | nil =>
    intro side q a b hab _ hb
    have := (balanced_join.mp hb).1
    omega
  | cons f fs ih =>
    intro side q a b hab hfs
    have hnot : ¬ Balanced (join side q a b) := fun hb => by
      have := (balanced_join.mp hb).1
      omega
    have hheight : (join side q a b).height = b.height + 1 := by
      rw [height_join]
      omega
    obtain ⟨hle, -, hrest⟩ := hfs
    by_cases hlift : (join side q a b).height ≤ f.sibling.height + 1
    · exact not_balanced_up_cons hnot hlift (by omega)
    · obtain ⟨fside, p, c⟩ := f
      dsimp only at hle hrest hlift
      rw [up, Frame.plug]
      dsimp only
      rw [balance_of_heavy fside (by omega)]
      by_cases hside : fside = side
      · subst hside
        rw [rotateUp_join]
        refine ih ?_ ?_
        · rw [height_join]
          omega
        · rw [height_join]
          exact (show max c.height b.height = max b.height c.height from Nat.max_comm _ _) ▸ hrest
      · have hflip : side = fside.flip := Side.eq_flip_of_ne hside
        subst hflip
        rw [join_flip, rotateUp_join]
        refine UnbalancedBelow.up fs (unbalancedBelow_join.mpr (.inr fun hb => ?_))
        have := (balanced_join.mp hb).1
        omega

/-- After an inner subtree was lifted, only the place right above can help. -/
theorem balanced_up_leaning {q : α} {a b : BinaryTree α} (ha : a.height + 1 = h)
    (hb : b.height = h + 1) (hba : Balanced a) (hbb : Balanced b)
    (hfs : BalancedAround (h + 1) fs) :
    Balanced (up fs (join side q a b)) ↔ Straightens side h fs := by
  have hnot : ¬ Balanced (join side q a b) := fun hb => by
    have := (balanced_join.mp hb).1
    omega
  have hheight : (join side q a b).height = h + 2 := by
    rw [height_join]
    omega
  cases fs with
  | nil => exact iff_of_false hnot not_false
  | cons f fs =>
    obtain ⟨hle, hbc, hrest⟩ := hfs
    by_cases hf : f.sibling.height = h
    · obtain ⟨fside, p, c⟩ := f
      dsimp only at hle hbc hrest hf
      rw [up, Frame.plug]
      dsimp only
      rw [balance_of_heavy fside (by omega)]
      by_cases hside : fside = side
      · subst hside
        refine iff_of_false ?_ fun hs => hs.1 rfl
        rw [rotateUp_join]
        refine not_balanced_up_steep fs ?_ ?_
        · rw [height_join]
          omega
        · rw [height_join]
          exact (show max c.height b.height = max (h + 1) c.height by omega) ▸ hrest
      · have hflip : side = fside.flip := Side.eq_flip_of_ne hside
        subst hflip
        refine iff_of_true ?_ ⟨hside, hf⟩
        rw [join_flip, rotateUp_join, balanced_up_of_around]
        · rw [balanced_join, balanced_join, height_join]
          exact ⟨by omega, hbb, by omega, hbc, hba⟩
        · rw [height_join, height_join]
          have hmax : max b.height (max c.height a.height + 1) = max (h + 1) c.height := by omega
          exact hmax ▸ hrest
    · refine iff_of_false (not_balanced_up_cons hnot (by omega) (by omega)) fun hs => hf hs.2

/-- **After a subtree grew** the tree ends up balanced exactly if `GrowOk`. -/
theorem balanced_up_grown (fs : List (Frame α)) : ∀ {side : Side} {h : Nat} {q : α}
    {a b : BinaryTree α}, a.height = h → b.height + 1 = h → Balanced a → Balanced b →
    BalancedAround h fs → (Balanced (up fs (join side q a b)) ↔ GrowOk side h fs) := by
  induction fs with
  | nil =>
    intro side h q a b ha hb hba hbb _
    exact iff_of_true (balanced_join.mpr ⟨by omega, hba, hbb⟩) trivial
  | cons f fs ih =>
    intro side h q a b ha hb hba hbb hfs
    have hheight : (join side q a b).height = h + 1 := by
      rw [height_join]
      omega
    have hbal : Balanced (join side q a b) := balanced_join.mpr ⟨by omega, hba, hbb⟩
    obtain ⟨fside, p, c⟩ := f
    obtain ⟨hle, hbc, hrest⟩ := hfs
    dsimp only at hle hbc hrest
    rw [up, Frame.plug, GrowOk]
    dsimp only
    by_cases hc : c.height = h + 1
    · rw [if_pos hc, balance_of_even fside (by omega) (by omega), balanced_up_of_around]
      · exact iff_of_true (balanced_join.mpr ⟨by omega, hbal, hbc⟩) trivial
      · rw [height_join, hheight]
        exact (show max (h + 1) c.height = max h c.height by omega) ▸ hrest
    · rw [if_neg hc]
      by_cases hc' : c.height = h
      · rw [if_pos hc', balance_of_even fside (by omega) (by omega)]
        refine ih hheight (by omega) hbal hbc ?_
        exact (show max h c.height = h by omega) ▸ hrest
      · rw [if_neg hc', balance_of_heavy fside (by omega)]
        by_cases hside : fside = side
        · subst hside
          rw [rotateUp_join, balanced_up_of_around]
          · refine iff_of_true ?_ (.inl rfl)
            rw [balanced_join, balanced_join, height_join]
            exact ⟨by omega, hba, by omega, hbc, hbb⟩
          · rw [height_join, height_join]
            exact (show max a.height (max c.height b.height + 1) = max h c.height by omega) ▸ hrest
        · have hflip : side = fside.flip := Side.eq_flip_of_ne hside
          subst hflip
          rw [join_flip, rotateUp_join, or_iff_right hside]
          have hlean : BalancedAround (h + 1) fs := (show max h c.height = h by omega) ▸ hrest
          refine balanced_up_leaning hb ?_ hbb (balanced_join.mpr ⟨by omega, hbc, hba⟩) hlean
          rw [height_join]
          omega

/-- **After an insertion** the tree is balanced exactly if `InsertOk`. -/
theorem balanced_up_leaf (x : α) (hfs : BalancedAround 0 fs) :
    Balanced (up fs (node x nil nil)) ↔ InsertOk fs := by
  have hleaf : Balanced (node x nil nil) := by simp [Balanced, height]
  have hheight : (node x nil nil).height = 1 := rfl
  cases fs with
  | nil => exact iff_of_true hleaf trivial
  | cons f fs =>
    obtain ⟨fside, p, c⟩ := f
    obtain ⟨hle, hbc, hrest⟩ := hfs
    dsimp only at hle hbc hrest
    rw [up, Frame.plug, InsertOk]
    dsimp only
    rw [balance_of_even fside (by omega) (by omega)]
    by_cases hc : c.height = 0
    · rw [balanced_up_grown fs hheight (by omega) hleaf hbc]
      · exact (imp_iff_right hc).symm
      · exact (show max 0 c.height + 1 = 1 by omega) ▸ hrest
    · rw [balanced_up_of_around]
      · exact iff_of_true (balanced_join.mpr ⟨by omega, hleaf, hbc⟩) fun h => absurd h hc
      · rw [height_join, hheight]
        exact (show max 1 c.height = max 0 c.height by omega) ▸ hrest

/-! ### After a deletion -/

/-- The tree ends up balanced after the subtree in the hole shrank from `h + 1`
to `h`. -/
def ShrinkOk : Nat → List (Frame α) → Prop
  | _, [] => True
  | h, f :: fs =>
    if f.sibling.height = h + 1 then True
    else if f.sibling.height = h then ShrinkOk (h + 1) fs
    else (child f.side f.sibling).height ≤ (child f.side.flip f.sibling).height ∧
      ((child f.side f.sibling).height < (child f.side.flip f.sibling).height →
        ShrinkOk (h + 2) fs)

/-- **After a subtree shrank** the tree ends up balanced exactly if `ShrinkOk`. -/
theorem balanced_up_shrunk (fs : List (Frame α)) : ∀ {t : BinaryTree α} {h : Nat},
    t.height = h → Balanced t → BalancedAround (h + 1) fs →
    (Balanced (up fs t) ↔ ShrinkOk h fs) := by
  induction fs with
  | nil => intro t h _ hbt _; exact iff_of_true hbt trivial
  | cons f fs ih =>
    intro t h ht hbt hfs
    obtain ⟨side, p, c⟩ := f
    obtain ⟨hle, hbc, hrest⟩ := hfs
    dsimp only at hle hbc hrest
    rw [up, Frame.plug, ShrinkOk]
    dsimp only
    by_cases hc : c.height = h + 1
    · rw [if_pos hc, balance_of_even side (by omega) (by omega), balanced_up_of_around]
      · exact iff_of_true (balanced_join.mpr ⟨by omega, hbt, hbc⟩) trivial
      · rw [height_join]
        exact (show max (h + 1) c.height = max t.height c.height by omega) ▸ hrest
    · rw [if_neg hc]
      by_cases hc' : c.height = h
      · rw [if_pos hc', balance_of_even side (by omega) (by omega)]
        refine ih ?_ (balanced_join.mpr ⟨by omega, hbt, hbc⟩) ?_
        · rw [height_join]
          omega
        · exact (show max (h + 1) c.height = h + 1 by omega) ▸ hrest
      · -- the sibling is lifted, `a` is its outer child
        rw [if_neg hc']
        have hne : c ≠ nil := by
          rintro rfl
          simp only [height] at hc hc' hle
          omega
        obtain ⟨q, a, b, rfl⟩ := exists_join side.flip hne
        have hinner : child side (join side.flip q a b) = b := by
          cases side <;> rfl
        obtain ⟨hab, hba, hbb⟩ := balanced_join.mp hbc
        rw [height_join] at hle hc hc' hrest
        rw [child_join_self, hinner, ← join_flip, balance_of_heavy side.flip (by
          rw [height_join]; omega), rotateUp_join, Side.flip_flip]
        by_cases heavy : a.height < b.height
        · refine iff_of_false ?_ fun hs => absurd hs.1 (by omega)
          rw [balanced_up_of_around]
          · intro hb
            have hroot := (balanced_join.mp hb).1
            rw [height_join] at hroot
            omega
          · rw [height_join, height_join]
            exact (show max (h + 1) (max a.height b.height + 1) =
              max a.height (max t.height b.height + 1) by omega) ▸ hrest
        · by_cases hlow : b.height < a.height
          · rw [and_iff_right (by omega), imp_iff_right hlow]
            refine ih ?_ (balanced_join.mpr ⟨?_, hba, balanced_join.mpr ⟨by omega, hbt, hbb⟩⟩) ?_
            · rw [height_join, height_join]
              omega
            · rw [height_join]
              omega
            · exact (show max (h + 1) (max a.height b.height + 1) = h + 2 by omega) ▸ hrest
          · rw [balanced_up_of_around]
            · refine iff_of_true ?_ ⟨by omega, fun h => absurd h hlow⟩
              rw [balanced_join, balanced_join, height_join]
              exact ⟨by omega, hba, by omega, hbt, hbb⟩
            · rw [height_join, height_join]
              exact (show max (h + 1) (max a.height b.height + 1) =
                max a.height (max t.height b.height + 1) by omega) ▸ hrest

/-! ### The places of insertions and deletions -/

theorem balancedAround_gap {l r : BinaryTree α} (hb : Balanced (plug fs (node key l r))) :
    BalancedAround 0 (gap fs key l r) := by
  rw [← plug_gap, balanced_plug] at hb
  exact hb.2

/-- What is left at the cut is balanced, and the frames fit what was there. -/
theorem balancedAround_cut {l r : BinaryTree α} (hb : Balanced (plug fs (node key l r))) :
    Balanced (cut fs l r).2 ∧ BalancedAround ((cut fs l r).2.height + 1) (cut fs l r).1 := by
  cases l with
  | nil =>
    obtain ⟨hnode, hfs⟩ := (balanced_plug fs _).mp hb
    have hheight : (node key nil r).height = r.height + 1 := by
      simp [height]
    exact ⟨hnode.2.2, hheight ▸ hfs⟩
  | node k a b =>
    -- the keys make no difference to the balance
    have hb' : Balanced (plug fs (node (extreme .right b k a).2.1 (node k a b) r)) :=
      (balanced_plug fs _).mpr ((balanced_plug fs (node key (node k a b) r)).mp hb)
    have hcut : plug fs (node (extreme .right b k a).2.1 (node k a b) r) =
        plug (cut fs (node k a b) r).1
          (join .right (extreme .right b k a).2.1 nil (extreme .right b k a).2.2) := by
      rw [cut, plug_append]
      exact congrArg (fun t => plug fs (node _ t r)) (plug_extreme .right b k a).symm
    rw [hcut, balanced_plug, balanced_join, height_join] at hb'
    refine ⟨hb'.1.2.2, ?_⟩
    exact (Nat.zero_max (extreme .right b k a).2.2.height) ▸ hb'.2

/-! ### Finding a place -/

/-- The place of the key with number `n`: the frames around it, the key, its
children. -/
def placeAt : Nat → List (Frame α) → BinaryTree α →
    Option (List (Frame α) × α × BinaryTree α × BinaryTree α)
  | _, _, nil => none
  | n, fs, node key l r =>
    if n < l.numNodes then placeAt n (⟨.left, key, r⟩ :: fs) l
    else if n = l.numNodes then some (fs, key, l, r)
    else placeAt (n - l.numNodes - 1) (⟨.right, key, l⟩ :: fs) r

theorem placeAt_plug (gs : List (Frame α)) : ∀ {t : BinaryTree α} {n : Nat} (fs : List (Frame α)),
    n < t.numNodes → placeAt ((before gs).length + n) fs (plug gs t) = placeAt n (gs ++ fs) t := by
  induction gs with
  | nil => intro t n fs _; exact congrArg (placeAt · fs t) (Nat.zero_add n)
  | cons g gs ih =>
    intro t n fs hn
    obtain ⟨side, key, c⟩ := g
    rw [before, plug, List.length_append, Nat.add_assoc]
    cases side with
    | left =>
      have hstep := ih (t := node key t c) (n := n) fs (by rw [numNodes]; omega)
      rw [placeAt, if_pos hn] at hstep
      simpa [Frame.before, Frame.plug, join] using hstep
    | right =>
      have hstep := ih (t := node key c t) (n := c.numNodes + 1 + n) fs (by rw [numNodes]; omega)
      rw [placeAt, if_neg (by omega), if_neg (by omega),
        show c.numNodes + 1 + n - c.numNodes - 1 = n by omega] at hstep
      simpa [Frame.before, Frame.plug, join, length_inorder] using hstep

/-- The key after the `n` keys before it is found. -/
theorem placeAt_node (gs : List (Frame α)) (key : α) (l r : BinaryTree α) :
    placeAt (before gs ++ inorder l).length [] (plug gs (node key l r)) = some (gs, key, l, r) := by
  rw [List.length_append, length_inorder, placeAt_plug gs [] (by rw [numNodes]; omega),
    List.append_nil, placeAt, if_neg (Nat.lt_irrefl _), if_pos rfl]

end Garbage.Foundation.Zipper
