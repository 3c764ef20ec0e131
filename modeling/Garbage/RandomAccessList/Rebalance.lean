import Garbage.RandomAccessList.AvlTreeStump
import Garbage.RandomAccessList.Layout
import Mathlib.Data.List.Perm.Subperm

/-!
# Rotations and the way up

`Place h fs t`: the memory holds a tree with the subtree `t` below the frames
`fs`.  `wp_rotate` says what a rotation at a place writes, and `Place.rotated`
that the place then has the rotated subtree.

`restoreHeightSizeAndBalanceOfTree` at a node computes the abstract `up`: at
each node on the way to the root it counts anew and lifts the child that is
higher by two or more.
-/

namespace Garbage.RandomAccessList

open Foundation (Prog Side)
open Foundation.Prog
open Foundation.Zipper
open BinaryTree

variable {α ε : Type} {h h' : Heap α} {t u a b c : BinaryTree Ptr} {fs : List (Frame Ptr)}
  {f : Frame Ptr} {p q : Ptr} {side : Side}

/-- The memory has the subtree `t` below the frames `fs`. -/
structure Place (h : Heap α) (fs : List (Frame Ptr)) (t : BinaryTree Ptr) : Prop where
  linked : Linked h (above none fs) t
  ctx : LinkedCtx h none fs (root? t)
  nodup : (inorder t ++ keys fs).Nodup
  live : ∀ p ∈ inorder t ++ keys fs, p ∈ h.live

theorem place_nil_iff : Place h [] t ↔
    Linked h none t ∧ (inorder t).Nodup ∧ ∀ p ∈ inorder t, p ∈ h.live := by
  constructor
  · rintro ⟨hl, -, hn, hm⟩
    rw [keys, List.append_nil] at hn hm
    exact ⟨hl, hn, hm⟩
  · rintro ⟨hl, hn, hm⟩
    refine ⟨hl, trivial, ?_, ?_⟩ <;> rwa [keys, List.append_nil]

theorem place_plug (fs gs : List (Frame Ptr)) :
    Place h (fs ++ gs) t ↔ Place h gs (plug fs t) := by
  have key : ∀ (fs : List (Frame Ptr)) (t : BinaryTree Ptr),
      Place h fs t ↔ Place h [] (plug fs t) := by
    intro fs t
    rw [place_nil_iff, linked_plug, (inorder_plug_perm fs t).nodup_iff]
    constructor
    · rintro ⟨hl, hc, hn, hm⟩
      exact ⟨⟨hc, hl⟩, hn, fun p hp => hm p ((inorder_plug_perm fs t).mem_iff.mp hp)⟩
    · rintro ⟨⟨hc, hl⟩, hn, hm⟩
      exact ⟨hl, hc, hn, fun p hp => hm p ((inorder_plug_perm fs t).mem_iff.mpr hp)⟩
  rw [key, key gs, plug_append]

theorem place_cons : Place h (f :: fs) t ↔ Place h fs (f.plug t) := place_plug [f] fs

theorem keys_plug_subset : inorder (f.plug t) ++ keys fs ⊆ inorder t ++ keys (f :: fs) := by
  intro x hx
  simp only [Frame.plug, List.mem_append, mem_inorder_join] at hx
  simp only [keys, List.mem_append, List.mem_cons]
  tauto

/-- A place is no deeper than the memory is large. -/
theorem Place.length_le (hP : Place h fs t) : fs.length ≤ h.live.length := by
  have hkeys : (keys fs).length ≤ h.live.length :=
    (List.subperm_of_subset hP.nodup.of_append_right fun p hp => hP.live p (by simp [hp])).length_le
  have hlen : ∀ fs : List (Frame Ptr), fs.length ≤ (keys fs).length := by
    intro fs
    induction fs with
    | nil => exact Nat.le_refl _
    | cons f fs ih =>
      rw [keys, List.length_cons, List.length_cons, List.length_append]
      omega
  exact Nat.le_trans (hlen fs) hkeys

/-! ### One rotation -/

/-- What a rotation at the node `p` with the pivot `q` and the inner child `b`
of the pivot leaves. -/
def Heap.rotated (h : Heap α) (side : Side) (fs : List (Frame Ptr)) (p q : Ptr)
    (b : BinaryTree Ptr) : Heap α :=
  (((((h.set q (TAvlTreeNode.setChild side.flip (some p))).set q
    (TAvlTreeNode.setParent (above none fs))).set p (TAvlTreeNode.setParent (some q))).set p
    (TAvlTreeNode.setChild side (root? b))).setOpt (root? b)
    (TAvlTreeNode.setParent (some p))).redirect fs (some q)

theorem Place.distinct (hP : Place h fs (join side p (join side q a b) c)) :
    (p ≠ q ∧ p ∉ inorder a ∧ p ∉ inorder b ∧ p ∉ inorder c ∧ p ∉ keys fs) ∧
    (q ∉ inorder a ∧ q ∉ inorder b ∧ q ∉ inorder c ∧ q ∉ keys fs) ∧
    ((inorder a).Disjoint (inorder b) ∧ (inorder c).Disjoint (inorder b) ∧
      (inorder a).Disjoint (inorder c)) ∧
    ((inorder a).Disjoint (keys fs) ∧ (inorder b).Disjoint (keys fs) ∧
      (inorder c).Disjoint (keys fs)) ∧
    (inorder a).Nodup ∧ (inorder b).Nodup ∧ (inorder c).Nodup ∧ (keys fs).Nodup := by
  have hn := hP.nodup
  rw [List.nodup_append', nodup_inorder_join, nodup_inorder_join] at hn
  obtain ⟨⟨⟨hpt, hpc⟩, ⟨⟨hqa, hqb⟩, hna, hnb, hab⟩, hnc, htc⟩, hnf, htf⟩ := hn
  rw [mem_inorder_join, not_or, not_or] at hpt
  have hc : ∀ x, x ∈ inorder (join side q a b) → x ∉ inorder c := fun x hx => htc hx
  have hf : ∀ x, x ∈ inorder (join side p (join side q a b) c) → x ∉ keys fs := fun x hx => htf hx
  simp only [mem_inorder_join] at hc hf
  refine ⟨⟨hpt.1, hpt.2.1, hpt.2.2, hpc, hf p (.inl rfl)⟩,
    ⟨hqa, hqb, hc q (.inl rfl), hf q (.inr (.inl (.inl rfl)))⟩, ⟨hab, ?_, ?_⟩, ⟨?_, ?_, ?_⟩,
    hna, hnb, hnc, hnf⟩
  · exact fun x hxc hxb => hc x (.inr (.inr hxb)) hxc
  · exact fun x hxa hxc => hc x (.inr (.inl hxa)) hxc
  · exact fun x hx => hf x (.inr (.inl (.inr (.inl hx))))
  · exact fun x hx => hf x (.inr (.inl (.inr (.inr hx))))
  · exact fun x hx => hf x (.inr (.inr hx))

namespace AvlTreeStump

variable {E : ε → Tree α → Prop} {s : Tree α}

theorem wp_storeIfNotNull {f : TAvlTreeNode α → TAvlTreeNode α} {Q : PUnit → Tree α → Prop}
    (hlive : ∀ x ∈ inorder t, x ∈ s.heap.live)
    (hQ : Q PUnit.unit { s with heap := s.heap.setOpt (root? t) f }) :
    wp (storeIfNotNull (root? t) f) Q E s := by
  cases t with
  | nil => exact hQ
  | node p l r => exact wp_store.mpr ⟨hlive p (by simp), hQ⟩

theorem wp_replaceSubnode {Q : PUnit → Tree α → Prop} (hc : LinkedCtx s.heap none fs (some p))
    (hp : p ∉ keys fs) (hlive : ∀ x ∈ keys fs, x ∈ s.heap.live)
    (hQ : Q PUnit.unit { s with heap := s.heap.redirect fs (some q) }) :
    wp (replaceSubnodeIfEqualToSuchAndNodeNotNull (above none fs) p q) Q E s := by
  cases fs with
  | nil => exact hQ
  | cons f fs =>
    obtain ⟨side, key, sibling⟩ := f
    obtain ⟨-, hhole, hsib, -⟩ := hc
    have hkey : key ∈ s.heap.live := hlive key (by simp [keys])
    have hne : root? sibling ≠ some p := fun he => hp (by simp [keys, mem_of_root? he])
    show wp (replaceSubnodeIfEqualToSuchAndNodeNotNull (some key) p q) Q E s
    unfold replaceSubnodeIfEqualToSuchAndNodeNotNull
    rw [wp_bind, wp_load]
    refine ⟨hkey, ?_⟩
    cases side with
    | left =>
      have hleft : (s.heap.node key).left = some p := hhole
      rw [if_pos hleft, wp_store]
      exact ⟨hkey, hQ⟩
    | right =>
      have hleft : (s.heap.node key).left ≠ some p := fun he => hne (hsib.symm.trans he)
      have hright : (s.heap.node key).right = some p := hhole
      rw [if_neg hleft, wp_bind, wp_load]
      refine ⟨hkey, ?_⟩
      rw [if_pos hright, wp_store]
      exact ⟨hkey, hQ⟩

/-- What a rotation does before it counts anew. -/
theorem wp_rotate {Q : Ptr → Tree α → Prop} (need : Bool)
    (hP : Place s.heap fs (join side p (join side q a b) c))
    (hQ : wp (if need = true then do
        recalculateHeightAndSizeWithDataFromTwoChilds p
        recalculateHeightAndSizeWithDataFromTwoChilds q
        pure q
      else pure q) Q E { s with heap := s.heap.rotated side fs p q b }) :
    wp (rotate side p need) Q E s := by
  obtain ⟨⟨hpq, -, hpb, -, hpf⟩, ⟨-, hqb, -, hqf⟩, -, ⟨-, hbf, -⟩, -⟩ := hP.distinct
  have hp : p ∈ s.heap.live := hP.live p (by simp)
  have hq : q ∈ s.heap.live := hP.live q (by simp)
  have hb : ∀ x ∈ inorder b, x ∈ s.heap.live := fun x hx => hP.live x (by simp [hx])
  have hf : ∀ x ∈ keys fs, x ∈ s.heap.live := fun x hx => hP.live x (by simp [hx])
  obtain ⟨hpar, hchild, -, hlq, -⟩ := linked_join.mp hP.linked
  obtain ⟨-, -, hinner, -, -⟩ := linked_join.mp hlq
  rw [root?_join] at hchild
  have hctx := hP.ctx
  rw [root?_join] at hctx
  unfold rotate
  rw [wp_bind, wp_load]
  refine ⟨hp, ?_⟩
  rw [hchild]
  dsimp only
  rw [wp_bind, wp_load, hinner]
  refine ⟨hq, ?_⟩
  rw [wp_bind, wp_store]
  refine ⟨hq, ?_⟩
  rw [wp_bind, wp_load, Heap.node_set_of_ne hpq, hpar]
  refine ⟨hp, ?_⟩
  rw [wp_bind, wp_store]
  refine ⟨hq, ?_⟩
  rw [wp_bind, wp_store]
  refine ⟨hp, ?_⟩
  rw [wp_bind, wp_store]
  refine ⟨hp, ?_⟩
  rw [wp_bind]
  refine wp_storeIfNotNull hb ?_
  rw [wp_bind]
  -- none of the four nodes written so far is a frame
  refine wp_replaceSubnode (hctx.congr fun x hx => ?_) hpf (by simpa using hf) ?_
  · have hxp : x ≠ p := fun he => hpf (he ▸ hx)
    have hxq : x ≠ q := fun he => hqf (he ▸ hx)
    have hxb : x ∉ inorder b := fun hm => hbf hm hx
    rw [Heap.node_setOpt_of_notMem hxb, Heap.node_set_of_ne hxp, Heap.node_set_of_ne hxp,
      Heap.node_set_of_ne hxq, Heap.node_set_of_ne hxq]
  · exact hQ

end AvlTreeStump

theorem node_rotated_of_notMem {x : Ptr} (hp : x ≠ p) (hq : x ≠ q) (hb : x ∉ inorder b)
    (hf : x ∉ keys fs) : (h.rotated side fs p q b).node x = h.node x := by
  rw [Heap.rotated, Heap.node_redirect_of_notMem hf, Heap.node_setOpt_of_notMem hb,
    Heap.node_set_of_ne hp, Heap.node_set_of_ne hp, Heap.node_set_of_ne hq,
    Heap.node_set_of_ne hq]

/-- **A rotation rotates the subtree.** -/
theorem Place.rotated (hP : Place h fs (join side p (join side q a b) c)) :
    Place (h.rotated side fs p q b) fs (join side q a (join side.flip p c b)) := by
  obtain ⟨⟨hpq, hpa, hpb, hpc, hpf⟩, ⟨hqa, hqb, hqc, hqf⟩, ⟨hab, hcb, -⟩, ⟨haf, hbf, hcf⟩, -, hnb,
    -, hnf⟩ := hP.distinct
  obtain ⟨-, -, hchild, hlq, hlc⟩ := linked_join.mp hP.linked
  obtain ⟨-, houter, -, hla, hlb⟩ := linked_join.mp hlq
  have hctx := hP.ctx
  rw [root?_join] at hctx
  have hperm : (inorder (join side q a (join side.flip p c b)) ++ keys fs).Perm
      (inorder (join side p (join side q a b) c) ++ keys fs) := by
    rw [show join side q a (join side.flip p c b) =
      rotateUp side (join side p (join side q a b) c) from (rotateUp_join ..).symm,
      inorder_rotateUp]
  have hnq : (h.rotated side fs p q b).node q =
      ((h.node q).setChild side.flip (some p)).setParent (above none fs) := by
    rw [Heap.rotated, Heap.node_redirect_of_notMem hqf, Heap.node_setOpt_of_notMem hqb,
      Heap.node_set_of_ne hpq.symm, Heap.node_set_of_ne hpq.symm, Heap.node_set_self,
      Heap.node_set_self]
  have hnp : (h.rotated side fs p q b).node p =
      ((h.node p).setParent (some q)).setChild side (root? b) := by
    rw [Heap.rotated, Heap.node_redirect_of_notMem hpf, Heap.node_setOpt_of_notMem hpb,
      Heap.node_set_self, Heap.node_set_self, Heap.node_set_of_ne hpq, Heap.node_set_of_ne hpq]
  have helse : ∀ x, x ≠ p → x ≠ q → x ∉ inorder b → x ∉ keys fs →
      (h.rotated side fs p q b).node x = h.node x := fun x => node_rotated_of_notMem
  refine ⟨linked_join.mpr ⟨?_, ?_, ?_, ?_, linked_join.mpr ⟨?_, ?_, ?_, ?_, ?_⟩⟩, ?_,
    hperm.nodup_iff.mpr hP.nodup, fun x hx => ?_⟩
  · rw [hnq, TAvlTreeNode.parent_setParent]
  · rw [hnq, TAvlTreeNode.child_setParent, TAvlTreeNode.child_flip_setChild, houter]
  · rw [hnq, TAvlTreeNode.child_setParent, TAvlTreeNode.child_setChild_self, root?_join]
  · refine hla.congr fun x hx => helse x ?_ ?_ (fun hm => hab hx hm) (fun hm => haf hx hm)
    · exact fun he => hpa (he ▸ hx)
    · exact fun he => hqa (he ▸ hx)
  · rw [hnp, TAvlTreeNode.parent_setChild, TAvlTreeNode.parent_setParent]
  · rw [hnp, TAvlTreeNode.child_setChild_flip, TAvlTreeNode.child_setParent, hchild]
  · rw [hnp, Side.flip_flip, TAvlTreeNode.child_setChild_self]
  · refine hlc.congr fun x hx => helse x ?_ ?_ (fun hm => hcb hx hm) (fun hm => hcf hx hm)
    · exact fun he => hpc (he ▸ hx)
    · exact fun he => hqc (he ▸ hx)
  · -- the inner child has its new parent, and nothing below it was written
    have hb : Linked ((((h.set q (TAvlTreeNode.setChild side.flip (some p))).set q
        (TAvlTreeNode.setParent (above none fs))).set p (TAvlTreeNode.setParent (some q))).set p
        (TAvlTreeNode.setChild side (root? b))) (some q) b := hlb.congr fun x hx => by
      have hxp : x ≠ p := fun he => hpb (he ▸ hx)
      have hxq : x ≠ q := fun he => hqb (he ▸ hx)
      rw [Heap.node_set_of_ne hxp, Heap.node_set_of_ne hxp, Heap.node_set_of_ne hxq,
        Heap.node_set_of_ne hxq]
    refine (hb.reparent _ hnb).congr fun x hx => ?_
    rw [Heap.rotated, Heap.node_redirect_of_notMem fun hm => hbf hx hm]
  · rw [root?_join]
    refine LinkedCtx.redirect (some q)
      (show LinkedCtx _ none fs (some p) from hctx.congr fun x hx => ?_) hnf
    have hxp : x ≠ p := fun he => hpf (he ▸ hx)
    have hxq : x ≠ q := fun he => hqf (he ▸ hx)
    rw [Heap.node_setOpt_of_notMem fun hm => hbf hm hx, Heap.node_set_of_ne hxp,
      Heap.node_set_of_ne hxp, Heap.node_set_of_ne hxq, Heap.node_set_of_ne hxq]
  · have := hP.live x (hperm.mem_iff.mp hx)
    simpa [Heap.rotated] using this

theorem edits_rotated {S : List Ptr} (hp : p ∈ S) (hq : q ∈ S) (hb : ∀ x ∈ inorder b, x ∈ S)
    (hf : ∀ x ∈ keys fs, x ∈ S) : Edits S h (h.rotated side fs p q b) := by
  refine Edits.redirect hf (Edits.setOpt (fun _ => rfl) hb ?_)
  refine Edits.set (TAvlTreeNode.value_setChild _ _) hp (Edits.set (fun _ => rfl) hp ?_)
  refine Edits.set (fun _ => rfl) hq (Edits.set (TAvlTreeNode.value_setChild _ _) hq ?_)
  exact Edits.refl S h

theorem sameNumbers_rotated : SameNumbers h (h.rotated side fs p q b) := by
  refine SameNumbers.redirect (SameNumbers.setOpt (fun _ => ⟨rfl, rfl⟩) ?_)
  refine SameNumbers.set (fun _ => by simp) (SameNumbers.set (fun _ => ⟨rfl, rfl⟩) ?_)
  refine SameNumbers.set (fun _ => ⟨rfl, rfl⟩) (SameNumbers.set (fun _ => by simp) ?_)
  exact fun _ => ⟨rfl, rfl⟩

/-! ### Counting anew -/

/-- A place whose subtree and siblings have the right numbers. -/
structure Settled (h : Heap α) (fs : List (Frame Ptr)) (t : BinaryTree Ptr) : Prop
    extends Place h fs t where
  counted : Counted h t
  siblings : CountedCtx h fs

theorem Place.congr_links (hag : SameLinks h h') (hlive : h'.live = h.live) (hP : Place h fs t) :
    Place h' fs t :=
  ⟨hP.linked.congr_links hag, hP.ctx.congr_links hag, hP.nodup, by rw [hlive]; exact hP.live⟩

theorem Place.congr (hag : ∀ x ∈ inorder t ++ keys fs, h'.node x = h.node x)
    (hlive : ∀ x ∈ inorder t ++ keys fs, x ∈ h'.live) (hP : Place h fs t) : Place h' fs t :=
  ⟨hP.linked.congr fun x hx => hag x (List.mem_append_left _ hx),
    hP.ctx.congr fun x hx => hag x (List.mem_append_right _ hx), hP.nodup, hlive⟩

theorem Settled.congr (hag : ∀ x ∈ inorder t ++ keys fs, h'.node x = h.node x)
    (hlive : ∀ x ∈ inorder t ++ keys fs, x ∈ h'.live) (hS : Settled h fs t) : Settled h' fs t :=
  ⟨hS.toPlace.congr hag hlive,
    hS.counted.congr_node fun x hx => hag x (List.mem_append_left _ hx),
    hS.siblings.congr_node fun x hx => hag x (List.mem_append_right _ hx)⟩

/-- The tree of a list is `T`. -/
structure Rep (s : Tree α) (T : BinaryTree Ptr) : Prop where
  settled : Settled s.heap [] T
  root : s.stump.root = root? T

namespace AvlTreeStump

variable {E : ε → Tree α → Prop} {s : Tree α}

theorem wp_nodeSize {Q : Nat → Tree α → Prop} (hc : Counted s.heap t)
    (hlive : ∀ x ∈ inorder t, x ∈ s.heap.live) (hQ : Q t.numNodes s) :
    wp (nodeSize (root? t)) Q E s := by
  cases t with
  | nil => exact hQ
  | node p l r => exact wp_load.mpr ⟨hlive p (by simp), hc.1 ▸ hQ⟩

theorem wp_nodeHeight {Q : Nat → Tree α → Prop} (hc : Counted s.heap t)
    (hlive : ∀ x ∈ inorder t, x ∈ s.heap.live) (hQ : Q t.height s) :
    wp (nodeHeight (root? t)) Q E s := by
  cases t with
  | nil => exact hQ
  | node p l r => exact wp_load.mpr ⟨hlive p (by simp), hc.2.1 ▸ hQ⟩

theorem wp_recalculate_node {par : Option Ptr} {l r : BinaryTree Ptr} {Q : PUnit → Tree α → Prop}
    (hl : Linked s.heap par (node p l r)) (hn : (inorder (node p l r)).Nodup)
    (hlive : ∀ x ∈ inorder (node p l r), x ∈ s.heap.live)
    (hcl : Counted s.heap l) (hcr : Counted s.heap r)
    (hQ : ∀ h', SameLinks s.heap h' → Edits [p] s.heap h' → Counted h' (node p l r) →
      Q PUnit.unit { s with heap := h' }) :
    wp (recalculateHeightAndSizeWithDataFromTwoChilds p) Q E s := by
  obtain ⟨-, hleft, hright, -⟩ := hl
  obtain ⟨⟨hpl, hpr⟩, -⟩ := (nodup_inorder_join .left).mp hn
  have hp : p ∈ s.heap.live := hlive p (by simp)
  have hll : ∀ x ∈ inorder l, x ∈ s.heap.live := fun x hx => hlive x (by simp [hx])
  have hlr : ∀ x ∈ inorder r, x ∈ s.heap.live := fun x hx => hlive x (by simp [hx])
  have hset : ∀ (h : Heap α) (f : TAvlTreeNode α → TAvlTreeNode α) (t : BinaryTree Ptr),
      p ∉ inorder t → Counted h t → Counted (h.set p f) t := fun h f t hpt hc =>
    hc.congr_node fun x hx => Heap.node_set_of_ne (fun he : x = p => hpt (he ▸ hx)) h f
  unfold recalculateHeightAndSizeWithDataFromTwoChilds
  rw [wp_bind, wp_load, hleft]
  refine ⟨hp, ?_⟩
  rw [wp_bind, wp_load, hright]
  refine ⟨hp, ?_⟩
  rw [wp_bind]
  refine wp_nodeSize hcl hll ?_
  rw [wp_bind]
  refine wp_nodeSize hcr hlr ?_
  rw [wp_bind, wp_store]
  refine ⟨hp, ?_⟩
  rw [wp_bind]
  refine wp_nodeHeight (hset _ _ l hpl hcl) hll ?_
  rw [wp_bind]
  refine wp_nodeHeight (hset _ _ r hpr hcr) hlr ?_
  rw [wp_store]
  refine ⟨hp, hQ _ (fun x => ?_) ?_ ⟨?_, ?_, ?_, ?_⟩⟩
  · by_cases hx : x = p
    · rw [hx, Heap.node_set_self, Heap.node_set_self]
      exact ⟨rfl, rfl, rfl⟩
    · rw [Heap.node_set_of_ne hx, Heap.node_set_of_ne hx]
      exact ⟨rfl, rfl, rfl⟩
  · refine Edits.set (fun _ => rfl) (by simp) (Edits.set (fun _ => rfl) (by simp) ?_)
    exact Edits.refl _ _
  · rw [Heap.node_set_self, Heap.node_set_self]
    rfl
  · rw [Heap.node_set_self]
    rfl
  · exact hset _ _ l hpl (hset _ _ l hpl hcl)
  · exact hset _ _ r hpr (hset _ _ r hpr hcr)

/-- The same for a node seen from either side, at a place. -/
theorem wp_recalculate {Q : PUnit → Tree α → Prop} (hP : Place s.heap fs (join side p t u))
    (ht : Counted s.heap t) (hu : Counted s.heap u) (hfs : CountedCtx s.heap fs)
    (hQ : ∀ h', Edits [p] s.heap h' → Settled h' fs (join side p t u) →
      Q PUnit.unit { s with heap := h' }) :
    wp (recalculateHeightAndSizeWithDataFromTwoChilds p) Q E s := by
  have hdis := List.nodup_append'.mp hP.nodup
  have hlive : ∀ x ∈ inorder (join side p t u), x ∈ s.heap.live :=
    fun x hx => hP.live x (List.mem_append_left _ hx)
  have hdone : ∀ h', SameLinks s.heap h' → Edits [p] s.heap h' →
      Counted h' (join side p t u) → Q PUnit.unit { s with heap := h' } := by
    intro h' hl he hc
    refine hQ h' he ⟨hP.congr_links hl he.live, hc, hfs.congr_node fun x hx => he.node x ?_⟩
    intro hxp
    refine hdis.2.2 (?_ : x ∈ inorder (join side p t u)) hx
    rw [List.mem_singleton.mp hxp, mem_inorder_join]
    exact .inl rfl
  cases side with
  | left => exact wp_recalculate_node hP.linked hdis.1 hlive ht hu hdone
  | right => exact wp_recalculate_node hP.linked hdis.1 hlive hu ht hdone

/-- A rotation that counts anew. -/
theorem wp_rotate_settled (side : Side)
    (hS : Settled s.heap fs (join side p (join side q a b) c)) :
    wp (rotate side p true) (fun r s' => r = q ∧ s'.stump = s.stump ∧
      Settled s'.heap fs (join side q a (join side.flip p c b)) ∧
      Edits (inorder (join side p (join side q a b) c) ++ keys fs) s.heap s'.heap) E s := by
  obtain ⟨-, -, hq, hc⟩ := counted_join.mp hS.counted
  obtain ⟨-, -, ha, hb⟩ := counted_join.mp hq
  have hnum : SameNumbers s.heap (s.heap.rotated side fs p q b) := sameNumbers_rotated
  have hP := hS.toPlace.rotated
  have hedits : Edits (inorder (join side p (join side q a b) c) ++ keys fs) s.heap
      (s.heap.rotated side fs p q b) :=
    edits_rotated (by simp) (by simp) (fun x hx => by simp [hx]) fun x hx => by simp [hx]
  refine wp_rotate true hS.toPlace ?_
  rw [if_pos rfl, wp_bind]
  -- the old root now hangs below the pivot
  have hbelow : ∀ h : Heap α, Place h (⟨side.flip, q, a⟩ :: fs) (join side.flip p c b) ↔
      Place h fs (join side q a (join side.flip p c b)) := by
    intro h
    rw [place_cons, Frame.plug, join_flip]
  refine wp_recalculate ((hbelow _).mpr hP) (hc.congr fun x _ => hnum x)
    (hb.congr fun x _ => hnum x)
    (countedCtx_cons.mpr ⟨ha.congr fun x _ => hnum x, hS.siblings.congr fun x _ => hnum x⟩) ?_
  intro h₁ he₁ hS₁
  obtain ⟨ha₁, hfs₁⟩ := countedCtx_cons.mp hS₁.siblings
  rw [wp_bind]
  refine wp_recalculate ((hbelow _).mp hS₁.toPlace) ha₁ hS₁.counted hfs₁ ?_
  intro h₂ he₂ hS₂
  exact ⟨rfl, rfl, hS₂, (hedits.trans (he₁.mono (by simp))).trans (he₂.mono (by simp))⟩

theorem wp_checkAndRestoreBalanceOfLevel (hS : Settled s.heap fs t) (ht : root? t = some p) :
    wp (checkAndRestoreBalanceOfLevel p) (fun r s' => root? (balance t) = some r ∧
      s'.stump = s.stump ∧ Settled s'.heap fs (balance t) ∧
      Edits (inorder t ++ keys fs) s.heap s'.heap) E s := by
  cases t with
  | nil => cases ht
  | node p' l r =>
    obtain rfl : p' = p := Option.some.inj ht
    obtain ⟨-, hleft, hright, -⟩ := hS.linked
    obtain ⟨-, -, hcl, hcr⟩ := hS.counted
    have hp : p' ∈ s.heap.live := hS.live p' (by simp)
    unfold checkAndRestoreBalanceOfLevel
    dsimp only
    rw [wp_bind, wp_load, hleft]
    refine ⟨hp, ?_⟩
    rw [wp_bind]
    refine wp_nodeHeight hcl (fun x hx => hS.live x (by simp [hx])) ?_
    rw [wp_bind, wp_load, hright]
    refine ⟨hp, ?_⟩
    rw [wp_bind]
    refine wp_nodeHeight hcr (fun x hx => hS.live x (by simp [hx])) ?_
    by_cases hl : l.height > r.height + 1
    · have hne : l ≠ nil := by rintro rfl; exact absurd hl (by simp [height])
      obtain ⟨q, a, b, rfl⟩ := exists_join .left hne
      have hbal : balance (node p' (join .left q a b) r) =
          rotateUp .left (node p' (join .left q a b) r) := balance_of_heavy .left hl
      rw [if_pos hl, hbal]
      refine (wp_rotate_settled .left hS).imp ?_
      rintro q' s' ⟨rfl, hst, hS', he⟩
      exact ⟨rfl, hst, hS', he⟩
    · rw [if_neg hl]
      by_cases hr : r.height > l.height + 1
      · have hne : r ≠ nil := by rintro rfl; exact absurd hr (by simp [height])
        obtain ⟨q, a, b, rfl⟩ := exists_join .right hne
        have hbal : balance (node p' l (join .right q a b)) =
            rotateUp .right (node p' l (join .right q a b)) := balance_of_heavy .right hr
        rw [if_pos hr, hbal]
        refine (wp_rotate_settled .right hS).imp ?_
        rintro q' s' ⟨rfl, hst, hS', he⟩
        exact ⟨rfl, hst, hS', he⟩
      · have hbal : balance (node p' l r) = node p' l r :=
          balance_of_even .left (Nat.not_lt.mp hl) (Nat.not_lt.mp hr)
        rw [if_neg hr, wp_pure, hbal]
        exact ⟨rfl, rfl, hS, Edits.refl _ _⟩

/-! ### The way up -/

theorem wp_level (hS : Settled s.heap (f :: fs) t) :
    wp (do
      recalculateHeightAndSizeWithDataFromTwoChilds f.key
      checkAndRestoreBalanceOfLevel f.key) (fun r s' => root? (balance (f.plug t)) = some r ∧
      s'.stump = s.stump ∧ Settled s'.heap fs (balance (f.plug t)) ∧
      Edits (inorder t ++ keys (f :: fs)) s.heap s'.heap) E s := by
  obtain ⟨hsib, hfs⟩ := countedCtx_cons.mp hS.siblings
  rw [wp_bind]
  refine wp_recalculate (place_cons.mp hS.toPlace) hS.counted hsib hfs ?_
  intro h₁ he₁ hS₁
  refine (wp_checkAndRestoreBalanceOfLevel hS₁ (root?_plug_frame f t)).imp ?_
  rintro r s' ⟨hr, hst, hS', he⟩
  exact ⟨hr, hst, hS', (he₁.mono (by simp [keys])).trans (he.mono keys_plug_subset)⟩

/-- A round of `restoreHeightSizeAndBalanceOfTree`; `check` restores the balance of a level. -/
def climb (check : Ptr → Prog (Tree α) ε Ptr) (lowestIncorrect : Ptr) :
    Prog (Tree α) ε (Ptr ⊕ Ptr) := do
  match ← load lowestIncorrect TAvlTreeNode.parent with
  | none => pure (.inr lowestIncorrect)
  | some _ => do
    recalculateHeightAndSizeWithDataFromTwoChilds lowestIncorrect
    let root ← check lowestIncorrect
    match ← load root TAvlTreeNode.parent with
    | none => stuck
    | some parent => pure (.inl parent)

/-- Below the root a round goes up by one level. -/
theorem wp_climb {g : Frame Ptr} (hS : Settled s.heap (f :: g :: fs) t) :
    wp (climb checkAndRestoreBalanceOfLevel f.key) (fun r s' => r = .inl g.key ∧
      s'.stump = s.stump ∧ Settled s'.heap (g :: fs) (balance (f.plug t)) ∧
      Edits (inorder t ++ keys (f :: g :: fs)) s.heap s'.heap) E s := by
  unfold climb
  rw [wp_bind, wp_load, hS.ctx.1]
  refine ⟨hS.live _ (by simp [keys]), ?_⟩
  show wp (do _; _) _ E s
  rw [wp_bind]
  refine ((wp_bind (E := E) _ _).mp (wp_level hS)).imp fun _ s₁ h₁ => ?_
  rw [wp_bind]
  refine h₁.imp ?_
  rintro r s₂ ⟨hr, hst, hS₂, he⟩
  rw [wp_bind, wp_load, hS₂.linked.parent hr]
  exact ⟨hS₂.live r (List.mem_append_left _ (mem_of_root? hr)), rfl, hst, hS₂, he⟩

theorem wp_climbs (hS : Settled s.heap (f :: fs) t) :
    wp (rounds (climb checkAndRestoreBalanceOfLevel) f.key) (fun x s' => ∃ (g : Frame Ptr)
      (u : BinaryTree Ptr), x = g.key ∧ Settled s'.heap [g] u ∧ up [g] u = up (f :: fs) t ∧
      s'.stump = s.stump ∧ Edits (inorder t ++ keys (f :: fs)) s.heap s'.heap ∧
      inorder u ++ keys [g] ⊆ inorder t ++ keys (f :: fs)) E s := by
  refine wp_rounds (I := fun n x s' => ∃ (g : Frame Ptr) (gs : List (Frame Ptr))
    (u : BinaryTree Ptr), x = g.key ∧ n = gs.length ∧ Settled s'.heap (g :: gs) u ∧
      up (g :: gs) u = up (f :: fs) t ∧ s'.stump = s.stump ∧
      Edits (inorder t ++ keys (f :: fs)) s.heap s'.heap ∧
      inorder u ++ keys (g :: gs) ⊆ inorder t ++ keys (f :: fs)) ?_ fs.length
    ⟨f, fs, t, rfl, rfl, hS, rfl, rfl, Edits.refl _ _, List.Subset.refl _⟩
    (Nat.le_of_succ_le hS.toPlace.length_le)
  rintro n x s' ⟨g, gs, u, rfl, rfl, hS', hup, hst, he, hsub⟩
  cases gs with
  | nil =>
    unfold climb
    rw [wp_bind, wp_load, hS'.ctx.1]
    exact ⟨hS'.live _ (by simp [keys]), g, u, rfl, hS', hup, hst, he, hsub⟩
  | cons g' gs =>
    refine (wp_climb hS').imp ?_
    rintro r s₂ ⟨rfl, hst₂, hS₂, he₂⟩
    refine ⟨gs.length, Nat.lt_succ_self _, g', gs, _, rfl, rfl, hS₂, hup, hst₂.trans hst,
      he.trans (he₂.mono hsub), List.Subset.trans ?_ hsub⟩
    rw [inorder_balance]
    exact keys_plug_subset

/-- **The way up.**  From the lowest node whose numbers may be wrong the code
computes `up`, and writes nothing outside the tree. -/
theorem wp_restoreHeightSizeAndBalanceOfTree (hS : Settled s.heap (f :: fs) t) :
    wp (restoreHeightSizeAndBalanceOfTree f.key) (fun _ s' => Rep s' (up (f :: fs) t) ∧
      s'.stump = s.stump.setRoot (root? (up (f :: fs) t)) ∧
      Edits (inorder t ++ keys (f :: fs)) s.heap s'.heap) E s := by
  unfold restoreHeightSizeAndBalanceOfTree
  rw [wp_bind]
  refine (wp_climbs hS).imp ?_
  rintro _ s' ⟨g, u, rfl, hS', hup, hst, he, hsub⟩
  -- what follows the loop is the last level
  rw [wp_bind]
  refine ((wp_bind (E := E) _ _).mp (wp_level hS')).imp fun _ s₁ h₁ => ?_
  rw [wp_bind]
  refine h₁.imp ?_
  rintro r s₂ ⟨hr, hst₂, hS₂, he₂⟩
  rw [wp_setStump, ← hup]
  refine ⟨⟨hS₂, hr.symm⟩, ?_, he.trans (he₂.mono hsub)⟩
  rw [hst₂, hst]
  exact congrArg (fun o => s.stump.setRoot o) hr.symm

end AvlTreeStump

end Garbage.RandomAccessList
