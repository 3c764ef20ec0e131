import Garbage.RandomAccessList.Node

/-!
# Trees in memory

`Linked h par t`: the nodes of `t` have in `h` the child and parent pointers of
`t`, and the root has the parent `par`.  `LinkedCtx h par fs hole` says the same
of the frames above a place whose subtree has the root `hole`, and
`linked_plug` puts the two together.  `Counted h t`: the cached sizes and
heights are those of the subtrees.

A write to a node outside a tree changes none of these (`Linked.congr` and its
relatives), a write to links only leaves `Counted` as it is and a write to
numbers only leaves `Linked`.  `Edits S h h'` says that `h'` comes from `h` by
writes to the links and numbers of nodes in `S`.
-/

namespace Garbage.RandomAccessList

open Foundation (Side)
open Foundation.Zipper
open BinaryTree

variable {α : Type} {h h' h'' : Heap α} {par base hole : Option Ptr} {t l r : BinaryTree Ptr}
  {fs : List (Frame Ptr)} {f : Frame Ptr} {p q : Ptr} {side : Side}

/-- The memory has the links of `t`. -/
def Linked (h : Heap α) : Option Ptr → BinaryTree Ptr → Prop
  | _, nil => True
  | par, node p l r => (h.node p).parent = par ∧ (h.node p).left = root? l ∧
      (h.node p).right = root? r ∧ Linked h (some p) l ∧ Linked h (some p) r

/-- The memory has the links of the frames above a place. -/
def LinkedCtx (h : Heap α) (base : Option Ptr) : List (Frame Ptr) → Option Ptr → Prop
  | [], _ => True
  | f :: fs, hole => (h.node f.key).parent = above base fs ∧ (h.node f.key).child f.side = hole ∧
      (h.node f.key).child f.side.flip = root? f.sibling ∧ Linked h (some f.key) f.sibling ∧
      LinkedCtx h base fs (some f.key)

/-- The cached sizes and heights in `t` are right. -/
def Counted (h : Heap α) : BinaryTree Ptr → Prop
  | nil => True
  | t@(node p l r) => (h.node p).size = t.numNodes ∧ (h.node p).height = t.height ∧
      Counted h l ∧ Counted h r

/-- The cached sizes and heights in the siblings of a place are right. -/
def CountedCtx (h : Heap α) (fs : List (Frame Ptr)) : Prop := ∀ f ∈ fs, Counted h f.sibling

theorem linked_join : Linked h par (join side p l r) ↔ (h.node p).parent = par ∧
    (h.node p).child side = root? l ∧ (h.node p).child side.flip = root? r ∧
    Linked h (some p) l ∧ Linked h (some p) r := by
  cases side with
  | left => exact Iff.rfl
  | right =>
    constructor
    · rintro ⟨hp, hl, hr, hll, hlr⟩
      exact ⟨hp, hr, hl, hlr, hll⟩
    · rintro ⟨hp, hr, hl, hlr, hll⟩
      exact ⟨hp, hl, hr, hll, hlr⟩

theorem Linked.parent (hl : Linked h par t) (ht : root? t = some p) : (h.node p).parent = par := by
  cases t with
  | nil => cases ht
  | node q l r => exact Option.some.inj ht ▸ hl.1

theorem counted_join : Counted h (join side p l r) ↔
    (h.node p).size = l.numNodes + r.numNodes + 1 ∧
    (h.node p).height = max l.height r.height + 1 ∧ Counted h l ∧ Counted h r := by
  cases side with
  | left => exact Iff.rfl
  | right =>
    show _ = _ + _ + 1 ∧ _ = max _ _ + 1 ∧ Counted h r ∧ Counted h l ↔ _
    rw [Nat.add_comm r.numNodes, Nat.max_comm r.height, and_comm (a := Counted h r)]

theorem linked_plug (fs : List (Frame Ptr)) : ∀ t : BinaryTree Ptr,
    Linked h base (plug fs t) ↔ LinkedCtx h base fs (root? t) ∧ Linked h (above base fs) t := by
  induction fs with
  | nil => intro t; exact ⟨fun ht => ⟨trivial, ht⟩, fun ht => ht.2⟩
  | cons f fs ih =>
    intro t
    rw [plug, ih, root?_plug_frame, Frame.plug, linked_join, LinkedCtx]
    constructor
    · rintro ⟨hctx, hp, hc, hs, ht, hls⟩
      exact ⟨⟨hp, hc, hs, hls, hctx⟩, ht⟩
    · rintro ⟨⟨hp, hc, hs, hls, hctx⟩, ht⟩
      exact ⟨hctx, hp, hc, hs, ht, hls⟩

theorem countedCtx_cons : CountedCtx h (f :: fs) ↔ Counted h f.sibling ∧ CountedCtx h fs :=
  List.forall_mem_cons

theorem counted_of_plug (fs : List (Frame Ptr)) : ∀ t : BinaryTree Ptr,
    Counted h (plug fs t) → Counted h t ∧ CountedCtx h fs := by
  induction fs with
  | nil => intro t ht; exact ⟨ht, fun f hf => nomatch hf⟩
  | cons f fs ih =>
    intro t ht
    obtain ⟨hf, hfs⟩ := ih _ ht
    obtain ⟨-, -, ht, hs⟩ := counted_join.mp hf
    exact ⟨ht, countedCtx_cons.mpr ⟨hs, hfs⟩⟩

/-! ### Writes elsewhere -/

theorem Linked.congr (hag : ∀ p ∈ inorder t, h'.node p = h.node p) :
    ∀ {par : Option Ptr}, Linked h par t → Linked h' par t := by
  induction t with
  | nil => intro par _; trivial
  | node p l r ihl ihr =>
    rintro par ⟨hp, hl, hr, hll, hlr⟩
    have he : h'.node p = h.node p := hag p (by simp)
    refine ⟨by rw [he, hp], by rw [he, hl], by rw [he, hr], ?_, ?_⟩
    · exact ihl (fun q hq => hag q (by simp [hq])) hll
    · exact ihr (fun q hq => hag q (by simp [hq])) hlr

theorem Counted.congr (hag : ∀ p ∈ inorder t, (h'.node p).size = (h.node p).size ∧
    (h'.node p).height = (h.node p).height) : Counted h t → Counted h' t := by
  induction t with
  | nil => intro _; trivial
  | node p l r ihl ihr =>
    rintro ⟨hs, hh, hl, hr⟩
    obtain ⟨hes, heh⟩ := hag p (by simp)
    refine ⟨by rw [hes, hs], by rw [heh, hh], ?_, ?_⟩
    · exact ihl (fun q hq => hag q (by simp [hq])) hl
    · exact ihr (fun q hq => hag q (by simp [hq])) hr

theorem Counted.congr_node (hag : ∀ p ∈ inorder t, h'.node p = h.node p) (hc : Counted h t) :
    Counted h' t := hc.congr fun p hp => by rw [hag p hp]; exact ⟨rfl, rfl⟩

theorem LinkedCtx.congr : ∀ {fs : List (Frame Ptr)} {hole : Option Ptr},
    (∀ p ∈ keys fs, h'.node p = h.node p) → LinkedCtx h base fs hole → LinkedCtx h' base fs hole
  | [], _, _, _ => trivial
  | f :: fs, _, hag, ⟨hp, hc, hs, hls, hctx⟩ => by
    have he : h'.node f.key = h.node f.key := hag f.key (by simp [keys])
    refine ⟨by rw [he, hp], by rw [he, hc], by rw [he, hs], ?_, ?_⟩
    · exact hls.congr fun q hq => hag q (by simp [keys, hq])
    · exact hctx.congr fun q hq => hag q (by simp [keys, hq])

/-- No link was written. -/
def SameLinks (h h' : Heap α) : Prop := ∀ p, (h'.node p).parent = (h.node p).parent ∧
  (h'.node p).left = (h.node p).left ∧ (h'.node p).right = (h.node p).right

/-- No number was written. -/
def SameNumbers (h h' : Heap α) : Prop := ∀ p, (h'.node p).size = (h.node p).size ∧
  (h'.node p).height = (h.node p).height

theorem Linked.congr_links (hag : SameLinks h h') :
    ∀ {t : BinaryTree Ptr} {par : Option Ptr}, Linked h par t → Linked h' par t
  | nil, _, _ => trivial
  | node p _ _, _, ⟨hp, hl, hr, hll, hlr⟩ =>
    ⟨(hag p).1.trans hp, (hag p).2.1.trans hl, (hag p).2.2.trans hr, hll.congr_links hag,
      hlr.congr_links hag⟩

theorem LinkedCtx.congr_links (hag : SameLinks h h') :
    ∀ {fs : List (Frame Ptr)} {hole : Option Ptr},
      LinkedCtx h base fs hole → LinkedCtx h' base fs hole
  | [], _, _ => trivial
  | f :: fs, _, ⟨hp, hc, hs, hls, hctx⟩ => by
    have hchild : ∀ side, (h'.node f.key).child side = (h.node f.key).child side := by
      intro side
      cases side with
      | left => exact (hag f.key).2.1
      | right => exact (hag f.key).2.2
    exact ⟨(hag f.key).1.trans hp, (hchild _).trans hc, (hchild _).trans hs, hls.congr_links hag,
      hctx.congr_links hag⟩

theorem SameNumbers.set {f : TAvlTreeNode α → TAvlTreeNode α}
    (hf : ∀ n, (f n).size = n.size ∧ (f n).height = n.height) (hh : SameNumbers h h') :
    SameNumbers h (h'.set p f) := by
  intro q
  rw [← (hh q).1, ← (hh q).2]
  by_cases hq : q = p
  · rw [hq, Heap.node_set_self]
    exact hf _
  · rw [Heap.node_set_of_ne hq]
    exact ⟨rfl, rfl⟩

theorem CountedCtx.congr (hag : ∀ p ∈ keys fs, (h'.node p).size = (h.node p).size ∧
    (h'.node p).height = (h.node p).height) (hc : CountedCtx h fs) : CountedCtx h' fs := by
  intro f hf
  refine (hc f hf).congr fun p hp => hag p ?_
  induction fs with
  | nil => cases hf
  | cons g gs ih =>
    rcases List.mem_cons.mp hf with rfl | hf
    · simp [keys, hp]
    · have := ih (fun p hp => hag p (by simp [keys, hp]))
        (fun g hg => hc g (List.mem_cons_of_mem _ hg)) hf
      simp [keys, this]

theorem CountedCtx.congr_node (hag : ∀ p ∈ keys fs, h'.node p = h.node p)
    (hc : CountedCtx h fs) : CountedCtx h' fs :=
  hc.congr fun p hp => by rw [hag p hp]; exact ⟨rfl, rfl⟩

/-! ### Writes to a root or to the frame above a place -/

namespace Heap

/-- Change a node unless it is `NULL`. -/
def setOpt (h : Heap α) (o : Option Ptr) (f : TAvlTreeNode α → TAvlTreeNode α) : Heap α :=
  match o with
  | none => h
  | some p => h.set p f

/-- Put another root below the frames `fs`. -/
def redirect (h : Heap α) (fs : List (Frame Ptr)) (hole : Option Ptr) : Heap α :=
  match fs with
  | [] => h
  | f :: _ => h.set f.key (TAvlTreeNode.setChild f.side hole)

@[simp] theorem live_setOpt (o : Option Ptr) (f : TAvlTreeNode α → TAvlTreeNode α) :
    (h.setOpt o f).live = h.live := by cases o <;> rfl

@[simp] theorem live_redirect : (h.redirect fs hole).live = h.live := by cases fs <;> rfl

theorem node_setOpt_of_notMem (hp : p ∉ inorder t) (f : TAvlTreeNode α → TAvlTreeNode α) :
    (h.setOpt (root? t) f).node p = h.node p := by
  cases t with
  | nil => rfl
  | node q l r => exact node_set_of_ne (fun he => hp (by simp [he])) h f

theorem node_redirect_of_notMem (hp : p ∉ keys fs) : (h.redirect fs hole).node p = h.node p := by
  cases fs with
  | nil => rfl
  | cons f fs => exact node_set_of_ne (fun he => hp (by simp [keys, he])) h _

end Heap

theorem SameNumbers.setOpt {o : Option Ptr} {f : TAvlTreeNode α → TAvlTreeNode α}
    (hf : ∀ n, (f n).size = n.size ∧ (f n).height = n.height) (hh : SameNumbers h h') :
    SameNumbers h (h'.setOpt o f) := by
  cases o with
  | none => exact hh
  | some p => exact hh.set hf

theorem SameNumbers.redirect (hh : SameNumbers h h') : SameNumbers h (h'.redirect fs hole) := by
  cases fs with
  | nil => exact hh
  | cons f fs => exact hh.set fun _ => by simp

theorem Linked.reparent (par : Option Ptr) (hl : Linked h par t) (hn : (inorder t).Nodup) :
    Linked (h.setOpt (root? t) (TAvlTreeNode.setParent base)) base t := by
  cases t with
  | nil => trivial
  | node p l r =>
    obtain ⟨-, hcl, hcr, hll, hlr⟩ := hl
    obtain ⟨⟨hpl, hpr⟩, -⟩ := (nodup_inorder_join .left).mp hn
    have hset : ∀ q, q ≠ p → ((h.setOpt (root? (node p l r)) (TAvlTreeNode.setParent base)).node q)
        = h.node q := fun q hq => Heap.node_set_of_ne hq h _
    refine ⟨?_, ?_, ?_, hll.congr fun q hq => hset q ?_, hlr.congr fun q hq => hset q ?_⟩
    · exact congrArg TAvlTreeNode.parent (h.node_set_self p _)
    · exact (congrArg TAvlTreeNode.left (h.node_set_self p _)).trans hcl
    · exact (congrArg TAvlTreeNode.right (h.node_set_self p _)).trans hcr
    · exact fun he => hpl (he ▸ hq)
    · exact fun he => hpr (he ▸ hq)

theorem LinkedCtx.redirect (hole' : Option Ptr) (hc : LinkedCtx h base fs hole)
    (hn : (keys fs).Nodup) : LinkedCtx (h.redirect fs hole') base fs hole' := by
  cases fs with
  | nil => trivial
  | cons f fs =>
    obtain ⟨hp, -, hs, hls, hctx⟩ := hc
    have hset : ∀ q, q ≠ f.key → (h.redirect (f :: fs) hole').node q = h.node q :=
      fun q hq => Heap.node_set_of_ne hq h _
    have hkey : (h.redirect (f :: fs) hole').node f.key =
        (h.node f.key).setChild f.side hole' := h.node_set_self f.key _
    rw [keys, List.nodup_cons, List.mem_append, not_or] at hn
    obtain ⟨⟨hks, hkf⟩, -⟩ := hn
    refine ⟨by simp [hkey, hp], by simp [hkey], by simp [hkey, hs], ?_, ?_⟩
    · exact hls.congr fun q hq => hset q fun he => hks (he ▸ hq)
    · exact hctx.congr fun q hq => hset q fun he => hkf (he ▸ hq)

/-! ### What was written -/

/-- `h'` comes from `h` by writes to links and numbers of nodes in `S`. -/
structure Edits (S : List Ptr) (h h' : Heap α) : Prop where
  live : h'.live = h.live
  allocations : h'.allocations = h.allocations
  value : ∀ p, (h'.node p).value = (h.node p).value
  node : ∀ p, p ∉ S → h'.node p = h.node p

namespace Edits

variable {S S' : List Ptr}

theorem refl (S : List Ptr) (h : Heap α) : Edits S h h := ⟨rfl, rfl, fun _ => rfl, fun _ _ => rfl⟩

theorem trans (hh : Edits S h h') (hh' : Edits S h' h'') : Edits S h h'' :=
  ⟨hh'.live.trans hh.live, hh'.allocations.trans hh.allocations,
    fun p => (hh'.value p).trans (hh.value p), fun p hp => (hh'.node p hp).trans (hh.node p hp)⟩

theorem mono (hh : Edits S h h') (hS : S ⊆ S') : Edits S' h h' :=
  ⟨hh.live, hh.allocations, hh.value, fun p hp => hh.node p fun hm => hp (hS hm)⟩

theorem set {f : TAvlTreeNode α → TAvlTreeNode α} (hf : ∀ n, (f n).value = n.value) (hp : p ∈ S)
    (hh : Edits S h h') : Edits S h (h'.set p f) := by
  refine ⟨hh.live, hh.allocations, fun q => ?_, fun q hq => ?_⟩
  · rw [← hh.value q]
    show (if q = p then f (h'.node p) else h'.node q).value = _
    split
    · next he => rw [hf, he]
    · rfl
  · rw [← hh.node q hq]
    exact Heap.node_set_of_ne (fun he : q = p => hq (he ▸ hp)) h' f

theorem setOpt {f : TAvlTreeNode α → TAvlTreeNode α} (hf : ∀ n, (f n).value = n.value)
    (ht : ∀ p ∈ inorder t, p ∈ S) (hh : Edits S h h') : Edits S h (h'.setOpt (root? t) f) := by
  cases t with
  | nil => exact hh
  | node p l r => exact hh.set hf (ht p (by simp))

theorem redirect (hfs : ∀ p ∈ keys fs, p ∈ S) (hh : Edits S h h') :
    Edits S h (h'.redirect fs hole) := by
  cases fs with
  | nil => exact hh
  | cons f fs => exact hh.set (fun n => TAvlTreeNode.value_setChild _ _ n) (hfs _ (by simp [keys]))

end Edits

end Garbage.RandomAccessList
