import Garbage.RandomAccessList.Steps

/-!
# One node in, one node out

`insertBefore` hangs the new node into the empty place right before a node, the
`gap`, and goes up from there.  `unlink` takes a node out.  Where the node has a
left child, its left neighbor `q` leaves its own place, takes over the links of
the node, and the way up starts where `q` was.  No other node moves, and no
value is copied.
-/

namespace Garbage.RandomAccessList

open Foundation (Prog Side)
open Foundation.Prog
open Foundation.Zipper
open BinaryTree

variable {α ε : Type} {h h' : Heap α} {t u l r : BinaryTree Ptr} {fs : List (Frame Ptr)}
  {f : Frame Ptr} {p q new : Ptr} {side : Side} {par : Option Ptr}

theorem Place.disjoint (hP : Place h fs t) : ∀ x ∈ inorder t, x ∉ keys fs :=
  fun _ hx hf => (List.nodup_append'.mp hP.nodup).2.2 hx hf

theorem Place.key_ne {g k : Frame Ptr} {gs : List (Frame Ptr)}
    (hP : Place h (g :: gs ++ k :: fs) t) :
    g.key ≠ k.key := by
  intro he
  have hnodup := hP.nodup.of_append_right
  rw [List.cons_append, keys, keys_append, keys, he] at hnodup
  exact (List.nodup_cons.mp hnodup).1 (by simp)

theorem Settled.of_plug {gs : List (Frame Ptr)} (hS : Settled h gs (plug fs t)) :
    Settled h (fs ++ gs) t := by
  obtain ⟨hc, hfs⟩ := counted_of_plug fs t hS.counted
  refine ⟨(place_plug ..).mpr hS.toPlace, hc, fun f hf => ?_⟩
  rcases List.mem_append.mp hf with hf | hf
  · exact hfs f hf
  · exact hS.siblings f hf

theorem Settled.at_place (hS : Settled h [] (plug fs t)) : Settled h fs t := by
  have hplace := hS.of_plug
  rwa [List.append_nil] at hplace

/-! ### Another subtree at a place -/

/-- What `replaceNode` leaves when it puts `u` at a place. -/
def Heap.replaced (h : Heap α) (fs : List (Frame Ptr)) (u : BinaryTree Ptr) : Heap α :=
  (h.redirect fs (root? u)).setOpt (root? u) (TAvlTreeNode.setParent (above none fs))

/-- What a node `q` leaves when it takes over a place with the children `l` and `r`. -/
def Heap.takenOver (h : Heap α) (fs : List (Frame Ptr)) (q : Ptr) (l r : BinaryTree Ptr) :
    Heap α :=
  (((((h.redirect fs (some q)).set q (TAvlTreeNode.setParent (above none fs))).set q
    (TAvlTreeNode.setChild .left (root? l))).set q
    (TAvlTreeNode.setChild .right (root? r))).setOpt (root? l)
    (TAvlTreeNode.setParent (some q))).setOpt (root? r) (TAvlTreeNode.setParent (some q))

theorem Place.replaced (hP : Place h fs t) (hu : Linked h par u)
    (hn : (inorder u ++ keys fs).Nodup) (hlive : ∀ x ∈ inorder u, x ∈ h.live) :
    Place (h.replaced fs u) fs u := by
  obtain ⟨hnu, hnf, hdis⟩ := List.nodup_append'.mp hn
  refine ⟨?_, ?_, hn, fun x hx => ?_⟩
  · refine Linked.reparent par (hu.congr fun x hx => ?_) hnu
    exact Heap.node_redirect_of_notMem fun hf => hdis hx hf
  · refine (hP.ctx.redirect _ hnf).congr fun x hx => ?_
    exact Heap.node_setOpt_of_notMem (fun hm => hdis hm hx) _
  · rw [Heap.replaced, Heap.live_setOpt, Heap.live_redirect]
    rcases List.mem_append.mp hx with hx | hx
    · exact hlive x hx
    · exact hP.live x (List.mem_append_right _ hx)

theorem sameNumbers_replaced : SameNumbers h (h.replaced fs u) :=
  SameNumbers.setOpt (fun _ => ⟨rfl, rfl⟩) (SameNumbers.redirect fun _ => ⟨rfl, rfl⟩)

theorem edits_replaced {S : List Ptr} (hu : ∀ x ∈ inorder u, x ∈ S) (hf : ∀ x ∈ keys fs, x ∈ S) :
    Edits S h (h.replaced fs u) :=
  Edits.setOpt (fun _ => rfl) hu (Edits.redirect hf (Edits.refl S h))

theorem sameNumbers_takenOver : SameNumbers h (h.takenOver fs q l r) := by
  refine SameNumbers.setOpt (fun _ => ⟨rfl, rfl⟩) (SameNumbers.setOpt (fun _ => ⟨rfl, rfl⟩) ?_)
  refine SameNumbers.set (fun _ => by simp) (SameNumbers.set (fun _ => by simp) ?_)
  exact SameNumbers.set (fun _ => ⟨rfl, rfl⟩) (SameNumbers.redirect fun _ => ⟨rfl, rfl⟩)

theorem edits_takenOver {S : List Ptr} (hq : q ∈ S) (hl : ∀ x ∈ inorder l, x ∈ S)
    (hr : ∀ x ∈ inorder r, x ∈ S) (hf : ∀ x ∈ keys fs, x ∈ S) :
    Edits S h (h.takenOver fs q l r) := by
  refine Edits.setOpt (fun _ => rfl) hr (Edits.setOpt (fun _ => rfl) hl ?_)
  refine Edits.set (TAvlTreeNode.value_setChild _ _) hq ?_
  refine Edits.set (TAvlTreeNode.value_setChild _ _) hq (Edits.set (fun _ => rfl) hq ?_)
  exact Edits.redirect hf (Edits.refl S h)

/-- A node from outside takes over the place of `p`. -/
theorem Place.takenOver (hP : Place h fs (node p l r))
    (hq : q ∉ inorder (node p l r) ++ keys fs) (hqlive : q ∈ h.live) :
    Place (h.takenOver fs q l r) fs (node q l r) := by
  obtain ⟨hn, hnf, hdis⟩ := List.nodup_append'.mp hP.nodup
  obtain ⟨⟨hpl, hpr⟩, hnl, hnr, hlr⟩ := (nodup_inorder_join .left).mp hn
  obtain ⟨-, -, -, hll, hlr'⟩ := hP.linked
  have hlf : ∀ x ∈ inorder l, x ∉ keys fs := fun x hx => hP.disjoint x (by simp [hx])
  have hrf : ∀ x ∈ inorder r, x ∉ keys fs := fun x hx => hP.disjoint x (by simp [hx])
  simp only [inorder_node, List.mem_append, List.mem_cons, not_or] at hq
  obtain ⟨⟨hql, hqp, hqr⟩, hqf⟩ := hq
  have hnq : (h.takenOver fs q l r).node q = (((h.node q).setParent (above none fs)).setChild .left
      (root? l)).setChild .right (root? r) := by
    rw [Heap.takenOver, Heap.node_setOpt_of_notMem hqr, Heap.node_setOpt_of_notMem hql,
      Heap.node_set_self, Heap.node_set_self, Heap.node_set_self,
      Heap.node_redirect_of_notMem hqf]
  have hqx : ∀ x, x ∈ inorder l ∨ x ∈ inorder r ∨ x ∈ keys fs → x ≠ q := by
    rintro x hx rfl
    tauto
  refine ⟨⟨?_, ?_, ?_, ?_, ?_⟩, ?_, ?_, ?_⟩
  · rw [hnq]
    rfl
  · rw [hnq]
    rfl
  · rw [hnq]
    rfl
  · -- below the left child nothing was written
    have hbelow : Linked ((((h.redirect fs (some q)).set q
        (TAvlTreeNode.setParent (above none fs))).set q
        (TAvlTreeNode.setChild .left (root? l))).set q
        (TAvlTreeNode.setChild .right (root? r))) (some p) l := hll.congr fun x hx => by
      have hx' := hqx x (.inl hx)
      rw [Heap.node_set_of_ne hx', Heap.node_set_of_ne hx', Heap.node_set_of_ne hx',
        Heap.node_redirect_of_notMem (hlf x hx)]
    refine (hbelow.reparent _ hnl).congr fun x hx => ?_
    exact Heap.node_setOpt_of_notMem (fun hm => hlr hx hm) _
  · refine Linked.reparent (some p) (hlr'.congr fun x hx => ?_) hnr
    have hx' := hqx x (.inr (.inl hx))
    rw [Heap.node_setOpt_of_notMem fun hm => hlr hm hx, Heap.node_set_of_ne hx',
      Heap.node_set_of_ne hx', Heap.node_set_of_ne hx', Heap.node_redirect_of_notMem (hrf x hx)]
  · refine (hP.ctx.redirect (some q) hnf).congr fun x hx => ?_
    have hx' := hqx x (.inr (.inr hx))
    rw [Heap.takenOver, Heap.node_setOpt_of_notMem fun hm => hrf x hm hx,
      Heap.node_setOpt_of_notMem fun hm => hlf x hm hx, Heap.node_set_of_ne hx',
      Heap.node_set_of_ne hx', Heap.node_set_of_ne hx']
  · have := hP.nodup
    simp only [inorder_node, List.nodup_append', List.nodup_cons, List.disjoint_cons_right,
      List.disjoint_append_left, List.disjoint_cons_left] at this ⊢
    tauto
  · intro x hx
    have hlive : (h.takenOver fs q l r).live = h.live := by simp [Heap.takenOver]
    rw [hlive]
    by_cases hxq : x = q
    · rw [hxq]
      exact hqlive
    · refine hP.live x ?_
      simp only [inorder_node, List.mem_append, List.mem_cons] at hx ⊢
      tauto

/-- What is left of a tree without the node `q`, which has no right child. -/
theorem Place.without {c : List (Frame Ptr)} {lq : BinaryTree Ptr}
    (hP : Place h (c ++ ⟨.left, p, r⟩ :: fs) (node q lq nil)) :
    Place (h.replaced (c ++ ⟨.left, p, r⟩ :: fs) lq) fs (node p (plug c lq) r) ∧
      q ∉ inorder (node p (plug c lq) r) ++ keys fs ∧
      inorder (node p (plug c lq) r) ++ keys fs ⊆
        inorder (node q lq nil) ++ keys (c ++ ⟨.left, p, r⟩ :: fs) := by
  have hn : q ∉ inorder lq ++ keys (c ++ ⟨.left, p, r⟩ :: fs) ∧
      (inorder lq ++ keys (c ++ ⟨.left, p, r⟩ :: fs)).Nodup := by
    have hnodup := hP.nodup
    rw [inorder_node, List.append_assoc] at hnodup
    exact List.nodup_cons.mp (List.nodup_middle.mp hnodup)
  have hsame : (inorder lq ++ keys (c ++ ⟨.left, p, r⟩ :: fs)).Perm
      (inorder (node p (plug c lq) r) ++ keys fs) := by
    refine (inorder_plug_perm _ lq).symm.trans ?_
    rw [plug_append]
    exact inorder_plug_perm fs (node p (plug c lq) r)
  obtain ⟨-, -, -, hlq, -⟩ := hP.linked
  have hreplaced := hP.replaced hlq hn.2 fun x hx => hP.live x (by simp [hx])
  refine ⟨place_cons.mp ((place_plug ..).mp hreplaced),
    fun hm => hn.1 (hsame.mem_iff.mpr hm), fun x hx => ?_⟩
  have hx' := hsame.mem_iff.mpr hx
  simp only [inorder_node, List.mem_append, List.mem_cons] at hx' ⊢
  tauto

/-- The neighbor `q` of `p` has left its place and taken over that of `p`. -/
theorem Settled.takenOver {c : List (Frame Ptr)} {lq : BinaryTree Ptr}
    (hS : Settled h (c ++ ⟨.left, p, r⟩ :: fs) (node q lq nil)) :
    Settled ((h.replaced (c ++ ⟨.left, p, r⟩ :: fs) lq).takenOver fs q (plug c lq) r)
      (c ++ ⟨.left, q, r⟩ :: fs) lq := by
  obtain ⟨hP, hq, -⟩ := hS.toPlace.without
  have hnum : SameNumbers h
      ((h.replaced (c ++ ⟨.left, p, r⟩ :: fs) lq).takenOver fs q (plug c lq) r) := by
    intro x
    have hnum₁ : SameNumbers h (h.replaced (c ++ ⟨.left, p, r⟩ :: fs) lq) := sameNumbers_replaced
    have hnum₂ : SameNumbers (h.replaced (c ++ ⟨.left, p, r⟩ :: fs) lq)
        ((h.replaced (c ++ ⟨.left, p, r⟩ :: fs) lq).takenOver fs q (plug c lq) r) :=
      sameNumbers_takenOver
    exact ⟨(hnum₂ x).1.trans (hnum₁ x).1, (hnum₂ x).2.trans (hnum₁ x).2⟩
  have hqlive : q ∈ (h.replaced (c ++ ⟨.left, p, r⟩ :: fs) lq).live := by
    rw [Heap.replaced, Heap.live_setOpt, Heap.live_redirect]
    exact hS.live q (by simp)
  refine ⟨(place_plug ..).mpr (place_cons.mpr (hP.takenOver hq hqlive)),
    hS.counted.2.2.1.congr fun x _ => hnum x, fun f hf => ?_⟩
  -- the siblings are those from before
  have hsib : ∃ g ∈ c ++ ⟨.left, p, r⟩ :: fs, g.sibling = f.sibling := by
    simp only [List.mem_append, List.mem_cons] at hf ⊢
    rcases hf with hf | rfl | hf
    · exact ⟨f, .inl hf, rfl⟩
    · exact ⟨⟨.left, p, r⟩, .inr (.inl rfl), rfl⟩
    · exact ⟨f, .inr (.inr hf), rfl⟩
  obtain ⟨g, hg, hgf⟩ := hsib
  exact hgf ▸ (hS.siblings g hg).congr fun x _ => hnum x

/-- The right subtree of a node without a left child takes the place of the node. -/
theorem Settled.spliced (hS : Settled h fs (node p nil r)) : Settled (h.replaced fs r) fs r := by
  have hn : (inorder r ++ keys fs).Nodup := (List.nodup_cons.mp hS.nodup).2
  obtain ⟨-, -, -, -, hlr⟩ := hS.linked
  obtain ⟨-, -, -, hcr⟩ := hS.counted
  refine ⟨hS.toPlace.replaced hlr hn fun x hx => hS.live x (by simp [hx]), ?_, ?_⟩
  · exact hcr.congr fun x _ => sameNumbers_replaced x
  · exact hS.siblings.congr fun x _ => sameNumbers_replaced x

/-- The whole tree around the left neighbor of a node with a left child. -/
theorem plug_neighbor (k : Ptr) (a b : BinaryTree Ptr) :
    plug ((extreme .right b k a).1 ++ ⟨.left, p, r⟩ :: fs)
      (node (extreme .right b k a).2.1 (extreme .right b k a).2.2 nil) =
    plug fs (node p (node k a b) r) := by
  rw [plug_append]
  exact congrArg (fun t => plug fs (node p t r)) (plug_extreme .right b k a)

/-- What `insertBefore` writes to the new node first. -/
def Heap.resetNew (h : Heap α) (new : Ptr) : Heap α :=
  (((h.set new (TAvlTreeNode.setSize 1)).set new (TAvlTreeNode.setHeight 1)).set new
    (TAvlTreeNode.setChild .left none)).set new (TAvlTreeNode.setChild .right none)

/-- A node that was reset. -/
structure Heap.IsNew (h : Heap α) (new : Ptr) : Prop where
  left : (h.node new).left = none
  right : (h.node new).right = none
  size : (h.node new).size = 1
  height : (h.node new).height = 1

theorem edits_resetNew : Edits [new] h (h.resetNew new) := by
  refine Edits.set (TAvlTreeNode.value_setChild _ _) List.mem_cons_self ?_
  refine Edits.set (TAvlTreeNode.value_setChild _ _) List.mem_cons_self ?_
  refine Edits.set (fun _ => rfl) List.mem_cons_self ?_
  exact Edits.set (fun _ => rfl) List.mem_cons_self (Edits.refl [new] h)

theorem isNew_resetNew : (h.resetNew new).IsNew new := by
  constructor <;> simp [Heap.resetNew, TAvlTreeNode.setChild]

/-- A new leaf in an empty place. -/
theorem Settled.hang (hS : Settled h (f :: fs) nil) (hnew : new ∉ keys (f :: fs))
    (hlive : new ∈ h.live) (hi : h.IsNew new) :
    Settled ((h.redirect (f :: fs) (some new)).set new
      (TAvlTreeNode.setParent (some f.key))) (f :: fs) (node new nil nil) := by
  have hnode : ((h.redirect (f :: fs) (some new)).set new
      (TAvlTreeNode.setParent (some f.key))).node new = (h.node new).setParent (some f.key) := by
    rw [Heap.node_set_self, Heap.node_redirect_of_notMem hnew]
  have hnum : SameNumbers h ((h.redirect (f :: fs) (some new)).set new
      (TAvlTreeNode.setParent (some f.key))) :=
    SameNumbers.set (fun _ => ⟨rfl, rfl⟩) (SameNumbers.redirect fun _ => ⟨rfl, rfl⟩)
  have hkeys : (keys (f :: fs)).Nodup := hS.nodup
  refine ⟨⟨?_, ?_, ?_, ?_⟩, ?_, hS.siblings.congr fun x _ => hnum x⟩
  · rw [Linked, hnode]
    exact ⟨rfl, hi.left, hi.right, trivial, trivial⟩
  · refine (hS.ctx.redirect (some new) hkeys).congr fun x hx => ?_
    exact Heap.node_set_of_ne (fun he : x = new => hnew (he ▸ hx)) _ _
  · exact List.nodup_cons.mpr ⟨hnew, hkeys⟩
  · intro x hx
    rw [Heap.live_set, Heap.live_redirect]
    rcases List.mem_cons.mp hx with rfl | hx
    · exact hlive
    · exact hS.live x hx
  · rw [Counted, hnode]
    exact ⟨hi.size, hi.height, trivial, trivial⟩

/-- The place right before a node, after the new node was reset. -/
theorem Settled.gap (hS : Settled h [] (plug fs (node p l r)))
    (hnew : new ∉ inorder (plug fs (node p l r))) (he : Edits [new] h h') :
    Settled h' fs (node p l r) ∧ Settled h' (gap fs p l r) nil ∧
      ∀ x ∈ keys (gap fs p l r), x ∈ inorder (plug fs (node p l r)) := by
  have hS' : Settled h' [] (plug fs (node p l r)) := hS.congr (fun x hx => he.node x fun hm =>
    hnew (by rw [keys, List.append_nil] at hx; rwa [← List.mem_singleton.mp hm]))
    fun x hx => he.live ▸ hS.live x hx
  refine ⟨hS'.at_place, Settled.at_place (by rwa [plug_gap]), fun x hx => ?_⟩
  rw [← plug_gap]
  exact (inorder_plug_perm _ nil).mem_iff.mpr hx

namespace AvlTreeStump

variable {E : ε → Tree α → Prop} {s : Tree α}

/-! ### `insert_before` -/

/-- The end of `insertBefore`: the new node goes into an empty place. -/
theorem wp_hang (hS : Settled s.heap (f :: fs) nil) (hnew : new ∉ keys (f :: fs))
    (hlive : new ∈ s.heap.live) (hi : s.heap.IsNew new) :
    wp (do
      store f.key (TAvlTreeNode.setChild f.side (some new))
      store new (TAvlTreeNode.setParent (some f.key))
      restoreHeightSizeAndBalanceOfTree f.key
      pure new) (fun x s' => x = new ∧ Rep s' (up (f :: fs) (node new nil nil)) ∧
        s'.stump = s.stump.setRoot (root? (up (f :: fs) (node new nil nil))) ∧
        Edits (new :: keys (f :: fs)) s.heap s'.heap) E s := by
  rw [wp_bind, wp_store]
  refine ⟨hS.live _ (by simp [keys]), ?_⟩
  rw [wp_bind, wp_store]
  refine ⟨hlive, ?_⟩
  rw [wp_bind]
  refine (wp_restoreHeightSizeAndBalanceOfTree (hS.hang hnew hlive hi)).imp ?_
  rintro _ s' ⟨hR, hst, he⟩
  rw [wp_pure]
  refine ⟨rfl, hR, hst, Edits.trans ?_ (he.mono (by simp))⟩
  refine Edits.set (fun _ => rfl) (by simp) (Edits.set (TAvlTreeNode.value_setChild _ _) ?_ ?_)
  · simp [keys]
  · exact Edits.refl _ _

/-- The first half of `insertBefore`: the node is reset, the cached `begin` follows. -/
theorem wp_insertBefore_reset {Q : Ptr → Tree α → Prop} {it : Option Ptr}
    (hlive : new ∈ s.heap.live) (hQ : wp (link it new) Q E
      { heap := s.heap.resetNew new, stump := s.stump.inserted it new }) :
    wp (insertBefore it new) Q E s := by
  unfold insertBefore
  rw [wp_bind, wp_store]
  refine ⟨hlive, ?_⟩
  rw [wp_bind, wp_store]
  refine ⟨hlive, ?_⟩
  rw [wp_bind, wp_store]
  refine ⟨hlive, ?_⟩
  rw [wp_bind, wp_store]
  refine ⟨hlive, ?_⟩
  rw [wp_bind, wp_get]
  by_cases hit : it = s.stump.begin_
  · rw [AvlTreeStump.inserted, if_pos hit] at hQ
    rw [if_pos hit, wp_bind, wp_setStump]
    exact hQ
  · rw [AvlTreeStump.inserted, if_neg hit] at hQ
    rw [if_neg hit]
    exact hQ

theorem rep_single (stump : AvlTreeStump) (hi : h.IsNew new) (hlive : new ∈ h.live) :
    Rep ⟨h.set new (TAvlTreeNode.setParent none), stump.setRoot (some new)⟩
      (plug [] (node new nil nil)) := by
  refine ⟨⟨place_nil_iff.mpr ⟨?_, ?_, ?_⟩, ?_, fun f hf => nomatch hf⟩, rfl⟩
  · show Linked _ none (node new nil nil)
    simp [Linked, hi.left, hi.right, TAvlTreeNode.setParent]
  · exact List.nodup_singleton new
  · intro x hx
    exact List.mem_singleton.mp hx ▸ hlive
  · show Counted _ (node new nil nil)
    simp [Counted, hi.size, hi.height, TAvlTreeNode.setParent, numNodes, height]

theorem root_inserted (stump : AvlTreeStump) (it : Option Ptr) (new : Ptr) :
    (stump.inserted it new).root = stump.root := by
  rw [inserted]
  split <;> rfl

theorem wp_insertBefore_first {Q : Ptr → Tree α → Prop} (hroot : s.stump.root = none)
    (hlive : new ∈ s.heap.live) (hQ : Q new
      ⟨(s.heap.resetNew new).set new (TAvlTreeNode.setParent none),
        (s.stump.inserted none new).setRoot (some new)⟩) :
    wp (insertBefore none new) Q E s := by
  refine wp_insertBefore_reset hlive ?_
  unfold link
  rw [wp_bind, wp_get]
  dsimp only
  rw [root_inserted, hroot]
  dsimp only
  rw [wp_bind, wp_setStump, wp_bind, wp_store]
  exact ⟨hlive, hQ⟩

/-- **`insert_before` puts the new node right before `it`.** -/
theorem wp_insertBefore (hR : Rep s (plug fs (node p l r)))
    (hnew : new ∉ inorder (plug fs (node p l r))) (hlive : new ∈ s.heap.live) :
    wp (insertBefore (some p) new) (fun x s' => x = new ∧
      Rep s' (up (gap fs p l r) (node new nil nil)) ∧
      s'.stump = (s.stump.inserted (some p) new).setRoot
        (root? (up (gap fs p l r) (node new nil nil))) ∧
      Edits (new :: inorder (plug fs (node p l r))) s.heap s'.heap) E s := by
  refine wp_insertBefore_reset hlive ?_
  obtain ⟨hplace, hgap, hkeys⟩ := hR.settled.gap hnew edits_resetNew
  obtain ⟨-, hleft, -⟩ := hplace.linked
  have hhang := fun f gs (hf : gap fs p l r = f :: gs) => wp_hang (E := E)
    (s := { heap := s.heap.resetNew new, stump := s.stump.inserted (some p) new })
    (show Settled (s.heap.resetNew new) (f :: gs) nil from hf ▸ hgap)
    (fun hm => hnew (hkeys new (hf ▸ hm))) hlive isNew_resetNew
  have he : Edits (new :: inorder (plug fs (node p l r))) s.heap (s.heap.resetNew new) :=
    edits_resetNew.mono (by simp)
  unfold link
  rw [wp_bind, wp_get]
  dsimp only
  rw [wp_bind, wp_load, hleft]
  refine ⟨hplace.live p (by simp), ?_⟩
  cases l with
  | nil =>
    refine (hhang ⟨.left, p, r⟩ fs rfl).imp ?_
    rintro x s' ⟨rfl, hR', hst, he'⟩
    exact ⟨rfl, hR', hst, he.trans (he'.mono (List.cons_subset_cons _ hkeys))⟩
  | node k a b =>
    rw [root?_node]
    dsimp only
    rw [wp_bind]
    refine wp_findExtreme .right (hplace.toPlace.child .left) ?_
    refine (hhang _ _ rfl).imp ?_
    rintro x s' ⟨rfl, hR', hst, he'⟩
    exact ⟨rfl, hR', hst, he.trans (he'.mono (List.cons_subset_cons _ hkeys))⟩

/-! ### `delete_` -/

/-- The root after another subtree was put at a place. -/
def replacedStump (stump : AvlTreeStump) (fs : List (Frame Ptr)) (u : BinaryTree Ptr) :
    AvlTreeStump :=
  match fs with
  | [] => stump.setRoot (root? u)
  | _ :: _ => stump

theorem setRoot_replacedStump (stump : AvlTreeStump) (fs : List (Frame Ptr)) (u : BinaryTree Ptr)
    (o : Option Ptr) : (replacedStump stump fs u).setRoot o = stump.setRoot o := by
  cases fs <;> rfl

theorem wp_replaceNode {Q : PUnit → Tree α → Prop} (hP : Place s.heap fs t) (ht : root? t = some p)
    (hu : ∀ x ∈ inorder u, x ∈ s.heap.live)
    (hQ : Q PUnit.unit
      { heap := s.heap.replaced fs u, stump := replacedStump s.stump fs u }) :
    wp (replaceNode p (root? u)) Q E s := by
  have hp : p ∈ s.heap.live := hP.live p (List.mem_append_left _ (mem_of_root? ht))
  unfold replaceNode
  rw [wp_bind, wp_load, hP.linked.parent ht]
  refine ⟨hp, ?_⟩
  cases fs with
  | nil =>
    dsimp only [above]
    rw [wp_bind]
    refine wp_storeIfNotNull hu ?_
    rw [wp_setStump]
    exact hQ
  | cons f fs =>
    dsimp only [above]
    rw [wp_bind]
    refine wp_childType hP ht ?_
    rw [wp_bind, wp_store]
    refine ⟨hP.live f.key (by simp [keys]), ?_⟩
    exact wp_storeIfNotNull hu hQ

/-- What `takePlace` writes. -/
theorem wp_takePlace {Q : PUnit → Tree α → Prop} (hP : Place s.heap fs (node p l r))
    (hq : q ∉ inorder (node p l r) ++ keys fs) (hqlive : q ∈ s.heap.live)
    (hQ : Q PUnit.unit ⟨s.heap.takenOver fs q l r, replacedStump s.stump fs (node q nil nil)⟩) :
    wp (takePlace p q) Q E s := by
  obtain ⟨-, hleft, hright, -⟩ := hP.linked
  have hp : p ∈ s.heap.live := hP.live p (by simp)
  have hpf : p ∉ keys fs := hP.disjoint p (by simp)
  have hpq : p ≠ q := fun he => hq (by simp [he])
  have hll : ∀ x ∈ inorder l, x ∈ s.heap.live := fun x hx => hP.live x (by simp [hx])
  have hlr : ∀ x ∈ inorder r, x ∈ s.heap.live := fun x hx => hP.live x (by simp [hx])
  have hlive : (s.heap.replaced fs (node q nil nil)).live = s.heap.live := by
    rw [Heap.replaced, Heap.live_setOpt, Heap.live_redirect]
  have hpnode : (s.heap.replaced fs (node q nil nil)).node p = s.heap.node p := by
    rw [Heap.replaced, Heap.node_setOpt_of_notMem (by simpa using hpq),
      Heap.node_redirect_of_notMem hpf]
  unfold takePlace
  rw [wp_bind]
  refine wp_replaceNode (u := node q nil nil) hP rfl (by simpa using hqlive) ?_
  rw [wp_bind, wp_load, hpnode, hleft]
  refine ⟨hlive ▸ hp, ?_⟩
  rw [wp_bind, wp_store]
  refine ⟨hlive ▸ hqlive, ?_⟩
  rw [wp_bind, wp_load, Heap.node_set_of_ne hpq, hpnode, hright]
  refine ⟨hlive ▸ hp, ?_⟩
  rw [wp_bind, wp_store]
  refine ⟨hlive ▸ hqlive, ?_⟩
  rw [wp_bind]
  refine wp_storeIfNotNull (fun x hx => hlive ▸ hll x hx) ?_
  refine wp_storeIfNotNull (fun x hx => ?_) hQ
  rw [Heap.live_setOpt]
  exact hlive ▸ hlr x hx

/-- The left neighbor `q` of `p` leaves its place and takes over that of `p`. -/
theorem wp_takeOver {c : List (Frame Ptr)} {lq : BinaryTree Ptr}
    (hS : Settled s.heap (c ++ ⟨.left, p, r⟩ :: fs) (node q lq nil)) :
    wp (takeOver p q) (fun _ s' => Rep s' (up (c ++ ⟨.left, q, r⟩ :: fs) lq) ∧
      s'.stump = s.stump.setRoot (root? (up (c ++ ⟨.left, q, r⟩ :: fs) lq)) ∧
      Edits (inorder (node q lq nil) ++ keys (c ++ ⟨.left, p, r⟩ :: fs)) s.heap s'.heap) E s := by
  have hq : q ∈ s.heap.live := hS.live q (by simp)
  have hlive : ∀ x ∈ inorder lq, x ∈ s.heap.live := fun x hx => hS.live x (by simp [hx])
  obtain ⟨hpar, hleft, -⟩ := hS.linked
  obtain ⟨hP₁, hq₁, hsub⟩ := hS.toPlace.without
  generalize hh₁ : s.heap.replaced (c ++ ⟨.left, p, r⟩ :: fs) lq = h₁ at hP₁
  have he₁ : Edits (inorder (node q lq nil) ++ keys (c ++ ⟨.left, p, r⟩ :: fs)) s.heap h₁ :=
    hh₁ ▸ edits_replaced (fun x hx => by simp [hx]) fun x hx => List.mem_append_right _ hx
  have hqlive₁ : q ∈ h₁.live := he₁.live ▸ hq
  have hS₂ : Settled (h₁.takenOver fs q (plug c lq) r) (c ++ ⟨.left, q, r⟩ :: fs) lq :=
    hh₁ ▸ hS.takenOver
  have he₂ : Edits (inorder (node q lq nil) ++ keys (c ++ ⟨.left, p, r⟩ :: fs)) h₁
      (h₁.takenOver fs q (plug c lq) r) :=
    edits_takenOver (by simp) (fun x hx => hsub (by simp [hx])) (fun x hx => hsub (by simp [hx]))
      fun x hx => hsub (by simp [hx])
  have hst₁ : replacedStump s.stump (c ++ ⟨.left, p, r⟩ :: fs) lq = s.stump := by cases c <;> rfl
  unfold takeOver
  rw [wp_bind, wp_load, hpar]
  refine ⟨hq, ?_⟩
  rw [wp_bind, wp_load, hleft]
  refine ⟨hq, ?_⟩
  rw [wp_bind]
  refine wp_replaceNode hS.toPlace rfl hlive ?_
  rw [hh₁, hst₁, wp_bind]
  refine wp_takePlace hP₁ hq₁ hqlive₁ ?_
  have hdone : ∀ f gs, c ++ ⟨.left, q, r⟩ :: fs = f :: gs →
      wp (restoreHeightSizeAndBalanceOfTree f.key) (fun _ s' =>
        Rep s' (up (c ++ ⟨.left, q, r⟩ :: fs) lq) ∧
        s'.stump = s.stump.setRoot (root? (up (c ++ ⟨.left, q, r⟩ :: fs) lq)) ∧
        Edits (inorder (node q lq nil) ++ keys (c ++ ⟨.left, p, r⟩ :: fs)) s.heap s'.heap) E
        ⟨h₁.takenOver fs q (plug c lq) r, replacedStump s.stump fs (node q nil nil)⟩ := by
    intro f gs hf
    refine (wp_restoreHeightSizeAndBalanceOfTree (hf ▸ hS₂)).imp ?_
    rintro _ s' ⟨hR', hst, he⟩
    rw [← hf] at hR' hst he
    rw [setRoot_replacedStump] at hst
    refine ⟨hR', hst, (he₁.trans he₂).trans (he.mono fun x hx => ?_)⟩
    rw [keys_append, keys] at hx ⊢
    simp only [inorder_node, List.mem_append, List.mem_cons] at hx ⊢
    tauto
  cases c with
  | nil =>
    have habove : above none ([] ++ ⟨.left, p, r⟩ :: fs) = some p := rfl
    rw [if_pos habove]
    exact hdone ⟨.left, q, r⟩ fs rfl
  | cons g gs =>
    have habove : above none (g :: gs ++ ⟨.left, p, r⟩ :: fs) ≠ some p :=
      fun he => hS.toPlace.key_ne (Option.some.inj he)
    rw [if_neg habove]
    exact hdone g (gs ++ ⟨.left, q, r⟩ :: fs) rfl

/-- **`unlink` takes the node out and leaves the others in order.** -/
theorem wp_unlink (hR : Rep s (plug fs (node p l r))) :
    wp (unlink p) (fun _ s' => Rep s' (up (cut fs l r).1 (cut fs l r).2) ∧
      s'.stump = s.stump.setRoot (root? (up (cut fs l r).1 (cut fs l r).2)) ∧
      Edits (inorder (plug fs (node p l r))) s.heap s'.heap) E s := by
  have hS : Settled s.heap fs (node p l r) := hR.settled.at_place
  have hperm := inorder_plug_perm fs (node p l r)
  obtain ⟨-, hleft, hright, -⟩ := hS.linked
  have hp : p ∈ s.heap.live := hS.live p (by simp)
  have hlive_r : ∀ x ∈ inorder r, x ∈ s.heap.live := fun x hx => hS.live x (by simp [hx])
  unfold unlink
  rw [wp_bind, wp_load, hleft]
  refine ⟨hp, ?_⟩
  cases l with
  | nil =>
    have hS' : Settled (s.heap.replaced fs r) fs r := hS.spliced
    have he : Edits (inorder (plug fs (node p nil r))) s.heap (s.heap.replaced fs r) := by
      refine edits_replaced (fun x hx => ?_) fun x hx => ?_ <;> rw [hperm.mem_iff] <;> simp [hx]
    rw [root?_nil]
    dsimp only
    rw [wp_bind, wp_load, hS.linked.1]
    refine ⟨hp, ?_⟩
    rw [wp_bind, wp_load, hright]
    refine ⟨hp, ?_⟩
    rw [wp_bind]
    refine wp_replaceNode hS.toPlace rfl hlive_r ?_
    cases fs with
    | nil => exact ⟨⟨hS', rfl⟩, rfl, he⟩
    | cons f fs =>
      refine (wp_restoreHeightSizeAndBalanceOfTree hS').imp ?_
      rintro _ s' ⟨hR', hst, he'⟩
      refine ⟨hR', hst, he.trans (he'.mono fun x hx => hperm.mem_iff.mpr ?_)⟩
      rw [inorder_node]
      simp only [List.mem_append, List.mem_cons] at hx ⊢
      tauto
  | node k a b =>
    have hq : Settled s.heap ((extreme .right b k a).1 ++ ⟨.left, p, r⟩ :: fs)
        (node (extreme .right b k a).2.1 (extreme .right b k a).2.2 nil) := by
      refine Settled.at_place ?_
      rw [plug_neighbor]
      exact hR.settled
    rw [root?_node]
    dsimp only
    rw [wp_bind]
    refine wp_findExtreme .right (hS.toPlace.child .left) ?_
    refine (wp_takeOver hq).imp ?_
    rintro _ s' ⟨hR', hst, he⟩
    refine ⟨hR', hst, he.mono fun x hx => ?_⟩
    rwa [← (inorder_plug_perm _ _).mem_iff, plug_neighbor] at hx

end AvlTreeStump

end Garbage.RandomAccessList
