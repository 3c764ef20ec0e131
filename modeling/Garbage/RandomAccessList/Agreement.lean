import Garbage.RandomAccessList.Asserted
import Garbage.RandomAccessList.Relink

/-!
# The assertions on one node

In a tree with right links no assertion of the rotations, of the way up, of the
steps, of `insertBefore` and of `unlink` fails: these members do with assertions
what they do without.  `childType` asserts that its node is not the root, and
`replaceNode` that a node without a parent is, so it matters that the tree knows
its root (`Located`).
-/

namespace Garbage.RandomAccessList

open Foundation (Prog Side)
open Foundation.Prog
open Foundation.Zipper
open BinaryTree

variable {α : Type} {h : Heap α} {t u a b c l r v : BinaryTree Ptr} {fs : List (Frame Ptr)}
  {f : Frame Ptr} {p q new : Ptr} {side : Side} {s : Tree α}

theorem agrees_rounds {β γ : Type} {body body' : β → Prog (Tree α) Assertion (β ⊕ γ)}
    {I : β → Tree α → Prop}
    (hbody : ∀ b s, I b s → Agrees (body b) (body' b) s)
    (hnext : ∀ b s, I b s → wp (body' b) (fun r s' =>
      match r with
      | .inl b' => I b' s'
      | .inr _ => True) (fun _ _ => True) s)
    {start : β} (hI : I start s) : Agrees (rounds body start) (rounds body' start) s :=
  Agrees.loop hbody hnext (s.heap.live.length + 1) start s hI

/-- The tree has the subtree `t` below the frames `fs`, and knows its root. -/
structure Located (s : Tree α) (fs : List (Frame Ptr)) (t : BinaryTree Ptr) : Prop where
  place : Place s.heap fs t
  root : s.stump.root = root? (plug fs t)

theorem Rep.located (hR : Rep s (plug fs t)) : Located s fs t :=
  ⟨hR.settled.at_place.toPlace, hR.root⟩

theorem Located.up (hL : Located s (f :: fs) t) : Located s fs (f.plug t) :=
  ⟨place_cons.mp hL.place, hL.root⟩

theorem Located.root_ne (hL : Located s (f :: fs) t) (ht : root? t = some p) :
    s.stump.root ≠ some p := by
  intro he
  obtain ⟨key, hkey, hroot⟩ := exists_root?_plug_cons fs f t
  obtain rfl : key = p := Option.some.inj (hroot.symm.trans (hL.root.symm.trans he))
  exact (List.nodup_append'.mp hL.place.nodup).2.2 (mem_of_root? ht) hkey

theorem Located.root_ne_none (hL : Located s fs t) (ht : root? t = some p) :
    s.stump.root ≠ none := by
  rw [hL.root]
  cases fs with
  | nil =>
    rw [plug, ht]
    exact Option.some_ne_none p
  | cons f fs =>
    obtain ⟨key, -, hroot⟩ := exists_root?_plug_cons fs f t
    rw [hroot]
    exact Option.some_ne_none key

namespace AvlTreeStump.Asserted

/-! ### Rotations -/

theorem agrees_replaceSubnode (hc : LinkedCtx s.heap none fs (some p))
    (hlive : ∀ x ∈ keys fs, x ∈ s.heap.live) :
    Agrees (replaceSubnodeIfEqualToSuchAndNodeNotNull (above none fs) p q)
      (AvlTreeStump.replaceSubnodeIfEqualToSuchAndNodeNotNull (above none fs) p q) s := by
  cases fs with
  | nil => exact Agrees.refl _ s
  | cons f fs =>
    obtain ⟨side, key, sibling⟩ := f
    obtain ⟨-, hhole, -⟩ := hc
    have hkey : key ∈ s.heap.live := hlive key (by simp [keys])
    refine Agrees.after (wp_load.mpr ⟨hkey, ?_⟩)
    refine Agrees.ite (fun _ => Agrees.refl _ s) fun hleft => ?_
    refine Agrees.after (wp_load.mpr ⟨hkey, ?_⟩)
    refine Agrees.ite (fun _ => Agrees.refl _ s) fun hright => ?_
    cases side with
    | left => exact absurd hhole hleft
    | right => exact absurd hhole hright

theorem agrees_rotate (side : Side) (need : Bool)
    (hP : Place s.heap fs (join side p (join side q a b) c)) :
    Agrees (rotate side p need) (AvlTreeStump.rotate side p need) s := by
  obtain ⟨⟨hpq, -, hpb, -, hpf⟩, ⟨-, hqb, -, hqf⟩, -, ⟨-, hbf, -⟩, -⟩ := hP.distinct
  have hp : p ∈ s.heap.live := hP.live p (by simp)
  have hq : q ∈ s.heap.live := hP.live q (by simp)
  have hb : ∀ x ∈ inorder b, x ∈ s.heap.live := fun x hx => hP.live x (by simp [hx])
  have hf : ∀ x ∈ keys fs, x ∈ s.heap.live := fun x hx => hP.live x (by simp [hx])
  obtain ⟨hpar, hchild, -, hlq, -⟩ := linked_join.mp hP.linked
  obtain ⟨-, -, hinner, -, -⟩ := linked_join.mp hlq
  rw [root?_join] at hchild
  have hctx := hP.ctx
  rw [root?_join] at hctx
  unfold rotate AvlTreeStump.rotate
  refine Agrees.after (wp_load.mpr ⟨hp, ?_⟩)
  rw [hchild]
  refine Agrees.after (wp_load.mpr ⟨hq, ?_⟩)
  rw [hinner]
  refine Agrees.after (wp_store.mpr ⟨hq, ?_⟩)
  refine Agrees.after (wp_load.mpr ⟨hp, ?_⟩)
  rw [Heap.node_set_of_ne hpq, hpar]
  refine Agrees.after (wp_store.mpr ⟨hq, ?_⟩)
  refine Agrees.after (wp_store.mpr ⟨hp, ?_⟩)
  refine Agrees.after (wp_store.mpr ⟨hp, ?_⟩)
  refine Agrees.after (wp_storeIfNotNull hb ?_)
  -- none of the four nodes written so far is a frame
  refine Agrees.before (agrees_replaceSubnode (hctx.congr fun x hx => ?_) (by simpa using hf))
  have hxp : x ≠ p := fun he => hpf (he ▸ hx)
  have hxq : x ≠ q := fun he => hqf (he ▸ hx)
  have hxb : x ∉ inorder b := fun hm => hbf hm hx
  rw [Heap.node_setOpt_of_notMem hxb, Heap.node_set_of_ne hxp, Heap.node_set_of_ne hxp,
    Heap.node_set_of_ne hxq, Heap.node_set_of_ne hxq]

theorem agrees_checkAndRestoreBalanceOfLevel (hS : Settled s.heap fs t) (ht : root? t = some p) :
    Agrees (checkAndRestoreBalanceOfLevel p) (AvlTreeStump.checkAndRestoreBalanceOfLevel p) s := by
  cases t with
  | nil => cases ht
  | node p' l r =>
    obtain rfl : p' = p := Option.some.inj ht
    obtain ⟨-, hleft, hright, -⟩ := hS.linked
    obtain ⟨-, -, hcl, hcr⟩ := hS.counted
    have hp : p' ∈ s.heap.live := hS.live p' (by simp)
    refine Agrees.after (wp_load.mpr ⟨hp, ?_⟩)
    rw [hleft]
    refine Agrees.after (wp_nodeHeight hcl (fun x hx => hS.live x (by simp [hx])) ?_)
    refine Agrees.after (wp_load.mpr ⟨hp, ?_⟩)
    rw [hright]
    refine Agrees.after (wp_nodeHeight hcr (fun x hx => hS.live x (by simp [hx])) ?_)
    refine Agrees.ite (fun hl => ?_) fun _ => Agrees.ite (fun hr => ?_) fun _ => Agrees.refl _ s
    · have hne : l ≠ nil := by rintro rfl; exact absurd hl (by simp [height])
      obtain ⟨q, a, b, rfl⟩ := exists_join .left hne
      exact agrees_rotate .left true hS.toPlace
    · have hne : r ≠ nil := by rintro rfl; exact absurd hr (by simp [height])
      obtain ⟨q, a, b, rfl⟩ := exists_join .right hne
      exact agrees_rotate .right true hS.toPlace

/-- One level of the way up. -/
theorem agrees_level {γ : Type} {k : Ptr → Prog (Tree α) Assertion γ}
    (hS : Settled s.heap (f :: fs) t) :
    Agrees (do
        recalculateHeightAndSizeWithDataFromTwoChilds f.key
        let root ← checkAndRestoreBalanceOfLevel f.key
        k root)
      (do
        recalculateHeightAndSizeWithDataFromTwoChilds f.key
        let root ← AvlTreeStump.checkAndRestoreBalanceOfLevel f.key
        k root) s := by
  obtain ⟨hsib, hfs⟩ := countedCtx_cons.mp hS.siblings
  refine Agrees.after (wp_recalculate (place_cons.mp hS.toPlace) hS.counted hsib hfs ?_)
  intro h' _ hS'
  exact Agrees.before (agrees_checkAndRestoreBalanceOfLevel hS' (root?_plug_frame f t))

/-- **The way up** -/
theorem agrees_restoreHeightSizeAndBalanceOfTree (hS : Settled s.heap (f :: fs) t) :
    Agrees (restoreHeightSizeAndBalanceOfTree f.key)
      (AvlTreeStump.restoreHeightSizeAndBalanceOfTree f.key) s := by
  have hloop : Agrees (rounds (climb checkAndRestoreBalanceOfLevel) f.key)
      (rounds (climb AvlTreeStump.checkAndRestoreBalanceOfLevel) f.key) s := by
    refine agrees_rounds (I := fun x s' => ∃ (g : Frame Ptr) (gs : List (Frame Ptr))
      (u : BinaryTree Ptr), x = g.key ∧ Settled s'.heap (g :: gs) u) ?_ ?_ ⟨f, fs, t, rfl, hS⟩
    · rintro x s' ⟨g, gs, u, rfl, hS'⟩
      refine Agrees.after (wp_load.mpr ⟨hS'.live _ (by simp [keys]), ?_⟩)
      rw [hS'.ctx.1]
      cases gs with
      | nil => exact Agrees.refl _ s'
      | cons g' gs => exact agrees_level hS'
    · rintro x s' ⟨g, gs, u, rfl, hS'⟩
      cases gs with
      | nil =>
        unfold climb
        rw [wp_bind, wp_load, hS'.ctx.1]
        exact ⟨hS'.live _ (by simp [keys]), trivial⟩
      | cons g' gs =>
        refine (wp_climb hS').imp ?_
        rintro r s₂ ⟨rfl, -, hS₂, -⟩
        exact ⟨g', gs, _, rfl, hS₂⟩
  refine Agrees.bind hloop ((wp_climbs hS).imp ?_)
  rintro _ s' ⟨g, u, rfl, hS', -⟩
  exact agrees_level hS'

/-! ### Steps through the tree -/

theorem agrees_childType (hL : Located s (f :: fs) t) (ht : root? t = some p) :
    Agrees (childType p) (AvlTreeStump.childType p) s := by
  have hp : p ∈ s.heap.live := hL.place.live p (List.mem_append_left _ (mem_of_root? ht))
  have hf : f.key ∈ s.heap.live := hL.place.live f.key (by simp [keys])
  obtain ⟨-, hchild, -⟩ := hL.place.ctx
  unfold childType AvlTreeStump.childType
  refine Agrees.require (hL.root_ne ht) (Agrees.after (wp_load.mpr ⟨hp, ?_⟩))
  rw [hL.place.linked.parent ht]
  refine Agrees.after (wp_load.mpr ⟨hf, ?_⟩)
  by_cases hleft : (s.heap.node f.key).left = some p
  · rw [if_pos hleft, if_pos hleft]
    exact Agrees.refl _ s
  · rw [if_neg hleft, if_neg hleft]
    have hright : (s.heap.node f.key).right = some p := by
      obtain ⟨side, key, sibling⟩ := f
      cases side with
      | left => exact absurd (hchild.trans ht) hleft
      | right => exact hchild.trans ht
    exact Agrees.skip (wp_load.mpr ⟨hf, rfl, Agrees.require hright (Agrees.refl _ s)⟩)

/-- **A step to the next node** -/
theorem agrees_neighbor (side : Side) (hL : Located s fs (join side p u v)) :
    Agrees (neighbor side (some p)) (AvlTreeStump.neighbor side p) s := by
  have hp : p ∈ s.heap.live := hL.place.live p (by simp)
  obtain ⟨hpar, hchild, -⟩ := linked_join.mp hL.place.linked
  unfold neighbor AvlTreeStump.neighbor
  refine Agrees.require (hL.root_ne_none (root?_join ..)) (Agrees.require ?_ ?_)
  · cases fs with
    | nil => exact .inr (hL.root.trans (root?_join ..)).symm
    | cons f fs =>
      rw [hpar]
      exact .inl (Option.some_ne_none f.key)
  · refine Agrees.after (wp_load.mpr ⟨hp, ?_⟩)
    rw [hchild]
    cases u using induction_on_side side.flip with
    | hjoin k u₁ u₂ _ =>
      rw [root?_join]
      exact Agrees.refl _ s
    | hnil =>
      rw [root?_nil]
      refine Agrees.after (wp_load.mpr ⟨hp, ?_⟩)
      rw [hpar]
      cases fs with
      | nil => exact Agrees.refl _ s
      | cons f fs =>
        refine Agrees.bind (agrees_childType hL (root?_join ..)) ?_
        refine wp_childType hL.place (root?_join ..) ?_
        refine Agrees.ite (fun _ => Agrees.refl _ s) fun hflip => ?_
        have hside : f.side = side :=
          Side.flip_flip side ▸ Side.eq_flip_of_ne fun h => hflip h.symm
        refine Agrees.skip ((agrees_childType hL (root?_join ..)).wp
          (wp_childType hL.place (root?_join ..) ⟨rfl, Agrees.require hside ?_⟩))
        refine agrees_rounds (I := fun x s' => s' = s ∧ ∃ (gs : List (Frame Ptr))
          (w : BinaryTree Ptr), Located s gs w ∧ root? w = some x) ?_ ?_
          ⟨rfl, f :: fs, _, hL, root?_join ..⟩
        · rintro x s' ⟨rfl, gs, w, hL', hx⟩
          have hxlive := hL'.place.live x (List.mem_append_left _ (mem_of_root? hx))
          refine Agrees.after (wp_load.mpr ⟨hxlive, ?_⟩)
          rw [hL'.place.linked.parent hx]
          cases gs with
          | nil => exact Agrees.refl _ s'
          | cons g gs => exact Agrees.before (agrees_childType hL' hx)
        · rintro x s' ⟨rfl, gs, w, hL', hx⟩
          refine (AvlTreeStump.wp_climbRound side hL'.place hx).imp ?_
          rintro (parent | result) s₂ ⟨rfl, hround⟩
          · obtain ⟨g, gs, rfl, -, rfl⟩ := hround
            exact ⟨rfl, gs, g.plug w, hL'.up, root?_plug_frame g w⟩
          · exact trivial

/-! ### Deletion -/

theorem agrees_replaceNode (o : Option Ptr) (hL : Located s fs t) (ht : root? t = some p) :
    Agrees (replaceNode p o) (AvlTreeStump.replaceNode p o) s := by
  have hp : p ∈ s.heap.live := hL.place.live p (List.mem_append_left _ (mem_of_root? ht))
  refine Agrees.after (wp_load.mpr ⟨hp, ?_⟩)
  rw [hL.place.linked.parent ht]
  cases fs with
  | nil => exact Agrees.require (ht.symm.trans hL.root.symm) (Agrees.refl _ s)
  | cons f fs => exact Agrees.before (agrees_childType hL ht)

theorem agrees_takePlace (hL : Located s fs (node p l r)) :
    Agrees (takePlace p q) (AvlTreeStump.takePlace p q) s :=
  Agrees.before (agrees_replaceNode _ hL rfl)

/-- The left neighbor `q` of `p` leaves its place and takes over that of `p`. -/
theorem agrees_takeOver {c : List (Frame Ptr)} {lq : BinaryTree Ptr}
    (hR : Rep s (plug (c ++ ⟨.left, p, r⟩ :: fs) (node q lq nil))) :
    Agrees (takeOver p q) (AvlTreeStump.takeOver p q) s := by
  have hS : Settled s.heap (c ++ ⟨.left, p, r⟩ :: fs) (node q lq nil) := hR.settled.at_place
  have hq : q ∈ s.heap.live := hS.live q (by simp)
  have hlive : ∀ x ∈ inorder lq, x ∈ s.heap.live := fun x hx => hS.live x (by simp [hx])
  obtain ⟨hpar, hleft, -⟩ := hS.linked
  obtain ⟨hP₁, hq₁, -⟩ := hS.toPlace.without
  have hqlive : q ∈ (s.heap.replaced (c ++ ⟨.left, p, r⟩ :: fs) lq).live := by
    rw [Heap.replaced, Heap.live_setOpt, Heap.live_redirect]
    exact hq
  -- the node that goes is not the root
  have hstump : replacedStump s.stump (c ++ ⟨.left, p, r⟩ :: fs) lq = s.stump := by cases c <;> rfl
  have hL₁ : Located ⟨s.heap.replaced (c ++ ⟨.left, p, r⟩ :: fs) lq, s.stump⟩ fs
      (node p (plug c lq) r) := by
    refine ⟨hP₁, hR.root.trans ?_⟩
    rw [plug_append]
    exact root?_plug_congr fs rfl
  refine Agrees.after (wp_load.mpr ⟨hq, ?_⟩)
  refine Agrees.after (wp_load.mpr ⟨hq, ?_⟩)
  rw [hpar, hleft]
  refine Agrees.bind (agrees_replaceNode _ hR.located rfl)
    (wp_replaceNode hS.toPlace rfl hlive ?_)
  rw [hstump]
  refine Agrees.bind (agrees_takePlace hL₁) (wp_takePlace hP₁ hq₁ hqlive ?_)
  have hdone : ∀ g gs, c ++ ⟨.left, q, r⟩ :: fs = g :: gs →
      Agrees (restoreHeightSizeAndBalanceOfTree g.key)
        (AvlTreeStump.restoreHeightSizeAndBalanceOfTree g.key)
        ⟨(s.heap.replaced (c ++ ⟨.left, p, r⟩ :: fs) lq).takenOver fs q (plug c lq) r,
          replacedStump s.stump fs (node q nil nil)⟩ := by
    intro g gs hg
    exact agrees_restoreHeightSizeAndBalanceOfTree (hg ▸ hS.takenOver)
  cases c with
  | nil =>
    have habove : above none ([] ++ ⟨.left, p, r⟩ :: fs) = some p := rfl
    rw [if_pos habove, if_pos habove]
    exact hdone ⟨.left, q, r⟩ fs rfl
  | cons g gs =>
    have habove : above none (g :: gs ++ ⟨.left, p, r⟩ :: fs) ≠ some p :=
      fun he => hS.toPlace.key_ne (Option.some.inj he)
    rw [if_neg habove, if_neg habove]
    exact hdone g (gs ++ ⟨.left, q, r⟩ :: fs) rfl

/-- **`unlink`** -/
theorem agrees_unlink (hR : Rep s (plug fs (node p l r))) :
    Agrees (unlink p) (AvlTreeStump.unlink p) s := by
  have hS : Settled s.heap fs (node p l r) := hR.settled.at_place
  obtain ⟨-, hleft, hright, -⟩ := hS.linked
  have hp : p ∈ s.heap.live := hS.live p (by simp)
  have hlive_r : ∀ x ∈ inorder r, x ∈ s.heap.live := fun x hx => hS.live x (by simp [hx])
  refine Agrees.after (wp_load.mpr ⟨hp, ?_⟩)
  rw [hleft]
  cases l with
  | nil =>
    refine Agrees.after (wp_load.mpr ⟨hp, ?_⟩)
    refine Agrees.after (wp_load.mpr ⟨hp, ?_⟩)
    rw [hright, hS.linked.1]
    refine Agrees.bind (agrees_replaceNode _ hR.located rfl)
      (wp_replaceNode hS.toPlace rfl hlive_r ?_)
    cases fs with
    | nil => exact Agrees.refl _ _
    | cons f fs => exact agrees_restoreHeightSizeAndBalanceOfTree hS.spliced
  | node k a b =>
    rw [root?_node]
    refine Agrees.after (wp_findExtreme .right (hS.toPlace.child .left) ?_)
    rw [← plug_neighbor] at hR
    exact agrees_takeOver hR

/-! ### Insertion -/

/-- The end of `insertBefore`: the new node goes into an empty place. -/
theorem agrees_hang (hS : Settled s.heap (f :: fs) nil) (hnew : new ∉ keys (f :: fs))
    (hlive : new ∈ s.heap.live) (hi : s.heap.IsNew new) :
    Agrees (do
        store f.key (TAvlTreeNode.setChild f.side (some new))
        store new (TAvlTreeNode.setParent (some f.key))
        restoreHeightSizeAndBalanceOfTree f.key
        require .insertBefore fun this => this.stump.root ≠ none
        pure new)
      (do
        store f.key (TAvlTreeNode.setChild f.side (some new))
        store new (TAvlTreeNode.setParent (some f.key))
        AvlTreeStump.restoreHeightSizeAndBalanceOfTree f.key
        pure new) s := by
  have hS' := hS.hang hnew hlive hi
  refine Agrees.after (wp_store.mpr ⟨hS.live _ (by simp [keys]), ?_⟩)
  refine Agrees.after (wp_store.mpr ⟨hlive, ?_⟩)
  refine Agrees.bind (agrees_restoreHeightSizeAndBalanceOfTree hS')
    ((wp_restoreHeightSizeAndBalanceOfTree hS').imp ?_)
  rintro _ s' ⟨hR, -⟩
  refine Agrees.require ?_ (Agrees.refl _ s')
  rw [hR.root, ne_eq, root?_eq_none]
  intro hnil
  have hnew' : new ∈ inorder (up (f :: fs) (node new nil nil)) := by
    rw [inorder_up]
    simp
  rw [hnil] at hnew'
  cases hnew'

theorem agrees_insertBefore_reset {it : Option Ptr} (hlive : new ∈ s.heap.live)
    (hs : (s.heap.node new).size = 1) (hh : (s.heap.node new).height = 1)
    (hlink : Agrees (link it new) (AvlTreeStump.link it new)
      { heap := s.heap.resetNew new, stump := s.stump.inserted it new }) :
    Agrees (insertBefore it new) (AvlTreeStump.insertBefore it new) s := by
  refine Agrees.require hs (Agrees.require hh ?_)
  refine Agrees.after (wp_store.mpr ⟨hlive, ?_⟩)
  refine Agrees.after (wp_store.mpr ⟨hlive, ?_⟩)
  refine Agrees.after (wp_store.mpr ⟨hlive, ?_⟩)
  refine Agrees.after (wp_store.mpr ⟨hlive, ?_⟩)
  refine Agrees.after (wp_get.mpr ?_)
  rw [AvlTreeStump.inserted] at hlink
  refine Agrees.ite (fun hit => ?_) fun hit => ?_
  · rw [if_pos hit] at hlink
    refine Agrees.after ?_
    rw [wp_setStump]
    exact hlink
  · rw [if_neg hit] at hlink
    exact hlink

/-- **`insert_before`** of a node with the numbers of a new one. -/
theorem agrees_insertBefore (hR : Rep s (plug fs (node p l r)))
    (hnew : new ∉ inorder (plug fs (node p l r))) (hlive : new ∈ s.heap.live)
    (hs : (s.heap.node new).size = 1) (hh : (s.heap.node new).height = 1) :
    Agrees (insertBefore (some p) new) (AvlTreeStump.insertBefore (some p) new) s := by
  refine agrees_insertBefore_reset hlive hs hh ?_
  obtain ⟨hplace, hgap, hkeys⟩ := hR.settled.gap hnew edits_resetNew
  obtain ⟨-, hleft, -⟩ := hplace.linked
  have hhang := fun f gs (hf : gap fs p l r = f :: gs) => agrees_hang
    (s := { heap := s.heap.resetNew new, stump := s.stump.inserted (some p) new })
    (show Settled (s.heap.resetNew new) (f :: gs) nil from hf ▸ hgap)
    (fun hm => hnew (hkeys new (hf ▸ hm))) hlive isNew_resetNew
  refine Agrees.after (wp_get.mpr (Agrees.require ?_ ?_))
  · rw [root_inserted]
    exact hR.located.root_ne_none (t := node p l r) rfl
  · refine Agrees.after (wp_load.mpr ⟨hplace.live p (by simp), ?_⟩)
    rw [hleft]
    cases l with
    | nil => exact hhang ⟨.left, p, r⟩ fs rfl
    | node k a b =>
      rw [root?_node]
      refine Agrees.after (wp_findExtreme .right (hplace.toPlace.child .left) ?_)
      exact hhang _ _ rfl

theorem agrees_insertBefore_first (hroot : s.stump.root = none) (hlive : new ∈ s.heap.live)
    (hs : (s.heap.node new).size = 1) (hh : (s.heap.node new).height = 1) :
    Agrees (insertBefore none new) (AvlTreeStump.insertBefore none new) s := by
  refine agrees_insertBefore_reset hlive hs hh (Agrees.after (wp_get.mpr ?_))
  rw [root_inserted, hroot]
  refine Agrees.after (wp_setStump.mpr (Agrees.after (wp_store.mpr ⟨hlive, ?_⟩)))
  exact Agrees.require (Option.some_ne_none new) (Agrees.refl _ _)

end AvlTreeStump.Asserted

end Garbage.RandomAccessList
