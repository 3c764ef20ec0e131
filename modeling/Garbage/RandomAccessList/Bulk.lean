import Garbage.RandomAccessList.Contents

/-!
# Many nodes at once

The loops of the list and `Holds`.  `deleteUpTo` and `moveNodesRange` take the
elements `cm` out of `ca ++ cm ++ cb`, the first with their nodes destroyed, the
second with their nodes kept and reset.  `makeNodes` makes nodes that can be put
in, and `resetInvariant` an empty tree of the two gap nodes.
-/

namespace Garbage.RandomAccessList

open Foundation (Prog Side)
open Foundation.Prog
open Foundation.Zipper
open BinaryTree

variable {α ε : Type} {h h' : Heap α} {p new : Ptr} {v : α} {cells ca cb cm news : List (Cell α)}

/-- Nodes outside a tree that can be put into it. -/
structure Loose (h : Heap α) (news : List (Cell α)) : Prop where
  nodup : (nodes news).Nodup
  live : ∀ c ∈ news, c.1 ∈ h.live
  values : ∀ c ∈ news, (h.node c.1).value = some c.2

theorem Loose.perm {news' : List (Cell α)} (hperm : news'.Perm news) (hL : Loose h news) :
    Loose h news' :=
  ⟨(hperm.map Prod.fst).nodup_iff.mpr hL.nodup, fun c hc => hL.live c (hperm.mem_iff.mp hc),
    fun c hc => hL.values c (hperm.mem_iff.mp hc)⟩

/-- The nodes count only themselves, as new nodes do. -/
def CountOne (h : Heap α) (ps : List Ptr) : Prop :=
  ∀ p ∈ ps, (h.node p).size = 1 ∧ (h.node p).height = 1

theorem SameEnds.trans {st st' st'' : AvlTreeStump} (h : SameEnds st st') (h' : SameEnds st' st'') :
    SameEnds st st'' := ⟨h'.1.trans h.1, h'.2.trans h.2⟩

theorem SameEnds.own_eq {st st' : AvlTreeStump} (h : SameEnds st st') (cells : List (Cell α)) :
    own st' cells = own st cells := by
  rw [own, own, h.1, h.2]

theorem own_subset {st : AvlTreeStump} {cells' : List (Cell α)} (h : cells' ⊆ cells) :
    own st cells' ⊆ own st cells := by
  refine List.cons_subset_cons _ (List.append_subset.mpr ⟨fun x hx => ?_, ?_⟩)
  · exact List.mem_append_left _ (List.map_subset _ h hx)
  · exact List.subset_append_right _ _

namespace Holds

variable {s : Tree α}

theorem length_le (hH : Holds s cells) : cells.length ≤ s.heap.live.length := by
  have hlen := (List.subperm_of_subset hH.nodup hH.live).length_le
  simp only [own, nodes, List.length_cons, List.length_append, List.length_map] at hlen
  omega

theorem apart {s : Tree α} (hH : Holds s cells) :
    ∀ x ∈ nodes cells, x ∉ own s.stump ([] : List (Cell α)) := by
  intro x hx hm
  have hn := hH.nodup
  rw [own, List.nodup_cons, List.nodup_append'] at hn
  obtain ⟨hb, -, -, hdis⟩ := hn
  rcases List.mem_cons.mp hm with rfl | hm
  · exact hb (List.mem_append_left _ hx)
  · exact hdis hx hm

theorem startOf_ne {c : Cell α} (hH : Holds s (ca ++ (c :: cm) ++ cb)) :
    c.1 ≠ startOf s.stump.end_ cb := by
  have hn := (List.nodup_cons.mp hH.nodup).2
  obtain ⟨ys, hys⟩ := nodes_append_end s.stump.end_ cb
  rw [nodes_append, nodes_append, nodes_cons, List.append_assoc, List.append_assoc, hys] at hn
  have hc := (List.nodup_cons.mp hn.of_append_right).1
  intro he
  exact hc (by rw [he]; simp)

end Holds

namespace AvlTreeStump

variable {E : ε → Tree α → Prop} {s : Tree α}

/-! ### Deleting and moving a range -/

/-- What deleting the node of one element does. -/
def Deletes (deleteAndGetNext : Option Ptr → Prog (Tree α) ε (Option Ptr)) : Prop :=
  ∀ {s : Tree α} {ca cb : List (Cell α)} {p : Ptr} {v : α} {E : ε → Tree α → Prop},
    Holds s (ca ++ (p, v) :: cb) → wp (deleteAndGetNext (some p)) (fun x s' =>
      x = some (startOf s.stump.end_ cb) ∧ Holds s' (ca ++ cb) ∧ SameEnds s.stump s'.stump ∧
      Outside (own s.stump (ca ++ (p, v) :: cb)) s.heap s'.heap) E s

theorem deletes_deleteAndGetNext :
    Deletes (α := α) (ε := ε) (deleteAndGetNext · true true) := by
  intro s ca cb p v E hH
  exact wp_deleteAndGetNext hH (wp_delete_destroy hH)

/-- A round of a deletion up to `last`. -/
def deleteRound (deleteAndGetNext : Option Ptr → Prog (Tree α) ε (Option Ptr)) (last : Ptr)
    (it : Option Ptr) : Prog (Tree α) ε (Option Ptr ⊕ PUnit) :=
  if it = some last then pure (.inr PUnit.unit)
  else do
    let next ← deleteAndGetNext it
    pure (.inl next)

variable {d : Option Ptr → Prog (Tree α) ε (Option Ptr)}

/-- `R` follows the deletions: it is told which elements were deleted so far. -/
def Tracks (d : Option Ptr → Prog (Tree α) ε (Option Ptr)) (R : List (Cell α) → Tree α → Prop)
    (E : ε → Tree α → Prop) : Prop :=
  ∀ (gone : List (Cell α)) {s : Tree α} {ca cb : List (Cell α)} {p : Ptr} {v : α},
    Holds s (ca ++ (p, v) :: cb) → R gone s →
    wp (d (some p)) (fun _ s' => R (gone ++ [(p, v)]) s') E s

theorem tracks_true (hD : Deletes d) : Tracks d (fun _ _ => True) E :=
  fun _ _ _ _ _ _ hH _ => (hD hH).imp fun _ _ _ => trivial

/-- **The elements of a range are deleted**, and what follows the deletions is
told so. -/
theorem wp_deletes_tracking (hD : Deletes d) {R : List (Cell α) → Tree α → Prop}
    (hT : Tracks d R E) (hH : Holds s (ca ++ cm ++ cb)) (hR : R [] s) :
    wp (rounds (deleteRound d (startOf s.stump.end_ cb)) (some (startOf s.stump.end_ (cm ++ cb))))
      (fun _ s' => Holds s' (ca ++ cb) ∧ SameEnds s.stump s'.stump ∧
        Outside (own s.stump (ca ++ cm ++ cb)) s.heap s'.heap ∧ R cm s') E s := by
  refine wp_rounds (I := fun n it s' => ∃ gone rest : List (Cell α), cm = gone ++ rest ∧
    n = rest.length ∧ it = some (startOf s.stump.end_ (rest ++ cb)) ∧ Holds s' (ca ++ rest ++ cb) ∧
    SameEnds s.stump s'.stump ∧ Outside (own s.stump (ca ++ cm ++ cb)) s.heap s'.heap ∧
    R gone s') ?_ cm.length ⟨[], cm, rfl, rfl, rfl, hH, ⟨rfl, rfl⟩, Outside.refl _ _, hR⟩ ?_
  · rintro n it s' ⟨gone, rest, rfl, rfl, rfl, hH', hends, hout, hR'⟩
    unfold deleteRound
    cases rest with
    | nil =>
      rw [List.nil_append, if_pos rfl, wp_pure, List.append_nil]
      rw [List.append_nil] at hH' hout
      exact ⟨hH', hends, hout, hR'⟩
    | cons c rest =>
      have hne : some (startOf s.stump.end_ (c :: rest ++ cb)) ≠ some (startOf s.stump.end_ cb) :=
        fun he => hH'.startOf_ne ((Option.some.inj he).trans (by rw [hends.2]))
      have hH₁ : Holds s' (ca ++ (c.1, c.2) :: (rest ++ cb)) := by simpa using hH'
      rw [if_neg hne, wp_bind]
      refine ((hD hH₁).and (hT gone hH₁ hR')).imp ?_
      rintro x s'' ⟨⟨rfl, hH₂, hends', hout'⟩, hR''⟩
      rw [wp_pure]
      refine ⟨rest.length, Nat.lt_succ_self _, gone ++ [c], rest, by simp, rfl, by rw [hends.2],
        by simpa using hH₂, hends.trans hends', hout.trans (hout'.mono ?_), hR''⟩
      rw [hends.own_eq]
      refine own_subset fun x hx => ?_
      simp only [List.mem_append, List.mem_cons] at hx ⊢
      tauto
  · have := hH.length_le
    simp only [List.length_append] at this
    omega

theorem wp_deletes (hD : Deletes d) (hH : Holds s (ca ++ cm ++ cb)) :
    wp (rounds (deleteRound d (startOf s.stump.end_ cb)) (some (startOf s.stump.end_ (cm ++ cb))))
      (fun _ s' => Holds s' (ca ++ cb) ∧ SameEnds s.stump s'.stump ∧
        Outside (own s.stump (ca ++ cm ++ cb)) s.heap s'.heap) E s :=
  (wp_deletes_tracking hD (R := fun _ _ => True) (tracks_true hD) hH trivial).imp
    fun _ _ ⟨hH', hends, hout, _⟩ => ⟨hH', hends, hout⟩

theorem wp_deleteAll (hD : Deletes d) (hH : Holds s cells) :
    wp (do
      let this ← Prog.get
      rounds (deleteRound d this.stump.end_) this.stump.begin_)
      (fun _ s' => Holds s' [] ∧ SameEnds s.stump s'.stump ∧
        Outside (own s.stump cells) s.heap s'.heap) E s := by
  rw [wp_bind, wp_get, hH.begin_]
  have hH₀ : Holds s ([] ++ cells ++ []) := by simpa using hH
  have hdelete := wp_deletes (E := E) hD hH₀
  rwa [List.append_nil, List.nil_append, List.append_nil] at hdelete

/-- The list holds `cells`, and the nodes of `gone` are out of it and reset. -/
structure Removed (s : Tree α) (cells gone : List (Cell α)) : Prop where
  holds : Holds s cells
  apart : ∀ p ∈ nodes gone, p ∉ own s.stump cells
  counts : CountOne s.heap (nodes gone)

theorem Removed.next {s' : Tree α} {gone : List (Cell α)} {c : Cell α}
    (hM : Removed s (ca ++ c :: cb) gone) (hH : Holds s' (ca ++ cb))
    (hends : SameEnds s.stump s'.stump) (he : Edits (own s.stump (ca ++ c :: cb)) s.heap s'.heap) :
    Removed ⟨s'.heap.set c.1 TAvlTreeNode.resetInvariant, s'.stump⟩ (ca ++ cb) (gone ++ [c]) := by
  have hc : c.1 ∈ own s.stump (ca ++ c :: cb) := fst_mem_own _ (by simp)
  have hout : c.1 ∉ own s'.stump (ca ++ cb) := by
    rw [hends.own_eq]
    exact (List.nodup_cons.mp ((own_perm s.stump ca c cb).nodup_iff.mp hM.holds.nodup)).1
  have hset : ∀ x, x ≠ c.1 → (s'.heap.set c.1 TAvlTreeNode.resetInvariant).node x =
      s'.heap.node x := fun x hx => Heap.node_set_of_ne hx _ _
  refine ⟨hH.congr fun x hx => ⟨hH.live x hx, hset x fun he => hout (he ▸ hx)⟩,
    fun x hx => ?_, fun x hx => ?_⟩
  · rw [nodes_append, List.mem_append] at hx
    rcases hx with hx | hx
    · intro hm
      rw [hends.own_eq] at hm
      refine hM.apart x hx (own_subset (fun y hy => ?_) hm)
      simp only [List.mem_append, List.mem_cons] at hy ⊢
      tauto
    · rw [show x = c.1 from List.mem_singleton.mp hx]
      exact hout
  · rw [nodes_append, List.mem_append] at hx
    rcases hx with hx | hx
    · have hx' := hM.apart x hx
      show ((s'.heap.set c.1 TAvlTreeNode.resetInvariant).node x).size = 1 ∧ _
      rw [hset x fun he => hx' (he ▸ hc), he.node x hx']
      exact hM.counts x hx
    · rw [show x = c.1 from List.mem_singleton.mp hx]
      show ((s'.heap.set c.1 TAvlTreeNode.resetInvariant).node c.1).size = 1 ∧ _
      rw [Heap.node_set_self]
      exact ⟨rfl, rfl⟩

theorem wp_moveNodesRange (hH : Holds s (ca ++ cm ++ cb)) :
    wp (moveNodesRange (startOf s.stump.end_ (cm ++ cb)) (startOf s.stump.end_ cb))
      (fun x s' => x = nodes cm ∧ Holds s' (ca ++ cb) ∧ SameEnds s.stump s'.stump ∧
        Edits (own s.stump (ca ++ cm ++ cb)) s.heap s'.heap ∧ CountOne s'.heap (nodes cm)) E s := by
  unfold moveNodesRange
  refine wp_rounds (I := fun n it s' => ∃ gone rest : List (Cell α), cm = gone ++ rest ∧
    n = rest.length ∧ it = (some (startOf s.stump.end_ (rest ++ cb)), nodes gone) ∧
    Removed s' (ca ++ (rest ++ cb)) gone ∧ SameEnds s.stump s'.stump ∧
    Edits (own s.stump (ca ++ cm ++ cb)) s.heap s'.heap) ?_ cm.length
    ⟨[], cm, rfl, rfl, rfl, ⟨by rwa [← List.append_assoc], by simp, by simp [CountOne]⟩,
      ⟨rfl, rfl⟩, Edits.refl _ _⟩ ?_
  · rintro n it s' ⟨gone, rest, rfl, rfl, rfl, hM, hends, he⟩
    cases rest with
    | nil =>
      rw [List.nil_append, if_pos rfl, wp_pure, List.append_nil]
      rw [List.append_nil] at he
      exact ⟨rfl, hM.holds, hends, he, hM.counts⟩
    | cons c rest =>
      have hH₁ : Holds s' (ca ++ (c.1, c.2) :: (rest ++ cb)) := hM.holds
      have hne : some (startOf s.stump.end_ (c :: rest ++ cb)) ≠ some (startOf s.stump.end_ cb) :=
        fun he => (show Holds s' (ca ++ (c :: rest) ++ cb) by simpa using hH₁).startOf_ne
          ((Option.some.inj he).trans (by rw [hends.2]))
      have hsub : own s'.stump (ca ++ (c.1, c.2) :: (rest ++ cb)) ⊆
          own s.stump (ca ++ (gone ++ c :: rest) ++ cb) := by
        rw [hends.own_eq]
        refine own_subset fun x hx => ?_
        simp only [List.mem_append, List.mem_cons] at hx ⊢
        tauto
      rw [if_neg hne]
      show wp (do
        let current ← deleteAndGetNext (some c.1) false true
        _) _ E s'
      rw [wp_bind]
      refine (wp_deleteAndGetNext hH₁ (wp_delete_keep hH₁ true)).imp ?_
      rintro x s'' ⟨rfl, hH₂, hends', he'⟩
      rw [wp_bind, wp_store]
      refine ⟨he'.live ▸ hH₁.live c.1 (fst_mem_own _ (by simp)), ?_⟩
      rw [wp_pure]
      refine ⟨rest.length, Nat.lt_succ_self _, gone ++ [c], rest, by simp, rfl, ?_,
        hM.next hH₂ hends' he', hends.trans hends',
        (he.trans (he'.mono hsub)).set (fun _ => rfl) ?_⟩
      · rw [hends.2]
        simp
      · exact hsub (fst_mem_own _ (by simp))
  · have := hH.length_le
    simp only [List.length_append] at this
    omega

/-! ### The empty tree -/

theorem wp_resetInvariant (hne : s.stump.beforeBegin ≠ s.stump.end_)
    (hb : s.stump.beforeBegin ∈ s.heap.live) (hend : s.stump.end_ ∈ s.heap.live) :
    wp resetInvariant (fun _ s' => Holds s' [] ∧ SameEnds s.stump s'.stump ∧
      Edits (own s.stump ([] : List (Cell α))) s.heap s'.heap) E s := by
  have he₀ : Edits (own s.stump ([] : List (Cell α))) s.heap ((s.heap.set s.stump.beforeBegin
      TAvlTreeNode.resetInvariant).set s.stump.end_ TAvlTreeNode.resetInvariant) := by
    refine Edits.set (fun _ => rfl) ?_ (Edits.set (fun _ => rfl) ?_ (Edits.refl _ _)) <;>
      simp [own]
  unfold resetInvariant
  rw [wp_bind, wp_get, wp_bind, wp_store]
  refine ⟨hb, ?_⟩
  rw [wp_bind, wp_store]
  refine ⟨hend, ?_⟩
  dsimp only
  generalize (s.heap.set s.stump.beforeBegin TAvlTreeNode.resetInvariant).set s.stump.end_
    TAvlTreeNode.resetInvariant = h₀ at he₀
  have hb₀ : s.stump.beforeBegin ∈ h₀.live := he₀.live ▸ hb
  have hend₀ : s.stump.end_ ∈ h₀.live := he₀.live ▸ hend
  rw [wp_bind, wp_setStump, wp_bind]
  refine wp_insertBefore_first rfl hend₀ ?_
  rw [wp_bind]
  -- the end is the root
  have hR := rep_single (inserted none s.stump.end_ (s.stump.setRoot none)) isNew_resetNew hend₀
  refine (wp_insertBefore hR (by simpa [plug] using hne) hb₀).imp ?_
  rintro x s' ⟨rfl, hR', hst, he'⟩
  rw [wp_setStump]
  have hends : SameEnds s.stump s'.stump := by
    rw [hst, inserted, inserted]
    split <;> split <;> exact ⟨rfl, rfl⟩
  refine ⟨⟨⟨_, ⟨hR'.settled, hR'.root⟩, ?_⟩, ?_, fun c hc => by cases hc⟩, hends, ?_⟩
  · rw [inorder_up_gap, own]
    show _ = s'.stump.beforeBegin :: ([] ++ [s'.stump.end_])
    rw [hends.1, hends.2]
    rfl
  · exact congrArg some hends.2.symm
  · have he₁ : Edits (own s.stump ([] : List (Cell α))) h₀ ((h₀.resetNew s.stump.end_).set
        s.stump.end_ (TAvlTreeNode.setParent none)) :=
      Edits.set (fun _ => rfl) (by simp [own]) (edits_resetNew.mono (by simp [own]))
    exact he₀.trans (he₁.trans (he'.mono (by simp [own, plug])))

/-! ### Making and destroying -/

theorem wp_makeNode (alloc : Allocator) (v : α) :
    wp (makeNode alloc v) (fun p s' => p ∉ s.heap.live ∧ p ∈ s'.heap.live ∧
      (s'.heap.node p).value = some v ∧ CountOne s'.heap [p] ∧ Outside [] s.heap s'.heap ∧
      s'.stump = s.stump) E s := by
  unfold makeNode
  rw [wp_allocate]
  have hfresh := alloc.fresh s.heap.allocations s.heap.live
  refine ⟨hfresh, List.mem_cons_self, ?_, fun x hx => ?_, fun x hx _ => ?_, rfl⟩
  · exact congrArg TAvlTreeNode.value (if_pos rfl)
  · rw [List.mem_singleton.mp hx]
    exact ⟨congrArg TAvlTreeNode.size (if_pos rfl), congrArg TAvlTreeNode.height (if_pos rfl)⟩
  · have hne : x ≠ alloc.pick s.heap.allocations s.heap.live := fun he => hfresh (he ▸ hx)
    exact ⟨List.mem_cons_of_mem _ hx, if_neg hne⟩

theorem wp_makeNodes (alloc : Allocator) (vs : List α) : ∀ {s : Tree α},
    wp (makeNodes alloc vs) (fun x s' => ∃ news : List (Cell α), x = nodes news ∧
      news.map Prod.snd = vs ∧ Loose s'.heap news ∧ CountOne s'.heap (nodes news) ∧
      (∀ c ∈ news, c.1 ∉ s.heap.live) ∧ Outside [] s.heap s'.heap ∧ s'.stump = s.stump) E s := by
  induction vs with
  | nil =>
    intro s
    show wp (pure []) _ E s
    rw [wp_pure]
    exact ⟨[], rfl, rfl, ⟨List.nodup_nil, by simp, by simp⟩, by simp [CountOne], by simp,
      Outside.refl _ _, rfl⟩
  | cons v vs ih =>
    intro s
    show wp (do
      let node ← makeNode alloc v
      let nodes ← makeNodes alloc vs
      pure (node :: nodes)) _ E s
    rw [wp_bind]
    refine (wp_makeNode alloc v).imp ?_
    rintro p s' ⟨hp, hlive, hv, hone, hout, hst⟩
    rw [wp_bind]
    refine ih.imp ?_
    rintro x s'' ⟨news, rfl, rfl, hL, hone', hnew, hout', hst'⟩
    rw [wp_pure]
    obtain ⟨hlive', hnode⟩ := hout' p hlive (by simp)
    refine ⟨(p, v) :: news, rfl, rfl, ⟨?_, ?_, ?_⟩, fun x hx => ?_, ?_, hout.trans hout',
      hst'.trans hst⟩
    · refine List.nodup_cons.mpr ⟨fun hm => ?_, hL.nodup⟩
      obtain ⟨c, hc, he⟩ := List.mem_map.mp hm
      exact hnew c hc (he ▸ hlive)
    · intro c hc
      rcases List.mem_cons.mp hc with rfl | hc
      · exact hlive'
      · exact hL.live c hc
    · intro c hc
      rcases List.mem_cons.mp hc with rfl | hc
      · exact (congrArg TAvlTreeNode.value hnode).trans hv
      · exact hL.values c hc
    · rcases List.mem_cons.mp hx with rfl | hx
      · rw [hnode]
        exact hone _ (List.mem_singleton.mpr rfl)
      · exact hone' x hx
    · intro c hc
      rcases List.mem_cons.mp hc with rfl | hc
      · exact hp
      · exact fun hm => hnew c hc (hout c.1 hm (by simp)).1

/-- **A new list is empty**, and its gap nodes are new. -/
theorem wp_construct (alloc : Allocator) :
    wp (construct alloc) (fun _ s' => Holds s' [] ∧
      (∀ x ∈ own s'.stump ([] : List (Cell α)), x ∉ s.heap.live) ∧
      Outside [] s.heap s'.heap) E s := by
  unfold construct
  rw [wp_bind, wp_allocate, wp_bind, wp_allocate, wp_bind, wp_setStump]
  have hb := alloc.fresh s.heap.allocations s.heap.live
  generalize alloc.pick s.heap.allocations s.heap.live = b at hb
  have hend := alloc.fresh (s.heap.add b (TAvlTreeNode.make none)).allocations
    (s.heap.add b (TAvlTreeNode.make none)).live
  dsimp only
  generalize alloc.pick (s.heap.add b (TAvlTreeNode.make none)).allocations
    (s.heap.add b (TAvlTreeNode.make none)).live = e at hend
  have hbe : b ≠ e := fun he => hend (show e ∈ b :: s.heap.live by simp [he])
  have he : e ∉ s.heap.live := fun hm => hend (List.mem_cons_of_mem _ hm)
  refine (wp_resetInvariant hbe (List.mem_cons_of_mem _ List.mem_cons_self)
    List.mem_cons_self).imp ?_
  rintro _ s' ⟨hH, hends, hedits⟩
  refine ⟨hH, fun x hx => ?_, fun x hx _ => ?_⟩
  · rw [hends.own_eq] at hx
    rcases List.mem_cons.mp hx with rfl | hx
    · exact hb
    · rw [List.mem_singleton.mp hx]
      exact he
  · have hxb : x ≠ b := fun h => hb (h ▸ hx)
    have hxe : x ≠ e := fun h => he (h ▸ hx)
    have hout := hedits.outside x (List.mem_cons_of_mem _ (List.mem_cons_of_mem _ hx))
      (by simp [own, hxb, hxe])
    refine ⟨hout.1, hout.2.trans ?_⟩
    exact (if_neg hxe).trans (if_neg hxb)

theorem wp_deallocateGaps (hH : Holds s ([] : List (Cell α))) :
    wp (do
      let this ← Prog.get
      deallocate this.stump.beforeBegin
      deallocate this.stump.end_)
      (fun _ s' => Outside (own s.stump ([] : List (Cell α))) s.heap s'.heap) E s := by
  have hb : s.stump.beforeBegin ∈ s.heap.live := hH.live _ (by simp [own])
  have hend : s.stump.end_ ∈ s.heap.live := hH.live _ (by simp [own])
  have hne : s.stump.end_ ≠ s.stump.beforeBegin := by
    have hn := hH.nodup
    rw [own, List.nodup_cons] at hn
    exact fun he => hn.1 (by simp [he])
  rw [wp_bind, wp_get, wp_bind, wp_deallocate]
  refine ⟨hb, ?_⟩
  rw [wp_deallocate]
  refine ⟨(List.mem_erase_of_ne hne).mpr hend, fun x hx hS => ?_⟩
  have hxb : x ≠ s.stump.beforeBegin := fun he => hS (by simp [own, he])
  have hxe : x ≠ s.stump.end_ := fun he => hS (by simp [own, he])
  exact ⟨(List.mem_erase_of_ne hxe).mpr ((List.mem_erase_of_ne hxb).mpr hx), rfl⟩

theorem wp_destroyAll (hD : Deletes d) (hH : Holds s cells) :
    wp (do
      (do
        let this ← Prog.get
        rounds (deleteRound d this.stump.end_) this.stump.begin_)
      let this ← Prog.get
      deallocate this.stump.beforeBegin
      deallocate this.stump.end_)
      (fun _ s' => Outside (own s.stump cells) s.heap s'.heap) E s := by
  rw [wp_bind]
  refine (wp_deleteAll hD hH).imp ?_
  rintro _ s' ⟨hH', hends, hout⟩
  refine (wp_deallocateGaps hH').imp ?_
  intro _ s'' hout'
  refine hout.trans (hout'.mono ?_)
  rw [hends.own_eq]
  exact own_subset (List.nil_subset _)

theorem wp_destructValues (hH : Holds s cells) :
    wp destructValueAndDeleteNodeSinceBeginToBeforeEnd (fun _ s' => Holds s' [] ∧
      SameEnds s.stump s'.stump ∧ Outside (own s.stump cells) s.heap s'.heap) E s :=
  wp_deleteAll deletes_deleteAndGetNext hH

theorem wp_destruct (hH : Holds s cells) :
    wp destruct (fun _ s' => Outside (own s.stump cells) s.heap s'.heap) E s :=
  wp_destroyAll deletes_deleteAndGetNext hH

end AvlTreeStump

end Garbage.RandomAccessList
