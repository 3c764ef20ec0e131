import Garbage.RandomAccessList.Destruction

/-!
# A memory with some nodes more

`Grown S h h'`: the memory `h'` is `h` with the new nodes `S`.  All nodes of `h`
are as they were, and of what was made and unmade on the way nothing is left: it is
not allocated and holds no value.  So `Grown []` is a complete rollback.

Both halves of a program that makes nodes and unmakes them again are steps of this
relation: allocate a node, write to a new one, deallocate a new one.  `Made news`
is `Grown` for the nodes of a bulk insertion before they are put in.
-/

namespace Garbage.RandomAccessList

open Foundation (Prog)
open Foundation.Prog

variable {α ε : Type} {h h' h'' : Heap α} {S S' : List Ptr} {p : Ptr} {cells news : List (Cell α)}
  {stump : AvlTreeStump}

/-- The memory `h'` is `h` with the new nodes `S`. -/
structure Grown (S : List Ptr) (h h' : Heap α) : Prop where
  live : h'.live.Perm (S ++ h.live)
  fresh : ∀ x ∈ S, x ∉ h.live
  node : ∀ x ∈ h.live, h'.node x = h.node x
  value : ∀ x, x ∉ h.live → x ∉ S →
    (h'.node x).value = (h.node x).value ∨ (h'.node x).value = none

namespace Grown

theorem refl (h : Heap α) : Grown [] h h :=
  ⟨List.Perm.refl _, fun _ hx => (nomatch hx), fun _ _ => rfl, fun _ _ _ => .inl rfl⟩

theorem mem_live (hG : Grown S h h') {x : Ptr} : x ∈ h'.live ↔ x ∈ S ∨ x ∈ h.live := by
  rw [hG.live.mem_iff, List.mem_append]

theorem perm (hG : Grown S h h') (hS : S.Perm S') : Grown S' h h' :=
  ⟨hG.live.trans (hS.append_right _), fun x hx => hG.fresh x (hS.mem_iff.mpr hx), hG.node,
    fun x hx hxS => hG.value x hx fun hm => hxS (hS.mem_iff.mp hm)⟩

theorem trans (hG : Grown S h h') (hG' : Grown S' h' h'') : Grown (S' ++ S) h h'' := by
  refine ⟨?_, fun x hx => ?_, fun x hx => ?_, fun x hx hxS => ?_⟩
  · rw [List.append_assoc]
    exact hG'.live.trans (hG.live.append_left _)
  · rcases List.mem_append.mp hx with hx | hx
    · exact fun hm => hG'.fresh x hx (hG.mem_live.mpr (.inr hm))
    · exact hG.fresh x hx
  · rw [hG'.node x (hG.mem_live.mpr (.inr hx)), hG.node x hx]
  · rw [List.mem_append, not_or] at hxS
    have hx' : x ∉ h'.live := fun hm => (hG.mem_live.mp hm).elim hxS.2 hx
    rcases hG'.value x hx' hxS.1 with h₁ | h₁
    · rw [h₁]
      exact hG.value x hx hxS.2
    · exact .inr h₁

theorem add (h : Heap α) (hp : p ∉ h.live) (node : TAvlTreeNode α) :
    Grown [p] h (h.add p node) := by
  refine ⟨List.Perm.refl _, fun x hx => ?_, fun x hx => ?_, fun x _ hxS => .inl ?_⟩
  · rw [List.mem_singleton.mp hx]
    exact hp
  · have hne : x ≠ p := fun he => hp (he ▸ hx)
    exact if_neg hne
  · have hne : x ≠ p := fun he => hxS (List.mem_singleton.mpr he)
    exact congrArg TAvlTreeNode.value (if_neg hne)

theorem set (hG : Grown S h h') (hp : p ∈ S) (f : TAvlTreeNode α → TAvlTreeNode α) :
    Grown S h (h'.set p f) := by
  refine ⟨hG.live, hG.fresh, fun x hx => ?_, fun x hx hxS => ?_⟩
  · have hne : x ≠ p := fun he => hG.fresh p hp (he ▸ hx)
    rw [Heap.node_set_of_ne hne]
    exact hG.node x hx
  · have hne : x ≠ p := fun he => hxS (he ▸ hp)
    rw [Heap.node_set_of_ne hne]
    exact hG.value x hx hxS

theorem edits (hG : Grown S h h') (he : Edits S' h' h'') (hS : S' ⊆ S) : Grown S h h'' := by
  refine ⟨he.live ▸ hG.live, hG.fresh, fun x hx => ?_, fun x hx hxS => ?_⟩
  · rw [he.node x fun hm => hG.fresh x (hS hm) hx]
    exact hG.node x hx
  · rw [he.value]
    exact hG.value x hx hxS

theorem free (hG : Grown (p :: S) h h') (hp : (h'.node p).value = none) :
    Grown S h (h'.free p) := by
  refine ⟨?_, fun x hx => hG.fresh x (List.mem_cons_of_mem _ hx), hG.node, fun x hx hxS => ?_⟩
  · have hperm := hG.live.erase p
    rwa [List.cons_append, List.erase_cons_head] at hperm
  · by_cases he : x = p
    · exact .inr (he ▸ hp)
    · exact hG.value x hx fun hm => (List.mem_cons.mp hm).elim he hxS

theorem destroyed (hG : Grown S h h') (hout : Outside S h' h'')
    (hlive : h'.live.Perm (S ++ h''.live))
    (hvalue : ∀ x, (h''.node x).value = (h'.node x).value ∨ (h''.node x).value = none)
    (hnone : ∀ x ∈ S, (h''.node x).value = none) : Grown [] h h'' := by
  refine ⟨?_, fun _ hx => (nomatch hx), fun x hx => ?_, fun x hx _ => ?_⟩
  · exact (List.perm_append_left_iff S).mp (hlive.symm.trans hG.live)
  · rw [(hout x (hG.mem_live.mpr (.inr hx)) fun hm => hG.fresh x hm hx).2]
    exact hG.node x hx
  · by_cases hm : x ∈ S
    · exact .inr (hnone x hm)
    · rcases hvalue x with h₁ | h₁
      · rw [h₁]
        exact hG.value x hx hm
      · exact .inr h₁

theorem outside (hG : Grown S h h') : Outside [] h h' :=
  fun x hx _ => ⟨hG.mem_live.mpr (.inr hx), hG.node x hx⟩

theorem holds (hG : Grown S h h') (hH : Holds ⟨h, stump⟩ cells) : Holds ⟨h', stump⟩ cells :=
  hH.congr fun x hx => hG.outside x (hH.live x hx) (by simp)

end Grown

/-- The memory `h'` is `h` with nodes for the new elements `news`, in no list yet. -/
structure Made (news : List (Cell α)) (h h' : Heap α) : Prop where
  grown : Grown (nodes news) h h'
  loose : Loose h' news
  one : CountOne h' (nodes news)

namespace Made

theorem refl (h : Heap α) : Made [] h h :=
  ⟨.refl h, ⟨List.nodup_nil, by simp, by simp⟩, by simp [CountOne]⟩

theorem single (h : Heap α) {p : Ptr} (hp : p ∉ h.live) (v : α) :
    Made [(p, v)] h ((h.add p (TAvlTreeNode.make none)).set p fun _ =>
      TAvlTreeNode.make (some v)) := by
  refine ⟨(Grown.add h hp _).set List.mem_cons_self _, ⟨List.nodup_singleton p, fun c hc => ?_,
    fun c hc => ?_⟩, fun x hx => ?_⟩
  · rw [List.mem_singleton.mp hc]
    exact List.mem_cons_self
  · rw [List.mem_singleton.mp hc, Heap.node_set_self]
    rfl
  · rw [List.mem_singleton.mp hx, Heap.node_set_self]
    exact ⟨rfl, rfl⟩

/-- What was made is still there after a rollback. -/
theorem kept (hM : Made news h h') (hG : Grown [] h' h'') : Made news h h'' := by
  have hnode : ∀ x ∈ nodes news, h''.node x = h'.node x := by
    intro x hx
    obtain ⟨c, hc, rfl⟩ := List.mem_map.mp hx
    exact hG.node c.1 (hM.loose.live c hc)
  refine ⟨hM.grown.trans hG, ⟨hM.loose.nodup, fun c hc => ?_, fun c hc => ?_⟩, fun x hx => ?_⟩
  · exact hG.mem_live.mpr (.inr (hM.loose.live c hc))
  · rw [hnode c.1 (fst_mem_nodes hc)]
    exact hM.loose.values c hc
  · rw [hnode x hx]
    exact hM.one x hx

theorem next {c : Cell α} (hM : Made news h h') (hM' : Made [c] h' h'') :
    Made (news ++ [c]) h h'' := by
  have hG := hM.grown.trans hM'.grown
  have hperm : (nodes [c] ++ nodes news).Perm (nodes (news ++ [c])) := by
    rw [nodes_append]
    exact List.perm_append_comm
  have hkept : ∀ d ∈ news, h''.node d.1 = h'.node d.1 := fun d hd =>
    hM'.grown.node d.1 (hM.loose.live d hd)
  refine ⟨hG.perm hperm, ⟨?_, fun d hd => ?_, fun d hd => ?_⟩, fun x hx => ?_⟩
  · rw [nodes_append, List.nodup_append']
    refine ⟨hM.loose.nodup, hM'.loose.nodup, fun x hx hx' => ?_⟩
    obtain ⟨d, hd, rfl⟩ := List.mem_map.mp hx
    exact hM'.grown.fresh d.1 hx' (hM.loose.live d hd)
  · rcases List.mem_append.mp hd with hd | hd
    · exact hM'.grown.mem_live.mpr (.inr (hM.loose.live d hd))
    · exact hM'.loose.live d hd
  · rcases List.mem_append.mp hd with hd | hd
    · rw [hkept d hd]
      exact hM.loose.values d hd
    · exact hM'.loose.values d hd
  · rw [nodes_append, List.mem_append] at hx
    rcases hx with hx | hx
    · obtain ⟨d, hd, rfl⟩ := List.mem_map.mp hx
      rw [hkept d hd]
      exact hM.one d.1 hx
    · exact hM'.one x hx

end Made

end Garbage.RandomAccessList
