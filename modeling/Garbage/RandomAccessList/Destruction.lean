import Garbage.RandomAccessList.ListCalls

/-!
# What is destroyed

`Outside` says that the rest of the memory stays, but not that a deleted node
goes.  `Destroyed gone h h'` does: from `h` to `h'` the elements `gone` were
destroyed, each once, their nodes were given back, each once, and nothing else
was allocated, given back, constructed or destroyed.  It is told by the list of
allocated addresses up to its order, so a node given back twice or never shows.
`tracks_destroyed` makes it follow the deletions of a loop.
-/

namespace Garbage.RandomAccessList

open Foundation (Prog Side)
open Foundation.Prog
open AvlTreeStump

variable {α ε : Type} {h h' h₀ : Heap α} {p : Ptr} {v : α} {gone cells ca cb : List (Cell α)}

/-- The value at `p` was destroyed and its node given back. -/
structure Frees (p : Ptr) (h h' : Heap α) : Prop where
  live : h'.live = h.live.erase p
  value : ∀ x, (h'.node x).value = if x = p then none else (h.node x).value

/-- The elements `gone` were destroyed and their nodes given back, and no others. -/
structure Destroyed (gone : List (Cell α)) (h h' : Heap α) : Prop where
  live : h.live.Perm (nodes gone ++ h'.live)
  value : ∀ x, (h'.node x).value = if x ∈ nodes gone then none else (h.node x).value

theorem Destroyed.refl (h : Heap α) : Destroyed [] h h :=
  ⟨List.Perm.refl _, fun x => (if_neg (by simp)).symm⟩

theorem Destroyed.next (hd : Destroyed gone h₀ h) (hf : Frees p h h') (hp : p ∈ h.live) :
    Destroyed (gone ++ [(p, v)]) h₀ h' := by
  refine ⟨?_, fun x => ?_⟩
  · have hlive : h.live.Perm (p :: h'.live) := hf.live ▸ List.perm_cons_erase hp
    refine hd.live.trans ?_
    rw [nodes_append, List.append_assoc]
    exact hlive.append_left _
  · rw [hf.value, hd.value, nodes_append]
    by_cases hx : x = p
    · have hm : x ∈ nodes gone ++ nodes [(p, v)] :=
        List.mem_append_right _ (List.mem_singleton.mpr hx)
      rw [if_pos hx, if_pos hm]
    · rw [if_neg hx]
      by_cases hg : x ∈ nodes gone
      · rw [if_pos hg, if_pos (List.mem_append_left _ hg)]
      · rw [if_neg hg, if_neg]
        exact fun hm => (List.mem_append.mp hm).elim hg fun hm => hx (List.mem_singleton.mp hm)

theorem Destroyed.perm {gone' : List (Cell α)} (hperm : gone.Perm gone')
    (hd : Destroyed gone h h') : Destroyed gone' h h' := by
  have hnodes : (nodes gone).Perm (nodes gone') := hperm.map Prod.fst
  refine ⟨hd.live.trans (hnodes.append_right _), fun x => ?_⟩
  rw [hd.value]
  by_cases hx : x ∈ nodes gone
  · rw [if_pos hx, if_pos (hnodes.mem_iff.mp hx)]
  · rw [if_neg hx, if_neg fun hm => hx (hnodes.mem_iff.mpr hm)]

/-! ### Deletions -/

namespace AvlTreeStump

variable {E : ε → Tree α → Prop} {s : Tree α}

theorem wp_delete_frees (hH : Holds s (ca ++ (p, v) :: cb)) :
    wp (delete_ p true true) (fun _ s' => Frees p s.heap s'.heap) E s := by
  unfold delete_
  rw [wp_bind, wp_get, if_neg hH.not_gap, wp_bind]
  refine (wp_unlink_holds hH).imp ?_
  rintro _ s' ⟨-, he⟩
  unfold destroyNode
  rw [if_pos rfl, if_pos rfl, wp_bind, wp_destructValue]
  have hlive : p ∈ s'.heap.live := he.live ▸ hH.live p (by simp [own])
  have hv : (s'.heap.node p).value = some v := by
    rw [he.value]
    exact hH.values (p, v) (by simp)
  refine ⟨by rw [hv]; rfl, hlive, ?_⟩
  rw [wp_deallocate]
  refine ⟨hlive, ?_, fun x => ?_⟩
  · show s'.heap.live.erase p = _
    rw [he.live]
  · show (if x = p then _ else s'.heap.node x).value = _
    split
    · rfl
    · exact he.value x

theorem tracks_destroyed (h₀ : Heap α) : Tracks (ε := ε) (deleteAndGetNext · true true)
    (fun gone s => Destroyed gone h₀ s.heap) E := by
  intro gone s ca cb p v hH hd
  refine (wp_deleteAndGetNext (R := Frees p s.heap) hH ?_).imp ?_
  · refine ((wp_delete_destroy hH).and (wp_delete_frees hH)).imp ?_
    rintro _ s' ⟨⟨hdeleted, -⟩, hf⟩
    exact ⟨hdeleted, hf⟩
  · rintro _ s' ⟨-, -, -, hf⟩
    exact hd.next hf (hH.live p (by simp [own]))

/-- **The destructor of the tree** destroys all elements and gives all nodes
back, the gap nodes too. -/
theorem wp_destruct_exact (hH : Holds s cells) :
    wp destruct (fun _ s' => Outside (own s.stump cells) s.heap s'.heap ∧
      s.heap.live.Perm (own s.stump cells ++ s'.heap.live) ∧
      ∀ x, (s'.heap.node x).value = if x ∈ nodes cells then none else (s.heap.node x).value)
      E s := by
  refine (wp_destruct hH).and ?_
  unfold destruct destructValueAndDeleteNodeSinceBeginToBeforeEnd
  rw [wp_bind, wp_bind, wp_get, hH.begin_]
  have hH₀ : Holds s ([] ++ cells ++ []) := by simpa using hH
  have hdelete := wp_deletes_tracking (E := E) deletes_deleteAndGetNext
    (tracks_destroyed s.heap) hH₀ (Destroyed.refl _)
  rw [List.append_nil, List.nil_append, List.append_nil] at hdelete
  refine hdelete.imp ?_
  rintro _ s' ⟨hH', hends, -, hd⟩
  have hb : s'.stump.beforeBegin ∈ s'.heap.live := hH'.live _ (by simp [own])
  have hend : s'.stump.end_ ∈ s'.heap.live := hH'.live _ (by simp [own])
  have hne : s'.stump.end_ ≠ s'.stump.beforeBegin := by
    have hn := hH'.nodup
    rw [own, List.nodup_cons] at hn
    exact fun he => hn.1 (by simp [he])
  rw [wp_bind, wp_get, wp_bind, wp_deallocate]
  refine ⟨hb, ?_⟩
  rw [wp_deallocate]
  have hend' : s'.stump.end_ ∈ s'.heap.live.erase s'.stump.beforeBegin :=
    (List.mem_erase_of_ne hne).mpr hend
  refine ⟨hend', ?_, hd.value⟩
  have hgaps : s'.heap.live.Perm (s'.stump.beforeBegin :: s'.stump.end_ ::
      (s'.heap.live.erase s'.stump.beforeBegin).erase s'.stump.end_) :=
    (List.perm_cons_erase hb).trans ((List.perm_cons_erase hend').cons _)
  refine (hd.live.trans (hgaps.append_left _)).trans ?_
  rw [hends.1, hends.2, own, List.cons_append, List.append_assoc]
  exact List.perm_middle

end AvlTreeStump

end Garbage.RandomAccessList
