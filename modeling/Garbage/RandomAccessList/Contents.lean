import Garbage.RandomAccessList.Relink

/-!
# What a list holds

`Holds s cells`: the tree of a list is right, and between its two gap nodes it
has the nodes of `cells` in order, each with its value.  The operations on one
node and `Holds`: an insertion before the first of the cells `cb` turns
`ca ++ cb` into `ca ++ c :: cb`, a removal turns it back.

`Outside S h h'`: nodes outside `S` are as they were and still allocated.
-/

namespace Garbage.RandomAccessList

open Foundation (Prog Side)
open Foundation.Prog
open Foundation.Zipper
open BinaryTree

variable {α ε : Type} {h h' h'' : Heap α} {p new : Ptr} {v : α}

/-- The node and the value of an element. -/
abbrev Cell (α : Type) := Ptr × α

variable {cells ca cb : List (Cell α)}

def nodes (cells : List (Cell α)) : List Ptr := cells.map Prod.fst

/-- The node an iterator to the first of `cells` points to. -/
def startOf (end_ : Ptr) : List (Cell α) → Ptr
  | [] => end_
  | c :: _ => c.1

def own (stump : AvlTreeStump) (cells : List (Cell α)) : List Ptr :=
  stump.beforeBegin :: (nodes cells ++ [stump.end_])

structure Holds (s : Tree α) (cells : List (Cell α)) : Prop where
  tree : ∃ T, Rep s T ∧ inorder T = own s.stump cells
  begin_ : s.stump.begin_ = some (startOf s.stump.end_ cells)
  values : ∀ c ∈ cells, (s.heap.node c.1).value = some c.2

/-- The gap nodes were not exchanged. -/
def SameEnds (stump stump' : AvlTreeStump) : Prop :=
  stump'.beforeBegin = stump.beforeBegin ∧ stump'.end_ = stump.end_

/-- Nodes outside `S` are as they were. -/
def Outside (S : List Ptr) (h h' : Heap α) : Prop :=
  ∀ x ∈ h.live, x ∉ S → x ∈ h'.live ∧ h'.node x = h.node x

@[simp] theorem startOf_nil (end_ : Ptr) : startOf end_ ([] : List (Cell α)) = end_ := rfl

@[simp] theorem startOf_cons (end_ : Ptr) (c : Cell α) (cells : List (Cell α)) :
    startOf end_ (c :: cells) = c.1 := rfl

@[simp] theorem nodes_nil : nodes ([] : List (Cell α)) = [] := rfl

@[simp] theorem nodes_cons (c : Cell α) (cells : List (Cell α)) :
    nodes (c :: cells) = c.1 :: nodes cells := rfl

@[simp] theorem nodes_append (ca cb : List (Cell α)) : nodes (ca ++ cb) = nodes ca ++ nodes cb :=
  List.map_append

theorem fst_mem_nodes {c : Cell α} (hc : c ∈ cells) : c.1 ∈ nodes cells := List.mem_map_of_mem hc

theorem own_perm (stump : AvlTreeStump) (ca : List (Cell α)) (c : Cell α) (cb : List (Cell α)) :
    (own stump (ca ++ c :: cb)).Perm (c.1 :: own stump (ca ++ cb)) := by
  rw [own, own, nodes_append, nodes_append, nodes_cons, List.append_assoc, List.append_assoc]
  exact (List.perm_middle.cons _).trans (List.Perm.swap _ _ _)

theorem fst_mem_own (stump : AvlTreeStump) {c : Cell α} (hc : c ∈ cells) :
    c.1 ∈ own stump cells := List.mem_cons_of_mem _ (List.mem_append_left _ (fst_mem_nodes hc))

theorem nodes_append_end (end_ : Ptr) (cb : List (Cell α)) :
    ∃ ys, nodes cb ++ [end_] = startOf end_ cb :: ys := by
  cases cb with
  | nil => exact ⟨[], rfl⟩
  | cons c cb => exact ⟨nodes cb ++ [end_], rfl⟩

theorem head?_nodes_append (end_ : Ptr) (cb : List (Cell α)) :
    (nodes cb ++ [end_]).head? = some (startOf end_ cb) := by
  cases cb <;> rfl

theorem Outside.refl (S : List Ptr) (h : Heap α) : Outside S h h := fun _ hx _ => ⟨hx, rfl⟩

theorem Outside.trans {S : List Ptr} (hh : Outside S h h') (hh' : Outside S h' h'') :
    Outside S h h'' := by
  intro x hx hS
  obtain ⟨hx', he⟩ := hh x hx hS
  obtain ⟨hx'', he'⟩ := hh' x hx' hS
  exact ⟨hx'', he'.trans he⟩

theorem Outside.mono {S S' : List Ptr} (hh : Outside S h h') (hS : S ⊆ S') : Outside S' h h' :=
  fun x hx hm => hh x hx fun h => hm (hS h)

theorem Edits.outside {S : List Ptr} (he : Edits S h h') : Outside S h h' :=
  fun x hx hS => ⟨he.live ▸ hx, he.node x hS⟩

namespace Holds

variable {s : Tree α}

theorem nodup (hH : Holds s cells) : (own s.stump cells).Nodup := by
  obtain ⟨T, hR, hT⟩ := hH.tree
  have hn := hR.settled.nodup
  rwa [keys, List.append_nil, hT] at hn

theorem live (hH : Holds s cells) : ∀ x ∈ own s.stump cells, x ∈ s.heap.live := by
  obtain ⟨T, hR, hT⟩ := hH.tree
  intro x hx
  exact hR.settled.live x (List.mem_append_left _ (hT ▸ hx))

theorem congr (hag : ∀ x ∈ own s.stump cells, x ∈ h'.live ∧ h'.node x = s.heap.node x)
    (hH : Holds s cells) : Holds ⟨h', s.stump⟩ cells := by
  obtain ⟨T, hR, hT⟩ := hH.tree
  have hmem : ∀ x ∈ inorder T ++ keys [], x ∈ own s.stump cells := by
    intro x hx
    rwa [keys, List.append_nil, hT] at hx
  refine ⟨⟨T, ⟨hR.settled.congr (fun x hx => (hag x (hmem x hx)).2) fun x hx =>
    (hag x (hmem x hx)).1, hR.root⟩, hT⟩, hH.begin_, fun c hc => ?_⟩
  show (h'.node c.1).value = some c.2
  rw [(hag c.1 (fst_mem_own _ hc)).2]
  exact hH.values c hc

theorem split (hH : Holds s (ca ++ cb)) : ∃ fs l r,
    Rep s (plug fs (node (startOf s.stump.end_ cb) l r)) ∧
    before fs ++ inorder l = s.stump.beforeBegin :: nodes ca ∧
    startOf s.stump.end_ cb :: (inorder r ++ after fs) = nodes cb ++ [s.stump.end_] ∧
    inorder (plug fs (node (startOf s.stump.end_ cb) l r)) = own s.stump (ca ++ cb) := by
  obtain ⟨T, hR, hT⟩ := hH.tree
  obtain ⟨ys, hys⟩ := nodes_append_end s.stump.end_ cb
  have hsplit : inorder T =
      (s.stump.beforeBegin :: nodes ca) ++ startOf s.stump.end_ cb :: ys := by
    rw [hT, own, nodes_append, ← hys, List.cons_append, List.append_assoc]
  obtain ⟨fs, l, r, rfl, hl, hr⟩ := exists_plug hsplit
  exact ⟨fs, l, r, hR, hl, by rw [hr, hys], hT⟩

theorem not_gap (hH : Holds s (ca ++ (p, v) :: cb)) :
    ¬ (p = s.stump.beforeBegin ∨ p = s.stump.end_) := by
  have hn := hH.nodup
  rw [own, nodes_append, nodes_cons, List.nodup_cons, List.nodup_append'] at hn
  obtain ⟨hbb, -, -, hend⟩ := hn
  rintro (rfl | rfl)
  · exact hbb (by simp)
  · exact hend (a := s.stump.end_) (by simp) (by simp)

/-- The first of all elements is the first of `cb` exactly if nothing is before it. -/
theorem startOf_append (hH : Holds s (ca ++ cb)) :
    some (startOf s.stump.end_ cb) = s.stump.begin_ ↔ ca = [] := by
  rw [hH.begin_]
  cases ca with
  | nil => simp
  | cons c ca =>
    have hn := (List.nodup_cons.mp hH.nodup).2
    obtain ⟨ys, hys⟩ := nodes_append_end s.stump.end_ cb
    rw [nodes_append, List.append_assoc, hys, nodes_cons, List.cons_append, List.nodup_cons] at hn
    constructor
    · intro he
      have hc : startOf s.stump.end_ cb = c.1 := Option.some.inj he
      exact absurd (by simp [hc]) hn.1
    · intro he
      cases he

end Holds

namespace AvlTreeStump

variable {E : ε → Tree α → Prop} {s : Tree α}

/-- **An insertion into a list.** -/
theorem wp_insertBefore_holds (hH : Holds s (ca ++ cb)) (hnew : new ∉ own s.stump (ca ++ cb))
    (hlive : new ∈ s.heap.live) (hv : (s.heap.node new).value = some v) :
    wp (insertBefore (some (startOf s.stump.end_ cb)) new) (fun x s' => x = new ∧
      Holds s' (ca ++ (new, v) :: cb) ∧ SameEnds s.stump s'.stump ∧
      Edits (new :: own s.stump (ca ++ cb)) s.heap s'.heap) E s := by
  obtain ⟨fs, l, r, hR, hl, hr, hT⟩ := hH.split
  refine (wp_insertBefore hR (hT ▸ hnew) hlive).imp ?_
  rintro x s' ⟨rfl, hR', hst, he⟩
  rw [hT] at he
  have hends : SameEnds s.stump s'.stump := by
    rw [hst, inserted]
    split <;> exact ⟨rfl, rfl⟩
  have hinorder : inorder (up (gap fs (startOf s.stump.end_ cb) l r) (node x nil nil)) =
      own s'.stump (ca ++ (x, v) :: cb) := by
    rw [inorder_up_gap, hl, hr, own, hends.1, hends.2]
    simp
  refine ⟨rfl, ⟨⟨_, hR', hinorder⟩, ?_, ?_⟩, hends, he⟩
  · rw [hends.2, hst, inserted]
    by_cases hca : ca = []
    · rw [if_pos (hH.startOf_append.mpr hca), hca]
      rfl
    · rw [if_neg fun hb => hca (hH.startOf_append.mp hb)]
      show s.stump.begin_ = _
      rw [hH.begin_]
      cases ca with
      | nil => exact absurd rfl hca
      | cons c ca => rfl
  · intro c hc
    rw [he.value]
    rcases List.mem_append.mp hc with hc | hc
    · exact hH.values c (List.mem_append_left _ hc)
    · rcases List.mem_cons.mp hc with rfl | hc
      · exact hv
      · exact hH.values c (List.mem_append_right _ hc)

/-- What `delete_` leaves to its caller: the cached `begin` is still the old one. -/
structure Deleted (s s' : Tree α) (cells : List (Cell α)) : Prop where
  tree : ∃ T, Rep s' T ∧ inorder T = own s.stump cells
  begin_ : s'.stump.begin_ = s.stump.begin_
  ends : SameEnds s.stump s'.stump
  values : ∀ c ∈ cells, (s'.heap.node c.1).value = some c.2

theorem wp_unlink_holds (hH : Holds s (ca ++ (p, v) :: cb)) :
    wp (unlink p) (fun _ s' => Deleted s s' (ca ++ cb) ∧
      Edits (own s.stump (ca ++ (p, v) :: cb)) s.heap s'.heap) E s := by
  obtain ⟨fs, l, r, hR, hl, hr, hT⟩ := hH.split
  refine (wp_unlink hR).imp ?_
  rintro _ s' ⟨hR', hst, he⟩
  rw [hT] at he
  refine ⟨⟨⟨_, hR', ?_⟩, by rw [hst]; rfl, by rw [hst]; exact ⟨rfl, rfl⟩, fun c hc => ?_⟩, he⟩
  · have hr' : inorder r ++ after fs = nodes cb ++ [s.stump.end_] := (List.cons.inj hr).2
    rw [inorder_up_cut, hl, hr', own, nodes_append]
    simp
  · rw [he.value]
    refine hH.values c ?_
    simp only [List.mem_append, List.mem_cons] at hc ⊢
    tauto

theorem wp_delete_keep (hH : Holds s (ca ++ (p, v) :: cb)) (needDestroyValue : Bool) :
    wp (delete_ p false needDestroyValue) (fun _ s' => Deleted s s' (ca ++ cb) ∧
      Edits (own s.stump (ca ++ (p, v) :: cb)) s.heap s'.heap) E s := by
  unfold delete_
  rw [wp_bind, wp_get, if_neg hH.not_gap, wp_bind]
  exact wp_unlink_holds hH

theorem wp_destroyNode {T : BinaryTree Ptr} (hR : Rep s T) (hp : p ∉ inorder T)
    (hlive : p ∈ s.heap.live) (hv : (s.heap.node p).value = some v) :
    wp (destroyNode p true true) (fun _ s' => Rep s' T ∧ s'.stump = s.stump ∧
      Outside [p] s.heap s'.heap) E s := by
  unfold destroyNode
  rw [if_pos rfl, if_pos rfl, wp_bind, wp_destructValue]
  refine ⟨by rw [hv]; rfl, hlive, ?_⟩
  rw [wp_deallocate]
  refine ⟨hlive, ?_⟩
  have hother : ∀ x, x ≠ p → x ∈ s.heap.live →
      x ∈ (s.heap.set p fun n => { n with value := none }).live.erase p ∧
      (s.heap.set p fun n => { n with value := none }).node x = s.heap.node x :=
    fun x hx hm => ⟨(List.mem_erase_of_ne hx).mpr hm, Heap.node_set_of_ne hx _ _⟩
  have hkept : ∀ x ∈ inorder T ++ keys [], x ≠ p ∧ x ∈ s.heap.live := by
    intro x hx
    refine ⟨?_, hR.settled.live x hx⟩
    rintro rfl
    rw [keys, List.append_nil] at hx
    exact hp hx
  refine ⟨⟨hR.settled.congr (fun x hx => ?_) fun x hx => ?_, hR.root⟩, rfl, fun x hx hS => ?_⟩
  · exact (hother x (hkept x hx).1 (hkept x hx).2).2
  · exact (hother x (hkept x hx).1 (hkept x hx).2).1
  · exact hother x (fun he : x = p => hS (List.mem_singleton.mpr he)) hx

/-- `delete_` that destroys the value and the node. -/
theorem wp_delete_destroy (hH : Holds s (ca ++ (p, v) :: cb)) :
    wp (delete_ p true true) (fun _ s' => Deleted s s' (ca ++ cb) ∧
      Outside (own s.stump (ca ++ (p, v) :: cb)) s.heap s'.heap) E s := by
  unfold delete_
  rw [wp_bind, wp_get, if_neg hH.not_gap, wp_bind]
  refine (wp_unlink_holds hH).imp ?_
  rintro _ s' ⟨⟨⟨T, hR, hT⟩, hbegin, hends, hvalues⟩, he⟩
  have hlive : p ∈ s'.heap.live := he.live ▸ hH.live p (by simp [own])
  have hv : (s'.heap.node p).value = some v := by
    rw [he.value]
    exact hH.values (p, v) (by simp)
  have hnotMem : p ∉ own s.stump (ca ++ cb) :=
    (List.nodup_cons.mp ((own_perm s.stump ca (p, v) cb).nodup_iff.mp hH.nodup)).1
  refine (wp_destroyNode hR (hT ▸ hnotMem) hlive hv).imp ?_
  rintro _ s'' ⟨hR', hst, hout⟩
  refine ⟨⟨⟨T, hR', hT⟩, by rw [hst]; exact hbegin, by rw [hst]; exact hends, fun c hc => ?_⟩, ?_⟩
  · have hcp : c.1 ∉ [p] := fun hm => hnotMem (List.mem_singleton.mp hm ▸ fst_mem_own _ hc)
    have hclive : c.1 ∈ s'.heap.live := hR.settled.live c.1
      (List.mem_append_left _ (hT ▸ fst_mem_own _ hc))
    rw [(hout c.1 hclive hcp).2]
    exact hvalues c hc
  · exact he.outside.trans (hout.mono fun x hx => by
      rw [List.mem_singleton.mp hx]
      simp [own])

theorem wp_forward_holds {Q : Option Ptr → Tree α → Prop} (hH : Holds s (ca ++ (p, v) :: cb))
    (hQ : Q (some (startOf s.stump.end_ cb)) s) : wp (forward p) Q E s := by
  obtain ⟨fs, l, r, hR, -, hr, -⟩ := hH.split
  have hrest : inorder r ++ after fs = nodes cb ++ [s.stump.end_] := (List.cons.inj hr).2
  refine wp_forward hR.settled.at_place.toPlace ?_
  rw [hrest, head?_nodes_append]
  exact hQ

/-- `delete_and_get_next`: the next node, and the cached `begin` follows. -/
theorem wp_deleteAndGetNext {R : Heap α → Prop} {needDestroyNode needDestroyValue : Bool}
    (hH : Holds s (ca ++ (p, v) :: cb))
    (hdelete : wp (delete_ p needDestroyNode needDestroyValue) (fun _ s' =>
      Deleted s s' (ca ++ cb) ∧ R s'.heap) E s) :
    wp (deleteAndGetNext (some p) needDestroyNode needDestroyValue) (fun x s' =>
      x = some (startOf s.stump.end_ cb) ∧ Holds s' (ca ++ cb) ∧ SameEnds s.stump s'.stump ∧
      R s'.heap) E s := by
  unfold deleteAndGetNext
  dsimp only
  rw [wp_bind]
  refine wp_forward_holds hH ?_
  rw [wp_bind, wp_get, wp_bind]
  refine hdelete.imp ?_
  rintro _ s' ⟨⟨⟨T, hR', hT'⟩, hbegin, hends, hvalues⟩, hrest⟩
  have hfirst : s.stump.begin_ = some p ↔ ca = [] := eq_comm.trans hH.startOf_append
  have hown : own s'.stump (ca ++ cb) = own s.stump (ca ++ cb) := by rw [own, hends.1, hends.2, own]
  by_cases hca : ca = []
  · rw [if_pos (hfirst.mpr hca), wp_bind, wp_setStump, wp_pure]
    refine ⟨rfl, ⟨⟨T, ⟨hR'.settled, hR'.root⟩, hT'.trans hown.symm⟩, ?_, hvalues⟩, hends, hrest⟩
    rw [hca]
    exact congrArg (fun e => some (startOf e cb)) hends.2.symm
  · rw [if_neg fun hb => hca (hfirst.mp hb), wp_pure]
    refine ⟨rfl, ⟨⟨T, hR', hT'.trans hown.symm⟩, ?_, hvalues⟩, hends, hrest⟩
    rw [hbegin, hH.begin_, hends.2]
    cases ca with
    | nil => exact absurd rfl hca
    | cons c ca => rfl

end AvlTreeStump

end Garbage.RandomAccessList
