import Garbage.RandomAccessList.Bulk

/-!
# Taking a tree apart

`treeToVineWithPreserveInvariantsOnlyForMemberRight` starts at the last node.
At each node it rotates its left children away, one after the other, and then
goes on to the parent.  Below the current node there is always a vine, and all
frames above it are to the right.  `moveNodes` then follows the right pointers,
collects the nodes of the elements, and makes an empty tree of the gap nodes.
-/

namespace Garbage.RandomAccessList

open Foundation (Prog Side)
open Foundation.Prog
open Foundation.Zipper
open BinaryTree

variable {α ε : Type} {fs : List (Frame Ptr)} {l T : BinaryTree Ptr} {x : Ptr} {rs : List Ptr}
  {cells : List (Cell α)}

namespace AvlTreeStump

variable {E : ε → Tree α → Prop} {s : Tree α}

/-- The current node `x` of the dismantling: above it only frames to the right,
to the right of it a vine, and in all the nodes in their old order. -/
structure AtVine (s s' : Tree α) (T : BinaryTree Ptr) (fs : List (Frame Ptr)) (x : Ptr)
    (l : BinaryTree Ptr) (rs : List Ptr) : Prop where
  place : Place s'.heap fs (node x l (vine rs))
  right : ∀ f ∈ fs, f.side = .right
  order : inorder (plug fs (node x l (vine rs))) = inorder T
  stump : s'.stump = s.stump
  edits : Edits (inorder T) s.heap s'.heap

theorem AtVine.mem {s' : Tree α} (h : AtVine s s' T fs x l rs) :
    ∀ y ∈ inorder (node x l (vine rs)) ++ keys fs, y ∈ inorder T := by
  intro y hy
  rw [← h.order, (inorder_plug_perm fs _).mem_iff]
  exact hy

/-- A round of the inner loop: rotate the left child of the current node away. -/
def rotateAway (rightRotate : Ptr → Prog (Tree α) ε Ptr) (current : Ptr) :
    Prog (Tree α) ε (Ptr ⊕ Ptr) := do
  match ← load current TAvlTreeNode.left with
  | none => pure (.inr current)
  | some _ => do
    let pivot ← rightRotate current
    match ← load pivot TAvlTreeNode.right with
    | none => stuck
    | some right => pure (.inl right)

theorem wp_rotateAway {s' : Tree α} {q : Ptr} {a b : BinaryTree Ptr}
    (h : AtVine s s' T fs x (node q a b) rs) :
    wp (rotateAway (rightRotate · false) x) (fun r s'' => r = .inl x ∧
      AtVine s s'' T (⟨.right, q, a⟩ :: fs) x b rs) E s' := by
  obtain ⟨-, hleft, -⟩ := h.place.linked
  unfold rotateAway
  rw [wp_bind, wp_load, hleft]
  refine ⟨h.place.live x (by simp), ?_⟩
  rw [root?_node]
  dsimp only
  rw [wp_bind]
  have hP : Place s'.heap fs (join .left x (join .left q a b) (vine rs)) := h.place
  refine wp_rotate false hP ?_
  rw [if_neg Bool.false_ne_true, wp_pure, wp_bind, wp_load]
  have hP' := hP.rotated
  obtain ⟨-, -, hright, -⟩ := hP'.linked
  rw [hright]
  refine ⟨hP'.live q (by simp), rfl, place_cons.mpr hP', ?_, ?_, h.stump,
    h.edits.trans (edits_rotated ?_ ?_ ?_ ?_)⟩
  · intro f hf
    rcases List.mem_cons.mp hf with rfl | hf
    · rfl
    · exact h.right f hf
  · rw [← h.order, plug, inorder_plug, inorder_plug]
    simp [Frame.plug, join]
  · exact h.mem x (by simp)
  · exact h.mem q (by simp)
  · exact fun z hz => h.mem z (by simp [hz])
  · exact fun z hz => h.mem z (by simp [hz])

theorem wp_rotatesAway {s' : Tree α} (h : AtVine s s' T fs x l rs) :
    wp (rounds (rotateAway (rightRotate · false)) x)
      (fun y s'' => y = x ∧ ∃ gs, AtVine s s'' T gs x nil rs) E s' := by
  refine wp_rounds (I := fun n y s'' => y = x ∧ ∃ gs k, n = k.numNodes ∧
    AtVine s s'' T gs x k rs) ?_ l.numNodes ⟨rfl, fs, l, rfl, h⟩ ?_
  · rintro n y s'' ⟨rfl, gs, k, rfl, hk⟩
    cases k with
    | nil =>
      unfold rotateAway
      rw [wp_bind, wp_load, hk.place.linked.2.1]
      exact ⟨hk.place.live y (by simp), rfl, gs, hk⟩
    | node q a b =>
      refine (wp_rotateAway hk).imp ?_
      rintro r s₃ ⟨rfl, hk'⟩
      refine ⟨b.numNodes, ?_, rfl, _, b, rfl, hk'⟩
      rw [numNodes]
      omega
  · have := h.place.numNodes_le
    rw [numNodes] at this
    omega

/-- A round of the outer loop. -/
def vineRound (rightRotate : Ptr → Prog (Tree α) ε Ptr) (current : Ptr) :
    Prog (Tree α) ε (Ptr ⊕ Ptr) := do
  let current ← rounds (rotateAway rightRotate) current
  match ← load current TAvlTreeNode.parent with
  | none => pure (.inr current)
  | some parent => pure (.inl parent)

theorem wp_vineRound {s' : Tree α} (h : AtVine s s' T fs x l rs) :
    wp (vineRound (rightRotate · false) x) (fun r s'' =>
      (r = .inr x ∧ AtVine s s'' T [] x nil rs) ∨
      ∃ gs q c, r = .inl q ∧ AtVine s s'' T gs q c (x :: rs)) E s' := by
  unfold vineRound
  rw [wp_bind]
  refine (wp_rotatesAway h).imp ?_
  rintro y s'' ⟨rfl, gs, hk⟩
  rw [wp_bind, wp_load, hk.place.linked.1]
  refine ⟨hk.place.live _ (by simp), ?_⟩
  cases gs with
  | nil => exact .inl ⟨rfl, hk⟩
  | cons g gs =>
    obtain ⟨side, q, c⟩ := g
    obtain rfl : side = .right := hk.right _ List.mem_cons_self
    exact .inr ⟨gs, q, c, rfl, place_cons.mp hk.place,
      fun f hf => hk.right f (List.mem_cons_of_mem _ hf), hk.order, hk.stump, hk.edits⟩

theorem AtVine.length_lt {s' : Tree α} (h : AtVine s s' T fs x l rs) :
    rs.length < (inorder T).length := by
  rw [← h.order, (inorder_plug_perm _ _).length_eq]
  simp only [inorder_node, inorder_vine, List.length_append, List.length_cons]
  omega

theorem atVine_extreme {p : Ptr} {a b : BinaryTree Ptr} (hP : Place s.heap [] (join .right p a b)) :
    AtVine s s (join .right p a b) (extreme .right a p b).1 (extreme .right a p b).2.1
      (extreme .right a p b).2.2 [] := by
  have hlast := plug_extreme .right a p b
  refine ⟨?_, side_of_mem_extreme .right a p b, congrArg inorder hlast, rfl, Edits.refl _ _⟩
  have hplace := place_plug (h := s.heap)
    (t := node (extreme .right a p b).2.1 (extreme .right a p b).2.2 nil)
    (extreme .right a p b).1 []
  rw [List.append_nil] at hplace
  exact hplace.mpr ((congrArg (Place s.heap []) hlast).mpr hP)

/-- **The tree becomes a vine** in the order of the tree. -/
theorem wp_treeToVine (hP : Place s.heap [] T) (hroot : s.stump.root = root? T) (hT : T ≠ nil) :
    wp treeToVineWithPreserveInvariantsOnlyForMemberRight (fun y s' =>
      (inorder T).head? = some y ∧ Place s'.heap [] (vine (inorder T)) ∧ s'.stump = s.stump ∧
      Edits (inorder T) s.heap s'.heap) E s := by
  obtain ⟨p, a, b, rfl⟩ := exists_join .right hT
  unfold treeToVineWithPreserveInvariantsOnlyForMemberRight
  rw [wp_bind, wp_get, hroot, root?_join]
  dsimp only
  rw [wp_bind]
  refine wp_findExtreme .right hP ?_
  have hstart := atVine_extreme hP
  show wp (rounds (vineRound (rightRotate · false)) _) _ E s
  refine wp_rounds (I := fun n y s' => ∃ gs k rs,
    n + (rs.length + 1) = (inorder (join .right p a b)).length ∧
    AtVine s s' (join .right p a b) gs y k rs) ?_
    ((inorder (join .right p a b)).length - 1) ⟨_, _, [], ?_, hstart⟩ ?_
  · rintro n y s' ⟨gs, k, rs, hn, hk⟩
    refine (wp_vineRound hk).imp ?_
    rintro r s'' (⟨rfl, hk'⟩ | ⟨gs', q, c, rfl, hk'⟩)
    · have hvine : inorder (join .right p a b) = y :: rs := by
        rw [← hk'.order, plug, inorder_node, inorder_vine]
        rfl
      rw [hvine]
      exact ⟨rfl, hk'.place, hk'.stump, hvine ▸ hk'.edits⟩
    · have hlen := hk'.length_lt
      rw [List.length_cons] at hlen
      exact ⟨n - 1, by omega, gs', c, y :: rs, by rw [List.length_cons]; omega, hk'⟩
  · have hlen := hstart.length_lt
    rw [List.length_nil] at hlen ⊢
    omega
  · have := hP.numNodes_le
    rw [← length_inorder] at this
    omega

/-- A round of the walk along the vine. -/
def collectRound (end_ : Ptr) (s : Option Ptr × List Ptr) :
    Prog (Tree α) ε (Option Ptr × List Ptr ⊕ List Ptr) :=
  if s.1 = some end_ then pure (.inr s.2)
  else
    match s.1 with
    | none => stuck
    | some nodeGoingToList => do
      let current ← load nodeGoingToList TAvlTreeNode.right
      store nodeGoingToList TAvlTreeNode.resetInvariant
      pure (.inl (current, s.2 ++ [nodeGoingToList]))

/-- The walk in front of the elements `rest`: the nodes of `gone` are reset, and
those that remain are a vine. -/
structure Collecting (end_ : Ptr) (h : Heap α) (gone rest : List (Cell α)) : Prop where
  nodup : (nodes (gone ++ rest) ++ [end_]).Nodup
  live : ∀ y ∈ nodes (gone ++ rest) ++ [end_], y ∈ h.live
  vine : ∃ par, Linked h par (vine (nodes rest ++ [end_]))
  reset : CountOne h (nodes gone)

variable {gone rest : List (Cell α)} {d : Cell α} {end_ : Ptr}

theorem Collecting.ne_end {h : Heap α} (hC : Collecting end_ h gone (d :: rest)) :
    some d.1 ≠ some end_ := by
  intro he
  have hn := hC.nodup
  rw [nodes_append, nodes_cons, List.append_assoc, List.cons_append] at hn
  exact (List.nodup_cons.mp hn.of_append_right).1 (by simp [Option.some.inj he])

theorem Collecting.right {h : Heap α} (hC : Collecting end_ h gone (d :: rest)) :
    (h.node d.1).right = some (startOf end_ rest) := by
  obtain ⟨par, -, -, hright, -⟩ := hC.vine
  exact hright.trans ((root?_vine _).trans (head?_nodes_append end_ rest))

/-- The node in front is reset and goes to the list. -/
theorem Collecting.next {h : Heap α} (hC : Collecting end_ h gone (d :: rest)) :
    Collecting end_ (h.set d.1 TAvlTreeNode.resetInvariant) (gone ++ [d]) rest := by
  have hn := hC.nodup
  rw [nodes_append, nodes_cons, List.append_assoc, List.cons_append] at hn
  have hd := List.nodup_cons.mp hn.of_append_right
  obtain ⟨par, -, -, -, -, hrest⟩ := hC.vine
  have hsame : gone ++ d :: rest = gone ++ [d] ++ rest := List.append_cons ..
  refine ⟨hsame ▸ hC.nodup, hsame ▸ hC.live, ⟨some d.1, hrest.congr fun y hy => ?_⟩,
    fun y hy => ?_⟩
  · rw [inorder_vine] at hy
    exact Heap.node_set_of_ne (fun h : y = d.1 => hd.1 (h ▸ hy)) _ _
  · rw [nodes_append] at hy
    rcases List.mem_append.mp hy with hy | hy
    · have hne : y ≠ d.1 := fun he => (List.nodup_append'.mp hn).2.2 hy (by simp [he])
      rw [Heap.node_set_of_ne hne]
      exact hC.reset y hy
    · obtain rfl : y = d.1 := List.mem_singleton.mp hy
      rw [Heap.node_set_self]
      exact ⟨rfl, rfl⟩

/-- The nodes are as new: no links, and the numbers of a node alone. -/
def Fresh (h : Heap α) (ps : List Ptr) : Prop :=
  ∀ p ∈ ps, h.node p = TAvlTreeNode.make (h.node p).value

theorem Fresh.countOne {h : Heap α} {ps : List Ptr} (hf : Fresh h ps) : CountOne h ps := by
  intro p hp
  rw [hf p hp]
  exact ⟨rfl, rfl⟩

theorem Fresh.congr {h h' : Heap α} {ps : List Ptr} (hf : Fresh h ps)
    (hag : ∀ p ∈ ps, h'.node p = h.node p) : Fresh h' ps := by
  intro p hp
  rw [hag p hp]
  exact hf p hp

theorem Collecting.fresh_next {h : Heap α} (hC : Collecting end_ h gone (d :: rest))
    (hf : Fresh h (nodes gone)) :
    Fresh (h.set d.1 TAvlTreeNode.resetInvariant) (nodes (gone ++ [d])) := by
  have hn := hC.nodup
  rw [nodes_append, nodes_cons, List.append_assoc, List.cons_append] at hn
  have hother : Fresh (h.set d.1 TAvlTreeNode.resetInvariant) (nodes gone) := by
    apply hf.congr
    intro p hp
    have hne : p ≠ d.1 := fun he => (List.nodup_append'.mp hn).2.2 hp (by simp [he])
    exact Heap.node_set_of_ne hne _ _
  intro p hp
  rw [nodes_append] at hp
  rcases List.mem_append.mp hp with hp | hp
  · exact hother p hp
  · obtain rfl : p = d.1 := List.mem_singleton.mp hp
    rw [Heap.node_set_self]
    rfl

theorem wp_collectRound {s' : Tree α} (hC : Collecting end_ s'.heap gone (d :: rest)) :
    wp (collectRound end_ (some (startOf end_ (d :: rest)), nodes gone)) (fun r s'' =>
      r = .inl (some (startOf end_ rest), nodes (gone ++ [d])) ∧
      s'' = { s' with heap := s'.heap.set d.1 TAvlTreeNode.resetInvariant }) E s' := by
  have hlive : d.1 ∈ s'.heap.live := hC.live d.1 (by simp)
  unfold collectRound
  rw [startOf_cons, if_neg hC.ne_end]
  dsimp only
  rw [wp_bind, wp_load, hC.right]
  refine ⟨hlive, ?_⟩
  rw [wp_bind, wp_store, wp_pure, nodes_append]
  exact ⟨hlive, rfl, rfl⟩

theorem wp_collect_fresh {s' : Tree α} (hC : Collecting end_ s'.heap [] cells) :
    wp (rounds (collectRound end_) (some (startOf end_ cells), []))
      (fun x s'' => x = nodes cells ∧ s''.stump = s'.stump ∧
        Edits (nodes cells) s'.heap s''.heap ∧ Fresh s''.heap (nodes cells)) E s' := by
  refine wp_rounds (I := fun n c s'' => ∃ gone rest : List (Cell α), cells = gone ++ rest ∧
    n = rest.length ∧ c = (some (startOf end_ rest), nodes gone) ∧
    Collecting end_ s''.heap gone rest ∧ Fresh s''.heap (nodes gone) ∧ s''.stump = s'.stump ∧
    Edits (nodes cells) s'.heap s''.heap) ?_ cells.length
    ⟨[], cells, rfl, rfl, rfl, hC, fun _ hp => (nomatch hp), rfl, Edits.refl _ _⟩ ?_
  · rintro n c s'' ⟨gone, rest, rfl, rfl, rfl, hC', hf, hst, he⟩
    cases rest with
    | nil =>
      unfold collectRound
      rw [startOf_nil, if_pos rfl, wp_pure, List.append_nil]
      rw [List.append_nil] at he
      exact ⟨rfl, hst, he, hf⟩
    | cons d rest =>
      refine (wp_collectRound hC').imp ?_
      rintro r s₃ ⟨rfl, rfl⟩
      exact ⟨rest.length, Nat.lt_succ_self _, gone ++ [d], rest, by simp, rfl, rfl, hC'.next,
        hC'.fresh_next hf, hst, he.set (fun _ => rfl) (by simp)⟩
  · have := (List.subperm_of_subset hC.nodup hC.live).length_le
    simp only [nodes, List.nil_append, List.length_append, List.length_map, List.length_cons,
      List.length_nil] at this
    omega

theorem wp_collect {s' : Tree α} (hC : Collecting end_ s'.heap [] cells) :
    wp (rounds (collectRound end_) (some (startOf end_ cells), []))
      (fun x s'' => x = nodes cells ∧ s''.stump = s'.stump ∧
        Edits (nodes cells) s'.heap s''.heap ∧ CountOne s''.heap (nodes cells)) E s' :=
  (wp_collect_fresh hC).imp fun _ _ ⟨hx, hst, he, hf⟩ => ⟨hx, hst, he, hf.countOne⟩

theorem right_of_vine {h : Heap α} {x : Ptr} (xs : List Ptr) : ∀ {par : Option Ptr},
    Linked h par (Foundation.Zipper.vine (xs ++ [x])) → (h.node x).right = none := by
  induction xs with
  | nil => intro par hl; exact hl.2.2.1
  | cons y xs ih => intro par hl; exact ih hl.2.2.2.2

theorem collecting_of_holds {h : Heap α} (hH : Holds s cells)
    (hP : Place h [] (vine (own s.stump cells))) :
    Collecting s.stump.end_ h [] cells ∧
      (h.node s.stump.beforeBegin).right = some (startOf s.stump.end_ cells) := by
  have hlive := hP.live
  rw [keys, List.append_nil, inorder_vine] at hlive
  have hvine := hP.linked
  rw [own, vine] at hvine
  obtain ⟨-, -, hright, -, hrest⟩ := hvine
  refine ⟨⟨(List.nodup_cons.mp hH.nodup).2, fun y hy => hlive y (List.mem_cons_of_mem _ hy),
    ⟨_, hrest⟩, fun _ hp => by cases hp⟩, ?_⟩
  rw [hright, root?_vine, head?_nodes_append]

/-- **`moveNodes` takes all elements out, in order**, and leaves an empty list. -/
theorem wp_moveNodes_fresh (hH : Holds s cells) :
    wp moveNodes (fun x s' => x = nodes cells ∧ Holds s' [] ∧ SameEnds s.stump s'.stump ∧
      Edits (own s.stump cells) s.heap s'.heap ∧ Fresh s'.heap (nodes cells)) E s := by
  obtain ⟨T, hR, hT⟩ := hH.tree
  have hne : T ≠ nil := by
    rintro rfl
    cases hT
  have hn := hH.nodup
  unfold moveNodes
  rw [wp_bind]
  refine (wp_treeToVine hR.settled.toPlace hR.root hne).imp ?_
  rw [hT]
  rintro y s' ⟨hy, hP, hst, he⟩
  obtain rfl : s.stump.beforeBegin = y := Option.some.inj hy
  obtain ⟨hC, hright⟩ := collecting_of_holds hH hP
  rw [wp_bind, wp_get, wp_bind, wp_load, hright]
  refine ⟨he.live ▸ hH.live _ (by simp [own]), ?_⟩
  rw [wp_bind, hst]
  refine (wp_collect_fresh hC).imp ?_
  rintro x s'' ⟨rfl, hst', he', hf⟩
  rw [wp_bind]
  have hends : SameEnds s.stump s''.stump := by rw [hst', hst]; exact ⟨rfl, rfl⟩
  have hlive : s''.heap.live = s.heap.live := he'.live.trans he.live
  refine (wp_resetInvariant ?_ ?_ ?_).imp ?_
  · rw [hends.1, hends.2]
    exact fun h => (List.nodup_cons.mp hn).1 (by simp [h])
  · rw [hends.1, hlive]
    exact hH.live _ (by simp [own])
  · rw [hends.2, hlive]
    exact hH.live _ (by simp [own])
  · rintro _ s₃ ⟨hH₃, hends', he₃⟩
    rw [wp_pure]
    refine ⟨rfl, hH₃, hends.trans hends', he.trans ((he'.mono ?_).trans (he₃.mono ?_)),
      hf.congr fun z hz => ?_⟩
    · exact fun z hz => List.mem_cons_of_mem _ (List.mem_append_left _ hz)
    · rw [hends.own_eq]
      exact own_subset (List.nil_subset _)
    · exact he₃.node z (by rw [hends.own_eq]; exact hH.apart z hz)

theorem wp_moveNodes (hH : Holds s cells) :
    wp moveNodes (fun x s' => x = nodes cells ∧ Holds s' [] ∧ SameEnds s.stump s'.stump ∧
      Edits (own s.stump cells) s.heap s'.heap ∧ CountOne s'.heap (nodes cells)) E s :=
  (wp_moveNodes_fresh hH).imp fun _ _ ⟨hx, hH', hends, he, hf⟩ => ⟨hx, hH', hends, he, hf.countOne⟩

end AvlTreeStump

end Garbage.RandomAccessList
