import Garbage.RandomAccessList.Refinement

/-!
# Iterators stay

An element is a node with its value, an iterator is the node.  `erased` are the
nodes an operation takes out, and an element `Survives` a run in which no
operation erases it.  Under stable operations, those on one list and `swap`,
every element that survives stays in its list, in its node and with its value,
and the gap nodes of the list stay too.  If nothing is reversed or sorted, the
survivors also keep their order (`iterators_stable`).
-/

namespace Garbage.RandomAccessList

open Foundation (Prog Machine)
open Foundation.Prog
open AvlTreeStump

variable {α : Type} {w : World α} {e : Nat → Option (Entry α)} {cells cells' : List (Cell α)}

/-- The elements of a list read off the memory: its nodes without the gap nodes,
and their values. -/
def Tree.elements (t : Tree α) : List (Cell α) :=
  (inorderOf t).tail.dropLast.filterMap fun p => (t.heap.node p).value.map fun v => (p, v)

/-- The elements of a list variable. -/
def World.elements (w : World α) (l : Nat) : List (Cell α) :=
  match w.lists l with
  | none => []
  | some stump => Tree.elements ⟨w.heap, stump⟩

theorem Holds.elements_eq {t : Tree α} (hH : Holds t cells) : t.elements = cells := by
  have hcells : ∀ cs : List (Cell α), (∀ c ∈ cs, (t.heap.node c.1).value = some c.2) →
      ((nodes cs).filterMap fun p => (t.heap.node p).value.map fun v => (p, v)) = cs := by
    intro cs hcs
    induction cs with
    | nil => rfl
    | cons c cs ih =>
      rw [nodes_cons, List.filterMap_cons, hcs c List.mem_cons_self]
      exact congrArg (c :: ·) (ih fun d hd => hcs d (List.mem_cons_of_mem _ hd))
  rw [Tree.elements, hH.inorderOf_eq, own, List.tail_cons, List.dropLast_concat]
  exact hcells cells hH.values

theorem World.Holds.elements_eq (hw : w.Holds e) (l : Nat) :
    w.elements l = (contents e l).getD [] := by
  unfold World.elements contents
  rw [hw.lists]
  dsimp only
  cases he : e l with
  | none => rfl
  | some x => exact (hw.owns.holds l x he).elements_eq

theorem World.Holds.elements_of_entry (hw : w.Holds e) {stump : AvlTreeStump}
    {cells : List (Cell α)} (hl : e l = some (stump, cells)) : w.elements l = cells := by
  rw [hw.elements_eq, contents, hl]
  rfl

/-! ### What is erased -/

namespace ListOp

/-- The nodes that an operation takes out of a list of `xs`. -/
def erased (xs : List (Cell α)) : ListOp α → List Ptr
  | erase pos => nodes ((xs.drop pos).take 1)
  | eraseRange first last => nodes ((xs.take last).drop first)
  | clear => nodes xs
  | unique p => (nodes xs).filter fun x => x ∉ nodes (uniqueList (fun a b => p a.2 b.2) xs)
  | _ => []

/-- All operations but `reverse` and `sort`. -/
def KeepsOrder : ListOp α → Prop
  | reverse => False
  | sort _ => False
  | _ => True

/-- What stays when a middle part is taken out. -/
theorem filter_erased (ca cm cb : List (Cell α)) :
    ((ca ++ cm ++ cb).filter fun c => c.1 ∉ nodes cm).Sublist (ca ++ cb) := by
  rw [List.filter_append, List.filter_append]
  have hmid : (cm.filter fun c => c.1 ∉ nodes cm) = [] := by
    rw [List.filter_eq_nil_iff]
    intro c hc
    simp [fst_mem_nodes hc]
  rw [hmid, List.append_nil]
  exact List.filter_sublist.append List.filter_sublist

/-- A part of a list of different nodes, picked out by its nodes. -/
theorem filter_of_sublist {xs ys : List (Cell α)} (h : ys.Sublist xs) (hn : (nodes xs).Nodup) :
    (xs.filter fun c => c.1 ∈ nodes ys) = ys := by
  induction h with
  | slnil => rfl
  | @cons ys xs c h ih =>
    obtain ⟨hc, hn'⟩ := List.nodup_cons.mp hn
    have hcy : c.1 ∉ nodes ys := fun hm => hc ((h.map Prod.fst).subset hm)
    rw [List.filter_cons_of_neg (by simpa using hcy), ih hn']
  | @cons_cons ys xs c h ih =>
    obtain ⟨hc, hn'⟩ := List.nodup_cons.mp hn
    rw [List.filter_cons_of_pos (by simp), List.cons_inj_right]
    refine Eq.trans (List.filter_congr fun d hd => ?_) (ih hn')
    have hdc : d.1 ≠ c.1 := fun he => hc (he ▸ fst_mem_nodes hd)
    simp [hdc]

/-- **What an operation does not erase keeps its order.** -/
theorem sublist_list {op : ListOp α} (hop : op.KeepsOrder) (hv : op.Valid cells.length)
    (hn : (nodes cells).Nodup) (news : List (Cell α)) :
    (cells.filter fun c => c.1 ∉ op.erased cells).Sublist (op.list Prod.snd news cells) := by
  have hinsert : ∀ pos, cells.Sublist (cells.take pos ++ news ++ cells.drop pos) := by
    intro pos
    have h := (List.Sublist.refl (cells.take pos)).append
      ((List.sublist_append_right news (cells.drop pos)))
    rwa [List.take_append_drop, ← List.append_assoc] at h
  cases op with
  | emplace pos value => exact List.filter_sublist.trans (hinsert pos)
  | insertCount pos count value => exact List.filter_sublist.trans (hinsert pos)
  | insertRange pos values => exact List.filter_sublist.trans (hinsert pos)
  | erase pos =>
    have h := filter_erased (cells.take pos) ((cells.drop pos).take 1) (cells.drop (pos + 1))
    rwa [List.append_assoc, ← List.drop_drop, List.take_append_drop, List.take_append_drop,
      List.drop_drop] at h
  | eraseRange first last =>
    obtain ⟨ca, cm, cb, rfl, rfl, rfl⟩ := exists_range hv.1 hv.2
    have h := filter_erased ca cm cb
    rw [erased, list, List.take_left, List.drop_left, List.drop_left, List.append_assoc,
      List.take_left, ← List.append_assoc]
    exact h
  | clear =>
    have h := filter_erased [] cells []
    rwa [List.nil_append, List.append_nil] at h
  | reverse => exact hop.elim
  | sort comp => exact hop.elim
  | unique p =>
    have hsub := uniqueList_sublist (fun a b : Cell α => p a.2 b.2) cells
    have hfilter : (cells.filter fun c => c.1 ∉ (unique p).erased cells) =
        cells.filter fun c => c.1 ∈ nodes (uniqueList (fun a b => p a.2 b.2) cells) := by
      refine List.filter_congr fun c hc => ?_
      simp [erased, fst_mem_nodes hc]
    rw [hfilter, filter_of_sublist hsub hn]
    exact List.Sublist.refl _

/-- **What an operation does not erase stays.** -/
theorem mem_list {op : ListOp α} (hv : op.Valid cells.length) (hn : (nodes cells).Nodup)
    (news : List (Cell α)) {c : Cell α} (hc : c ∈ cells) (hkept : c.1 ∉ op.erased cells) :
    c ∈ op.list Prod.snd news cells := by
  have hord : op.KeepsOrder → c ∈ op.list Prod.snd news cells := fun hop =>
    (sublist_list hop hv hn news).subset (List.mem_filter.mpr ⟨hc, by simpa using hkept⟩)
  cases op with
  | reverse => exact List.mem_reverse.mpr hc
  | sort comp => exact (List.mergeSort_perm _ _).mem_iff.mpr hc
  | _ => exact hord trivial

end ListOp

namespace Op

/-- The nodes that an operation takes out of its list. -/
def erased (w : World α) : Op α → List Ptr
  | on l op => op.erased (w.elements l)
  | _ => []

def KeepsOrder : Op α → Prop
  | on _ op => op.KeepsOrder
  | _ => True

/-- Where the tree of `l` is after some operations. -/
def trackAll (ops : List (Op α)) (l : Nat) : Nat := ops.foldl (fun k op => op.track k) l

/-- **A stable step** keeps what it does not erase. -/
theorem Done.kept {op : Op α} {w' : World α} (hdone : op.Done w e w') (hw : w.Holds e)
    (hv : op.Valid w.sizes) (hop : op.Stable) {l : Nat} {x : Entry α} (hl : e l = some x) :
    ∃ e' x', w'.Holds e' ∧ e' (op.track l) = some x' ∧ SameEnds x.1 x'.1 ∧
      (∀ c ∈ x.2, c.1 ∉ op.erased w → c ∈ x'.2) ∧
      (op.KeepsOrder → (x.2.filter fun c => c.1 ∉ op.erased w).Sublist x'.2) := by
  obtain ⟨news, e', -, -, hw', he', hends⟩ := hdone
  obtain ⟨x', hx', hends'⟩ := hends hop l x hl
  refine ⟨e', x', hw', hx', hends', ?_⟩
  have hcontents : (contents e' (op.track l)) = some x'.2 := congrArg (Option.map Prod.snd) hx'
  have hcl : contents e l = some x.2 := congrArg (Option.map Prod.snd) hl
  rw [he'] at hcontents
  -- a list the operation does not work on
  have hsame : x.2 = x'.2 → (∀ c ∈ x.2, c.1 ∉ op.erased w → c ∈ x'.2) ∧
      (op.KeepsOrder → (x.2.filter fun c => c.1 ∉ op.erased w).Sublist x'.2) :=
    fun heq => ⟨fun c hc _ => heq ▸ hc, fun _ => heq ▸ List.filter_sublist⟩
  cases op with
  | on k op =>
    by_cases hlk : l = k
    · subst hlk
      have hlist : op.list Prod.snd news x.2 = x'.2 := by
        have h : lists Prod.snd news (contents e) (on l op) l = some x'.2 := hcontents
        rw [lists, Function.update_self, hcl] at h
        exact Option.some.inj h
      have herased : (on l op).erased w = op.erased x.2 := by
        rw [erased, hw.elements_eq, hcl, Option.getD_some]
      have hn : (nodes x.2).Nodup :=
        (List.nodup_cons.mp (hw.owns.holds l x hl).nodup).2.of_append_left
      obtain ⟨n, hn', hop'⟩ := hv
      have hsize : n ∈ (contents e l).map List.length := by
        rw [hw.sizes_eq] at hn'
        exact hn'
      rw [hcl] at hsize
      have hvalid : op.Valid x.2.length := Option.some.inj hsize ▸ hop'
      rw [← hlist, herased]
      exact ⟨fun c hc hkept => op.mem_list hvalid hn news hc hkept,
        fun hord => op.sublist_list hord hvalid hn news⟩
    · have h : lists Prod.snd news (contents e) (on k op) l = some x'.2 := hcontents
      rw [lists, Function.update_of_ne hlk, hcl] at h
      exact hsame (Option.some.inj h)
  | swap k other =>
    refine hsame ?_
    have hswap : contents e (Equiv.swap k other (Equiv.swap k other l)) = some x'.2 := hcontents
    rw [Equiv.swap_apply_self, hcl] at hswap
    exact Option.some.inj hswap
  | _ => exact hop.elim

end Op

/-! ### Runs -/

/-- No step of the run of `ops` from `w` erases the node `p`. -/
def Survives (alloc : Allocator) (w : World α) (ops : List (Op α)) (p : Ptr) : Prop :=
  (machine alloc).AllSteps (fun w op => p ∉ op.erased w) w ops

theorem Holds.dereference {t : Tree α} (hH : Holds t cells) {c : Cell α} (hc : c ∈ cells) :
    (Container.dereference c.1 : Prog (Tree α) Empty α) t = some (.ok c.2, t) :=
  eq_of_wp (Container.wp_dereference hH hc ⟨rfl, rfl⟩)

theorem World.Holds.of_reachable {alloc : Allocator} (hw : (machine alloc).Reachable w) :
    ∃ e, w.Holds e := by
  refine Machine.ReachableBy.invariant (I := fun w => ∃ e, World.Holds w e) ?_ ?_ hw
  · intro w hw
    exact ⟨_, World.holds_of_init hw⟩
  · rintro w op w' ⟨e, hw⟩ - hn
    obtain ⟨news, e', -, -, hw', -⟩ := op.done_of_next hw hn
    exact ⟨e', hw'⟩

/-- A run of stable operations keeps what survives it. -/
theorem run_kept {alloc : Allocator} (ops : List (Op α)) :
    ∀ {w w' : World α} {e : Nat → Option (Entry α)} {l : Nat} {x : Entry α}, w.Holds e →
      (∀ op ∈ ops, op.Stable) → (machine alloc).run w ops = some w' → e l = some x →
      ∃ e' x', w'.Holds e' ∧ e' (Op.trackAll ops l) = some x' ∧ SameEnds x.1 x'.1 ∧
        (∀ c ∈ x.2, Survives alloc w ops c.1 → c ∈ x'.2) ∧
        ((∀ op ∈ ops, op.KeepsOrder) → ∀ c d, [c, d].Sublist x.2 → Survives alloc w ops c.1 →
          Survives alloc w ops d.1 → [c, d].Sublist x'.2) := by
  induction ops with
  | nil =>
    intro w w' e l x hw _ hr hl
    obtain rfl := Option.some.inj hr
    exact ⟨e, x, hw, hl, ⟨rfl, rfl⟩, fun c hc _ => hc, fun _ c d hcd _ _ => hcd⟩
  | cons op ops ih =>
    intro w w' e l x hw hops hr hl
    obtain ⟨w₁, hn, hr⟩ := Option.bind_eq_some_iff.mp hr
    have hdone := op.done_of_next hw hn
    obtain ⟨e₁, x₁, hw₁, hl₁, hends₁, hmem₁, hord₁⟩ :=
      hdone.kept hw (op.valid_of_next hn) (hops op List.mem_cons_self) hl
    obtain ⟨e', x', hw', hl', hends', hmem', hord'⟩ :=
      ih hw₁ (fun op hop => hops op (List.mem_cons_of_mem _ hop)) hr hl₁
    refine ⟨e', x', hw', hl', hends₁.trans hends', fun c hc hs => ?_, fun hord c d hcd hc hd => ?_⟩
    · exact hmem' c (hmem₁ c hc hs.1) (hs.2 w₁ hn)
    · refine hord' (fun op hop => hord op (List.mem_cons_of_mem _ hop)) c d ?_
        (hc.2 w₁ hn) (hd.2 w₁ hn)
      have hkept := (hcd.filter fun c => c.1 ∉ op.erased w).trans
        (hord₁ (hord op List.mem_cons_self))
      have hfilter : ([c, d].filter fun c => c.1 ∉ op.erased w) = [c, d] := by
        rw [List.filter_eq_self]
        intro a ha
        rcases List.mem_cons.mp ha with rfl | ha
        · simpa using hc.1
        · rw [List.mem_singleton.mp ha]
          simpa using hd.1
      rwa [hfilter] at hkept

/-- **Iterators are stable.**  In a reachable world, a run of operations on single
lists and of swaps keeps the gap nodes of every list, wherever its tree goes.
An element that the run does not erase stays in its list, and an iterator to its
node still reads its value.  Two such elements keep their order if no operation
reverses or sorts. -/
theorem iterators_stable (alloc : Allocator) {w w' : World α} (hw : (machine alloc).Reachable w)
    (ops : List (Op α)) (hops : ∀ op ∈ ops, op.Stable)
    (hr : (machine alloc).run w ops = some w') {l : Nat} {stump : AvlTreeStump}
    (hl : w.lists l = some stump) :
    ∃ stump', w'.lists (Op.trackAll ops l) = some stump' ∧
      stump'.end_ = stump.end_ ∧ stump'.beforeBegin = stump.beforeBegin ∧
      (∀ c ∈ Tree.elements ⟨w.heap, stump⟩, Survives alloc w ops c.1 →
        c ∈ Tree.elements ⟨w'.heap, stump'⟩ ∧
        (Container.dereference c.1 : Prog (Tree α) Empty α) ⟨w'.heap, stump'⟩ =
          some (.ok c.2, ⟨w'.heap, stump'⟩)) ∧
      ((∀ op ∈ ops, op.KeepsOrder) → ∀ c d, [c, d].Sublist (Tree.elements ⟨w.heap, stump⟩) →
        Survives alloc w ops c.1 → Survives alloc w ops d.1 →
        [c, d].Sublist (Tree.elements ⟨w'.heap, stump'⟩)) := by
  obtain ⟨e, hw⟩ := World.Holds.of_reachable hw
  obtain ⟨x, hx, hxs⟩ : ∃ x, e l = some x ∧ x.1 = stump := by
    rw [hw.lists] at hl
    exact Option.map_eq_some_iff.mp hl
  subst hxs
  obtain ⟨e', x', hw', hx', hends, hmem, hord⟩ := run_kept ops hw hops hr hx
  have hH : Holds ⟨w.heap, x.1⟩ x.2 := hw.owns.holds l x hx
  have hH' : Holds ⟨w'.heap, x'.1⟩ x'.2 := hw'.owns.holds _ x' hx'
  refine ⟨x'.1, hw'.lists_eq hx', hends.2, hends.1, ?_, ?_⟩
  · rw [hH.elements_eq, hH'.elements_eq]
    intro c hc hs
    exact ⟨hmem c hc hs, hH'.dereference (hmem c hc hs)⟩
  · rw [hH.elements_eq, hH'.elements_eq]
    exact hord

/-- The middle one of three elements is erased, and the lists are swapped: the
other two stay in their nodes. -/
theorem iterators_stable_erase : ∃ (w w' : World Nat) (a b : Ptr) (stump stump' : AvlTreeStump),
    (machine bumpAllocator).run ⟨emptyHeap Nat, fun _ => none⟩
      [.create 0, .create 1, .on 0 (.insertRange 0 [5, 6, 7])] = some w ∧
    (machine bumpAllocator).run w [.on 0 (.erase 1), .swap 0 1] = some w' ∧
    w.lists 0 = some stump ∧ w'.lists 1 = some stump' ∧ stump'.end_ = stump.end_ ∧
    [(a, 5), (b, 7)].Sublist (Tree.elements ⟨w.heap, stump⟩) ∧
    [(a, 5), (b, 7)].Sublist (Tree.elements ⟨w'.heap, stump'⟩) := by
  have hinit : (machine bumpAllocator).init (⟨emptyHeap Nat, fun _ => none⟩ : World Nat) :=
    fun _ => rfl
  obtain ⟨w, e, hr, hw, he⟩ := run_holds bumpAllocator
    [.create 0, .create 1, .on 0 (.insertRange 0 [5, 6, 7])] (World.holds_of_init hinit) rfl
  obtain ⟨x, hx, hvalues⟩ : ∃ x, e 0 = some x ∧ x.2.map Prod.snd = [5, 6, 7] := by
    have h : some [5, 6, 7] = (contents e 0).map (List.map Prod.snd) := congrFun he 0
    unfold contents at h
    cases hx : e 0 with
    | none => rw [hx] at h; cases h
    | some x => rw [hx] at h; exact ⟨x, rfl, (Option.some.inj h).symm⟩
  obtain ⟨⟨a, va⟩, ⟨m, vm⟩, ⟨b, vb⟩, hcells⟩ : ∃ a m b, x.2 = [a, m, b] :=
    List.length_eq_three.mp (by simpa using congrArg List.length hvalues)
  rw [hcells] at hvalues
  obtain ⟨rfl, rfl, rfl⟩ : va = 5 ∧ vm = 6 ∧ vb = 7 := by simpa using hvalues
  have hH : Holds ⟨w.heap, x.1⟩ x.2 := hw.owns.holds 0 x hx
  have hn : ([a, m, b] : List Ptr).Nodup := by
    have h := (List.nodup_cons.mp hH.nodup).2.of_append_left
    rwa [hcells] at h
  obtain ⟨ham, hmb⟩ : a ≠ m ∧ b ≠ m := by
    simp only [List.nodup_cons, List.mem_cons, not_or] at hn
    exact ⟨hn.1.1, fun h => hn.2.1.1 h.symm⟩
  have hvalid : ∃ m, (plain Nat).run (fun l => (contents e l).map (List.map Prod.snd))
      [.on 0 (.erase 1), .swap 0 1] = some m := by
    rw [← he]
    exact ⟨_, rfl⟩
  obtain ⟨_, hvalid⟩ := hvalid
  obtain ⟨w', -, hr', -, -⟩ := run_holds bumpAllocator [.on 0 (.erase 1), .swap 0 1] hw hvalid
  have herased : (Op.on 0 (.erase 1)).erased w = [m] := by
    rw [Op.erased, hw.elements_eq, contents, hx, Option.map_some, Option.getD_some, hcells]
    rfl
  have hsurvives : ∀ p, p ≠ m →
      Survives bumpAllocator w [.on 0 (.erase 1), .swap 0 1] p := by
    intro p hp
    refine ⟨?_, fun _ _ => ⟨List.not_mem_nil, fun _ _ => trivial⟩⟩
    show p ∉ (Op.on 0 (.erase 1)).erased w
    rw [herased]
    exact fun hm => hp (List.mem_singleton.mp hm)
  obtain ⟨stump', hl', hends, -, -, hord⟩ := iterators_stable bumpAllocator
    (Machine.Reachable.run (.init hinit) hr) [.on 0 (.erase 1), .swap 0 1]
    (by simp [Op.Stable]) hr' (hw.lists_eq hx)
  have hsub : [(a, 5), (b, 7)].Sublist (Tree.elements ⟨w.heap, x.1⟩) := by
    rw [hH.elements_eq, hcells]
    exact ((List.Sublist.refl [(b, 7)]).cons (m, 6)).cons_cons (a, 5)
  exact ⟨w, w', a, b, x.1, stump', hr, hr', hw.lists_eq hx, hl', hends, hsub,
    hord (by simp [Op.KeepsOrder, ListOp.KeepsOrder]) _ _ hsub (hsurvives a ham)
      (hsurvives b hmb)⟩

end Garbage.RandomAccessList
