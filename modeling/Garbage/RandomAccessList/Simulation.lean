import Garbage.RandomAccessList.Calls
import Garbage.RandomAccessList.Ownership

/-!
# The program does what the plain lists do

`World.Holds w e`: the list variables of `w` hold what `e` says.  Every valid
operation ends without getting stuck, in a world that holds what the same
operation makes of the plain lists of nodes and values (`Op.wp_exec`).
-/

namespace Garbage.RandomAccessList

open Foundation (Prog Machine)
open Foundation.Prog
open AvlTreeStump

variable {α ε : Type}

/-! ### One list -/

theorem exists_split {γ : Type} {xs : List γ} {pos : Nat} (h : pos ≤ xs.length) :
    ∃ ca cb, xs = ca ++ cb ∧ ca.length = pos :=
  ⟨xs.take pos, xs.drop pos, (List.take_append_drop pos xs).symm, List.length_take_of_le h⟩

theorem exists_range {γ : Type} {xs : List γ} {first last : Nat} (h : first ≤ last)
    (h' : last ≤ xs.length) : ∃ ca cm cb, xs = ca ++ cm ++ cb ∧ ca.length = first ∧
      (ca ++ cm).length = last := by
  obtain ⟨cab, cb, rfl, rfl⟩ := exists_split h'
  obtain ⟨ca, cm, rfl, rfl⟩ := exists_split h
  exact ⟨ca, cm, cb, rfl, rfl, rfl⟩

/-- An iterator of the program to a position. -/
theorem Container.wp_iteratorAt {E : ε → Tree α → Prop} {s : Tree α} {ca cb : List (Cell α)}
    {pos : Nat} {Q : Ptr → Tree α → Prop} (hH : Holds s (ca ++ cb)) (hpos : ca.length = pos)
    (hQ : Q (startOf s.stump.end_ cb) s) : wp (Container.iteratorAt pos) Q E s := by
  rw [← Implementation.released_iteratorAt 0 pos]
  exact (released_sound 0).wp_iteratorAt hH hpos hQ

namespace ListOp

variable {this : Implementation α ε} {moves : Prop} {E : ε → Tree α → Prop} {s : Tree α}
  {cells : List (Cell α)}

/-- An operation that puts elements in at an iterator. -/
theorem wp_insertion (hS : this.Sound moves) {pos : Nat}
    {insertion : Ptr → Prog (Tree α) ε Ptr} {values : List α}
    (hH : Holds s cells) (hpos : pos ≤ cells.length)
    (hinsertion : ∀ ca cb, Holds s (ca ++ cb) → wp (insertion (startOf s.stump.end_ cb))
      (fun _ s' => ∃ news : List (Cell α), news.map Prod.snd = values ∧
        (∀ c ∈ news, c.1 ∉ s.heap.live) ∧ Changed s s' (ca ++ cb) (ca ++ news ++ cb)) E s) :
    wp (do
      let it ← this.iteratorAt pos
      let _ ← insertion it
      pure PUnit.unit) (fun _ s' => ∃ news : List (Cell α), news.map Prod.snd = values ∧
        (∀ c ∈ news, c.1 ∉ s.heap.live) ∧
        Changed s s' cells (cells.take pos ++ news ++ cells.drop pos)) E s := by
  obtain ⟨ca, cb, rfl, rfl⟩ := exists_split hpos
  rw [wp_bind]
  refine hS.wp_iteratorAt hH rfl ?_
  rw [wp_bind]
  refine (hinsertion ca cb hH).imp ?_
  rintro _ s' ⟨news, hvalues, hnew, hC⟩
  rw [wp_pure, List.take_left, List.drop_left]
  exact ⟨news, hvalues, hnew, hC⟩

/-- An operation that puts nothing in. -/
theorem wp_without {x : Prog (Tree α) ε PUnit} (cells' : List (Cell α))
    (hx : wp x (fun _ s' => Changed s s' cells cells') E s) :
    wp x (fun _ s' => ∃ news : List (Cell α), news.map Prod.snd = [] ∧
      (∀ c ∈ news, c.1 ∉ s.heap.live) ∧ Changed s s' cells cells') E s :=
  hx.imp fun _ _ hC => ⟨[], rfl, fun _ hc => (nomatch hc), hC⟩

/-- **Every valid operation on a list** changes it as it changes a plain list. -/
theorem wp_execListOp (hS : this.Sound moves) (alloc : Allocator) (op : ListOp α)
    (hH : Holds s cells) (hv : op.Valid cells.length) :
    wp (this.execListOp alloc op)
      (fun _ s' => ∃ news : List (Cell α), news.map Prod.snd = op.values ∧
        (∀ c ∈ news, c.1 ∉ s.heap.live) ∧
        Changed s s' cells (op.list Prod.snd news cells)) E s := by
  cases op with
  | emplace pos value =>
    refine wp_insertion hS hH hv fun ca cb hH => ?_
    refine (hS.wp_emplace alloc value hH).imp ?_
    rintro p s' ⟨hp, hC⟩
    refine ⟨[(p, value)], rfl, fun c hc => ?_, by simpa using hC⟩
    rw [List.mem_singleton.mp hc]
    exact hp
  | insertCount pos count value =>
    refine wp_insertion hS hH hv fun ca cb hH => ?_
    refine (hS.wp_insertRange alloc (List.replicate count value) hH).imp ?_
    rintro x s' ⟨news, hvalues, hnew, -, hC⟩
    exact ⟨news, hvalues, hnew, hC⟩
  | insertRange pos values =>
    refine wp_insertion hS hH hv fun ca cb hH => ?_
    refine (hS.wp_insertRange alloc values hH).imp ?_
    rintro x s' ⟨news, hvalues, hnew, -, hC⟩
    exact ⟨news, hvalues, hnew, hC⟩
  | erase pos =>
    refine wp_without (cells.take pos ++ cells.drop (pos + 1)) ?_
    obtain ⟨ca, cb, rfl, rfl⟩ := exists_split (Nat.le_of_lt hv)
    cases cb with
    | nil => exact absurd hv (by simp [Valid])
    | cons c cb =>
      rw [Implementation.execListOp, wp_bind]
      refine hS.wp_iteratorAt hH rfl ?_
      rw [wp_bind]
      refine (hS.wp_erase (v := c.2) hH).imp ?_
      rintro _ s' ⟨-, hC⟩
      rw [wp_pure, List.take_left]
      simpa using hC
  | eraseRange first last =>
    refine wp_without (cells.take first ++ cells.drop last) ?_
    obtain ⟨ca, cm, cb, rfl, rfl, rfl⟩ := exists_range hv.1 hv.2
    rw [Implementation.execListOp, wp_bind]
    refine hS.wp_iteratorAt (by rwa [List.append_assoc] at hH) rfl ?_
    rw [wp_bind]
    refine hS.wp_iteratorAt hH rfl ?_
    rw [wp_bind]
    refine (hS.wp_eraseRange hH).imp ?_
    rintro _ s' ⟨-, hC⟩
    rw [wp_pure, List.drop_left, List.append_assoc, List.take_left]
    exact List.append_assoc ca cm cb ▸ hC
  | clear => exact wp_without _ (hS.wp_clear hH)
  | reverse => exact wp_without _ (hS.wp_reverse hH)
  | sort comp => exact wp_without _ (hS.wp_sort comp hH)
  | unique p => exact wp_without _ (hS.wp_unique p hH)

/-- **Every valid operation on a list** of the program. -/
theorem wp_exec (alloc : Allocator) (op : ListOp α) (hH : Holds s cells)
    (hv : op.Valid cells.length) :
    wp (op.exec alloc) (fun _ s' => ∃ news : List (Cell α), news.map Prod.snd = op.values ∧
      (∀ c ∈ news, c.1 ∉ s.heap.live) ∧
      Changed s s' cells (op.list Prod.snd news cells)) E s := by
  rw [← Implementation.released_execListOp alloc 0 op]
  exact wp_execListOp (released_sound 0) alloc op hH hv

end ListOp

/-! ### All lists -/

def contents (e : Nat → Option (Entry α)) (l : Nat) : Option (List (Cell α)) :=
  (e l).map Prod.snd

/-- The list variables of a world hold what `e` says. -/
structure World.Holds (w : World α) (e : Nat → Option (Entry α)) : Prop where
  owns : Owns w.heap e
  lists : w.lists = fun l => (e l).map Prod.fst

variable {w : World α} {e : Nat → Option (Entry α)} {l : Nat} {stump : AvlTreeStump}
  {cells : List (Cell α)}

theorem World.Holds.lists_eq (hw : w.Holds e) (hl : e l = some (stump, cells)) :
    w.lists l = some stump := by
  rw [hw.lists]
  exact congrArg (Option.map Prod.fst) hl

theorem World.Holds.holds (hw : w.Holds e) (hl : e l = some (stump, cells)) :
    RandomAccessList.Holds ⟨w.heap, stump⟩ cells := hw.owns.holds l _ hl

theorem World.Holds.exists_entry (hw : w.Holds e) (hl : (w.lists l).isSome) :
    ∃ stump cells, e l = some (stump, cells) := by
  rw [hw.lists, Option.isSome_map] at hl
  obtain ⟨x, hx⟩ := Option.isSome_iff_exists.mp hl
  exact ⟨x.1, x.2, hx⟩

theorem World.Holds.disjoint {other : Nat} {so : AvlTreeStump} {co : List (Cell α)}
    (hw : w.Holds e) (hne : l ≠ other) (hl : e l = some (stump, cells))
    (hother : e other = some (so, co)) : cells.Disjoint co := by
  intro c hc hc'
  have hd := hw.owns.disjoint l other hne
  rw [hl, hother] at hd
  exact hd (fst_mem_own stump hc) (fst_mem_own so hc')

theorem lists_update (hw : w.Holds e) (l : Nat) (o : Option (Entry α)) :
    Function.update w.lists l (o.map Prod.fst) =
      fun k => (Function.update e l o k).map Prod.fst := by
  rw [hw.lists]
  exact (Op.map_update e l o).symm

theorem contents_update (e : Nat → Option (Entry α)) (l : Nat) (o : Option (Entry α)) :
    contents (Function.update e l o) = Function.update (contents e) l (o.map Prod.snd) :=
  Op.map_update e l o

theorem exists_entry {n : Nat} (h : n ∈ (contents e l).map List.length) :
    ∃ stump cells, e l = some (stump, cells) ∧ cells.length = n := by
  cases he : e l with
  | none => rw [contents, he] at h; cases h
  | some x =>
    rw [contents, he] at h
    exact ⟨x.1, x.2, rfl, Option.some.inj h⟩

theorem exists_entry_of_isSome (h : ((contents e l).map List.length).isSome) :
    ∃ stump cells, e l = some (stump, cells) := by
  obtain ⟨n, hn⟩ := Option.isSome_iff_exists.mp h
  obtain ⟨stump, cells, he, -⟩ := exists_entry hn
  exact ⟨stump, cells, he⟩

namespace Op

variable {this : Implementation α ε} {moves : Prop} {E : ε → World α → Prop}

/-- What an operation leaves: the lists hold what it makes of the plain lists,
with nodes for the new elements, and a stable operation keeps the gap nodes. -/
def Done (op : Op α) (w : World α) (e : Nat → Option (Entry α)) (w' : World α) : Prop :=
  ∃ (news : List (Cell α)) (e' : Nat → Option (Entry α)), news.map Prod.snd = op.values ∧
    (∀ c ∈ news, c.1 ∉ w.heap.live) ∧ w'.Holds e' ∧
    contents e' = op.lists Prod.snd news (contents e) ∧
    (op.Stable → ∀ l x, e l = some x → ∃ x', e' (op.track l) = some x' ∧ SameEnds x.1 x'.1)

theorem wp_on (hS : this.Sound moves) (alloc : Allocator) (hw : w.Holds e) (op : ListOp α)
    (hl : e l = some (stump, cells)) (hv : op.Valid cells.length) :
    wp (this.execOp alloc (on l op)) (fun _ w' => (on l op).Done w e w') E w := by
  refine World.wp_onList (hw.lists_eq hl) ((op.wp_execListOp hS alloc (hw.holds hl) hv).imp ?_)
  rintro _ t ⟨news, hvalues, hnew, hC⟩
  refine ⟨news, Function.update e l (some (t.stump, op.list Prod.snd news cells)), hvalues, hnew,
    ⟨hw.owns.changed hl hC, lists_update hw l (some (t.stump, _))⟩, ?_, fun _ k x hk => ?_⟩
  · rw [contents_update, lists, contents, hl]
    rfl
  · by_cases hkl : k = l
    · subst hkl
      obtain rfl : (stump, cells) = x := Option.some.inj (hl.symm.trans hk)
      exact ⟨_, Function.update_self .., hC.ends⟩
    · exact ⟨x, (Function.update_of_ne hkl _ _).trans hk, rfl, rfl⟩

theorem wp_create (hS : this.Sound moves) (alloc : Allocator) (hw : w.Holds e) (hl : e l = none) :
    wp (this.create alloc l) (fun _ w' => (create l).Done w e w') E w := by
  unfold Implementation.create
  rw [wp_bind]
  refine World.wp_onTree ((hS.construct alloc).imp ?_)
  rintro _ t ⟨hH, hnew, hout⟩
  refine ⟨[], Function.update e l (some (t.stump, [])), rfl, fun _ hc => (nomatch hc),
    ⟨hw.owns.replaced (fun x hx => Option.some.inj hx ▸ hH) (hl ▸ hout) hnew,
      lists_update hw l (some (t.stump, []))⟩, contents_update e l _, fun hs => hs.elim⟩

theorem wp_destroy (hS : this.Sound moves) (hw : w.Holds e) (hl : e l = some (stump, cells)) :
    wp (this.destroy l) (fun _ w' => (destroy l).Done w e w') E w := by
  unfold Implementation.destroy
  rw [wp_bind]
  refine World.wp_getList (hw.lists_eq hl) ?_
  rw [wp_bind]
  refine World.wp_onTree ((hS.destruct (hw.holds hl)).imp ?_)
  intro _ t hout
  have hout' : Outside (ownOf (e l)) w.heap t.heap := hl ▸ hout
  refine ⟨[], Function.update e l none, rfl, fun _ hc => (nomatch hc),
    ⟨hw.owns.replaced (fun _ hx => (nomatch hx)) hout' fun _ hp => (nomatch hp),
      lists_update hw l none⟩, contents_update e l _, fun hs => hs.elim⟩

/-- `assign` by a temporary list that is filled with `values`. -/
theorem wp_assignBy (hS : this.Sound moves) (alloc : Allocator) (hw : w.Holds e)
    (hl : e l = some (stump, cells)) (values : List α) {fill : Prog (Tree α) ε PUnit}
    (hfill : ∀ {t : Tree α} {E : ε → Tree α → Prop}, Holds t [] → wp fill (fun _ t' =>
      ∃ news : List (Cell α), news.map Prod.snd = values ∧ (∀ c ∈ news, c.1 ∉ t.heap.live) ∧
        Changed t t' [] news) E t) :
    wp (this.assignBy alloc l fill) (fun _ w' => (assign l values).Done w e w') E w := by
  have hH := hw.holds hl
  unfold Implementation.assignBy
  rw [wp_bind]
  refine World.wp_onTree ?_
  rw [wp_bind]
  refine (hS.construct alloc).imp ?_
  rintro _ t ⟨htmp, hgaps, hout⟩
  refine (hfill htmp).imp ?_
  rintro _ t' ⟨news, hvalues, hnew, hC⟩
  have hold : Outside [] w.heap t'.heap := by
    intro x hx _
    obtain ⟨hx', hnode⟩ := hout x hx (by simp)
    obtain ⟨hx'', hnode'⟩ := hC.outside x hx' fun hm => hgaps x hm hx
    exact ⟨hx'', hnode'.trans hnode⟩
  have hfresh : ∀ c ∈ news, c.1 ∉ w.heap.live := fun c hc hm => hnew c hc (hout c.1 hm (by simp)).1
  have hown : ∀ x ∈ own t'.stump news, x ∉ w.heap.live := by
    intro x hx
    rw [hC.ends.own_eq] at hx
    rcases List.mem_cons.mp hx with rfl | hx
    · exact hgaps _ List.mem_cons_self
    · rcases List.mem_append.mp hx with hx | hx
      · obtain ⟨c, hc, rfl⟩ := List.mem_map.mp hx
        exact hfresh c hc
      · exact hgaps x (List.mem_cons_of_mem _ hx)
  rw [wp_bind]
  refine World.wp_getList (hw.lists_eq hl) ?_
  unfold World.setList
  rw [wp_bind, wp_modify, wp_bind]
  -- the old tree is still as it was
  have hH' : Holds ⟨t'.heap, stump⟩ cells := hH.congr fun x hx => hold x (hH.live x hx) (by simp)
  refine World.wp_onTree ((hS.destruct hH').imp ?_)
  intro _ t'' hout'
  rw [wp_pure]
  have hHt : Holds t' news := hC.holds
  have hHt' : Holds ⟨t''.heap, t'.stump⟩ news := by
    refine hHt.congr fun x hx => hout' x (hHt.live x hx) fun hm => ?_
    exact hown x hx (hH.live x hm)
  have hrest : Outside (ownOf (e l)) w.heap t''.heap := by
    intro x hx hS
    obtain ⟨hx', hnode⟩ := hold x hx (by simp)
    obtain ⟨hx'', hnode'⟩ := hout' x hx' (by rwa [hl] at hS)
    exact ⟨hx'', hnode'.trans hnode⟩
  exact ⟨news, Function.update e l (some (t'.stump, news)), hvalues, hfresh,
    ⟨hw.owns.replaced (fun x hx => Option.some.inj hx ▸ hHt') hrest hown,
      lists_update hw l (some (t'.stump, news))⟩, contents_update e l _, fun hs => hs.elim⟩

theorem wp_assign (hS : this.Sound moves) (alloc : Allocator) (hw : w.Holds e)
    (hl : e l = some (stump, cells)) (values : List α) :
    wp (this.assign alloc l values) (fun _ w' => (assign l values).Done w e w') E w :=
  wp_assignBy hS alloc hw hl values (hS.wp_pushBackAll alloc values)

theorem wp_swap (hw : w.Holds e) {other : Nat} {stump' : AvlTreeStump} {cells' : List (Cell α)}
    (hl : e l = some (stump, cells)) (hother : e other = some (stump', cells')) :
    wp (World.swap l other) (fun _ w' => (swap l other).Done w e w') E w := by
  unfold World.swap World.setList
  rw [wp_bind]
  refine World.wp_getList (hw.lists_eq hl) ?_
  rw [wp_bind]
  refine World.wp_getList (hw.lists_eq hother) ?_
  rw [wp_bind, wp_modify, wp_modify]
  have hlists : Function.update (Function.update w.lists l (some stump')) other (some stump) =
      fun k => (e (Equiv.swap l other k)).map Prod.fst := by
    funext k
    by_cases hk : k = other
    · subst hk
      rw [Function.update_self, Equiv.swap_apply_right, hl]
      rfl
    · rw [Function.update_of_ne hk]
      by_cases hkl : k = l
      · subst hkl
        rw [Function.update_self, Equiv.swap_apply_left, hother]
        rfl
      · rw [Function.update_of_ne hkl, Equiv.swap_apply_of_ne_of_ne hkl hk, hw.lists]
  refine ⟨[], fun k => e (Equiv.swap l other k), rfl, fun _ hc => (nomatch hc),
    ⟨hw.owns.swapped l other, hlists⟩, rfl, fun _ k x hk => ⟨x, ?_, rfl, rfl⟩⟩
  show e (Equiv.swap l other (Equiv.swap l other k)) = some x
  rw [Equiv.swap_apply_self]
  exact hk

/-! ### `splice` -/

theorem wp_iteratorAt (hS : this.Sound moves) {pos : Nat} {ca cb : List (Cell α)}
    {Q : Ptr → World α → Prop}
    (hw : w.Holds e) (hl : e l = some (stump, ca ++ cb)) (hpos : ca.length = pos)
    (hQ : Q (startOf stump.end_ cb) w) :
    wp (World.onList l (this.iteratorAt pos)) Q E w := by
  refine World.wp_onList (hw.lists_eq hl) (hS.wp_iteratorAt (hw.holds hl) hpos ?_)
  rw [← hw.lists_eq hl, Function.update_eq_self]
  exact hQ

theorem wp_transfer (hS : this.Sound moves) (hw : w.Holds e) {other : Nat} {so : AvlTreeStump}
    {ca cb cm co co' : List (Cell α)} {take : Prog (Tree α) ε (List Ptr)} (hne : l ≠ other)
    (hother : e other = some (so, co)) (hl : e l = some (stump, ca ++ cb))
    (hperm : (cm ++ co').Perm co)
    (htake : ∀ {E : ε → Tree α → Prop}, wp take (fun x t => x = nodes cm ∧ Holds t co' ∧
      SameEnds so t.stump ∧ Edits (own so co) w.heap t.heap ∧ CountOne t.heap (nodes cm))
      E ⟨w.heap, so⟩) :
    wp (do
      let nodes ← World.onList other take
      let _ ← World.onList l
        (this.insertNodesFromListAndReturnFirstInserted nodes (startOf stump.end_ cb))
      pure PUnit.unit) (fun _ w' => ∃ e' : Nat → Option (Entry α), w'.Holds e' ∧
        contents e' = Function.update (Function.update (contents e) other (some co')) l
          (some (ca ++ cm ++ cb))) E w := by
  rw [wp_bind]
  refine World.wp_onList (hw.lists_eq hother) (htake.imp ?_)
  rintro x t ⟨rfl, hHo, hends, he, hone⟩
  rw [wp_bind]
  have hH := hw.holds hl
  have hl' : Function.update w.lists other (some t.stump) l = some stump := by
    rw [Function.update_of_ne hne]
    exact hw.lists_eq hl
  have hapart : ∀ x ∈ own stump (ca ++ cb), x ∉ own so co := fun x hx hm =>
    hw.owns.disjoint l other hne (by rwa [hl]) (by rwa [hother])
  have hcm : ∀ c ∈ cm, c ∈ co := fun c hc => hperm.mem_iff.mp (List.mem_append_left _ hc)
  have hL : Loose t.heap cm := by
    have hLo := (hw.holds hother).loose he
    have hnodup := (hperm.map Prod.fst).nodup_iff.mpr hLo.nodup
    rw [List.map_append] at hnodup
    exact ⟨hnodup.of_append_left, fun c hc => hLo.live c (hcm c hc),
      fun c hc => hLo.values c (hcm c hc)⟩
  have hH' : Holds ⟨t.heap, stump⟩ (ca ++ cb) :=
    hH.congr fun x hx => he.outside x (hH.live x hx) (hapart x hx)
  have hnew : ∀ c ∈ cm, c.1 ∉ own stump (ca ++ cb) :=
    fun c hc hm => hapart c.1 hm (fst_mem_own _ (hcm c hc))
  refine World.wp_onList hl' ((hS.wp_insertNodesFromList hH' hL hone hnew).imp ?_)
  rintro _ t' ⟨-, hHl, hends', he'⟩
  rw [wp_pure]
  have hperm' : (ca ++ cm ++ cb).Perm (cm ++ (ca ++ cb)) := by
    rw [← List.append_assoc]
    exact (List.perm_append_comm).append_right cb
  refine ⟨_, ⟨hw.owns.moved hne hother hl hHo hends hperm he hHl hends' hperm' he', ?_⟩, ?_⟩
  · show Function.update (Function.update w.lists other (some t.stump)) l (some t'.stump) = _
    have hlists := lists_update hw other (some (t.stump, co'))
    exact (congrArg (fun f => Function.update f l (some t'.stump)) hlists).trans
      (map_update _ l (some (t'.stump, ca ++ cm ++ cb))).symm
  · rw [contents_update, contents_update]
    rfl

theorem wp_splice (hS : this.Sound moves) (alloc : Allocator) (hw : w.Holds e)
    {other pos : Nat} {so : AvlTreeStump}
    {co : List (Cell α)} (hne : l ≠ other) (hother : e other = some (so, co))
    (hl : e l = some (stump, cells)) (hpos : pos ≤ cells.length) :
    wp (this.execOp alloc (splice l pos other))
      (fun _ w' => (splice l pos other).Done w e w') E w := by
  obtain ⟨ca, cb, rfl, rfl⟩ := exists_split hpos
  rw [Implementation.execOp, wp_bind]
  refine wp_iteratorAt hS hw hl rfl ?_
  have hperm : (co ++ ([] : List (Cell α))).Perm co := by rw [List.append_nil]
  refine (wp_transfer hS hw hne hother hl hperm (hS.moveNodes (hw.holds hother))).imp ?_
  rintro _ w' ⟨e', hw', he'⟩
  refine ⟨[], e', rfl, fun _ hc => (by cases hc), hw', he'.trans ?_, fun hs => hs.elim⟩
  rw [lists, contents, contents, hl, hother]
  simp

theorem wp_spliceRange (hS : this.Sound moves) (alloc : Allocator) (hw : w.Holds e)
    {other pos first last : Nat}
    {so : AvlTreeStump} {co : List (Cell α)} (hne : l ≠ other) (hother : e other = some (so, co))
    (hl : e l = some (stump, cells)) (hpos : pos ≤ cells.length) (hfirst : first ≤ last)
    (hlast : last ≤ co.length) (hm : first < last → moves) :
    wp (this.execOp alloc (spliceRange l pos other first last))
      (fun _ w' => (spliceRange l pos other first last).Done w e w') E w := by
  obtain ⟨ca, cb, rfl, rfl⟩ := exists_split hpos
  obtain ⟨da, dm, db, rfl, rfl, rfl⟩ := exists_range hfirst hlast
  rw [Implementation.execOp, wp_bind]
  refine wp_iteratorAt hS hw hl rfl ?_
  rw [wp_bind]
  refine wp_iteratorAt hS hw (by rwa [List.append_assoc] at hother) rfl ?_
  rw [wp_bind]
  refine wp_iteratorAt hS hw hother rfl ?_
  have hperm : (dm ++ (da ++ db)).Perm (da ++ dm ++ db) := by
    rw [← List.append_assoc]
    exact (List.perm_append_comm).append_right db
  refine (wp_transfer hS hw hne hother hl hperm
    (hS.moveNodesRange (hw.holds hother) fun hdm => hm ?_)).imp ?_
  · have := List.length_pos_of_ne_nil hdm
    rw [List.length_append]
    omega
  rintro _ w' ⟨e', hw', he'⟩
  have hfront : (da ++ dm ++ db).take da.length = da := by
    rw [List.append_assoc, List.take_left]
  refine ⟨[], e', rfl, fun _ hc => (by cases hc), hw', he'.trans ?_, fun hs => hs.elim⟩
  rw [lists, contents, contents, hl, hother]
  simp only [Option.map_some, Option.getD_some, hfront, List.take_left, List.drop_left]

/-- **Every valid operation** ends, and does to the lists what it does to plain
lists. -/
theorem wp_execOp (hS : this.Sound moves) (alloc : Allocator) (op : Op α) (hw : w.Holds e)
    (hv : op.Valid fun l => (contents e l).map List.length)
    (hmoves : (Call.op op).MovesRange (fun l => (contents e l).map List.length) → moves) :
    wp (this.execOp alloc op) (fun _ w' => op.Done w e w') E w := by
  cases op with
  | create l =>
    refine wp_create hS alloc hw ?_
    cases he : e l with
    | none => rfl
    | some x => simp [Valid, contents, he] at hv
  | destroy l =>
    obtain ⟨stump, cells, hl⟩ := exists_entry_of_isSome hv
    exact wp_destroy hS hw hl
  | on l op =>
    obtain ⟨n, hn, hop⟩ := hv
    obtain ⟨stump, cells, hl, rfl⟩ := exists_entry hn
    exact wp_on hS alloc hw op hl hop
  | assign l values =>
    obtain ⟨stump, cells, hl⟩ := exists_entry_of_isSome hv
    exact wp_assign hS alloc hw hl values
  | assignCount l count value =>
    obtain ⟨stump, cells, hl⟩ := exists_entry_of_isSome hv
    exact wp_assign hS alloc hw hl (List.replicate count value)
  | splice l pos other =>
    obtain ⟨hne, hsome, n, hn, hpos⟩ := hv
    obtain ⟨so, co, hother⟩ := exists_entry_of_isSome hsome
    obtain ⟨stump, cells, hl, rfl⟩ := exists_entry hn
    exact wp_splice hS alloc hw hne hother hl hpos
  | spliceRange l pos other first last =>
    obtain ⟨hne, ⟨m, hm, hfirst, hlast⟩, n, hn, hpos⟩ := hv
    obtain ⟨so, co, hother, rfl⟩ := exists_entry hm
    obtain ⟨stump, cells, hl, rfl⟩ := exists_entry hn
    exact wp_spliceRange hS alloc hw hne hother hl hpos hfirst hlast hmoves
  | swap l other =>
    obtain ⟨stump, cells, hl⟩ := exists_entry_of_isSome hv.1
    obtain ⟨so, co, hother⟩ := exists_entry_of_isSome hv.2
    exact wp_swap hw hl hother

/-- **Every valid operation** of the program. -/
theorem wp_exec (alloc : Allocator) (op : Op α) (hw : w.Holds e)
    (hv : op.Valid fun l => (contents e l).map List.length) :
    wp (op.exec alloc) (fun _ w' => op.Done w e w') E w := by
  rw [← Implementation.released_execOp alloc 0 op]
  exact wp_execOp (released_sound 0) alloc op hw hv fun _ => trivial

end Op

end Garbage.RandomAccessList
