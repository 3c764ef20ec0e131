import Garbage.RandomAccessList.ListCalls
import Garbage.RandomAccessList.Refinement

/-!
# Which calls meet the assertions

`Call.wp_exec`: over a sound implementation every valid call on lists that hold
their elements comes to its end and leaves lists that hold elements.  Over
`released` this is an invariant of the machine of all calls.  Over `asserted` it
says that no assertion fails, in every call but those that move a range with an
element in it; those all end at the assertion of `deleteAndGetNext`
(`assertions_hold_iff`).
-/

namespace Garbage.RandomAccessList

open Foundation (Prog Machine)
open Foundation.Prog
open AvlTreeStump
open World (onList)

variable {α ε : Type} {world : World α} {e : Nat → Option (Entry α)} {l other : Nat}
  {stump so : AvlTreeStump} {cells co ca cb : List (Cell α)}

theorem World.update_same (hl : world.lists l = some stump) :
    (⟨world.heap, Function.update world.lists l (some stump)⟩ : World α) = world := by
  rw [← hl, Function.update_eq_self]

def World.Alive (world : World α) : Prop := ∃ e, world.Holds e

theorem Op.Done.alive {op : Op α} {world' : World α} (h : op.Done world e world') :
    world'.Alive := by
  obtain ⟨_, e', -, -, hw', -⟩ := h
  exact ⟨e', hw'⟩

namespace Call

variable {this : Implementation α ε} {moves : Prop} {E : ε → World α → Prop}

/-! ### One list -/

theorem wp_on (hS : this.Sound moves) (alloc : Allocator) (hw : world.Holds e)
    (hl : e l = some (stump, cells)) (call : ListCall α) (hv : call.Valid cells.length) :
    wp (World.onList l (this.execListCall alloc call)) (fun _ world' => world'.Alive) E world := by
  refine World.wp_onList (hw.lists_eq hl) ((hS.wp_execListCall alloc call (hw.holds hl) hv).imp ?_)
  rintro _ t ⟨cells', hC⟩
  exact ⟨Function.update e l (some (t.stump, cells')),
    hw.owns.changed hl hC, lists_update hw l (some (t.stump, cells'))⟩

theorem wp_assignRange (hS : this.Sound moves) (alloc : Allocator) (hw : world.Holds e)
    (hl : e l = some (stump, cells)) (values : List α) :
    wp (this.assignRange alloc l values)
      (fun _ world' => (Op.assign l values).Done world e world') E world := by
  refine Op.wp_assignBy hS alloc hw hl values fun {t E'} ht => ?_
  rw [wp_bind, Container.wp_end_, wp_bind]
  have hinsert := hS.wp_insertRange (E := E') alloc values (show Holds t ([] ++ []) from ht)
  refine hinsert.imp ?_
  rintro _ t' ⟨news, hvalues, hnew, -, hC⟩
  exact ⟨news, hvalues, hnew, by simpa using hC⟩

/-! ### Two lists that are only read -/

theorem wp_walkBoth (hS : this.Sound moves) (hw : world.Holds e)
    (hl : e l = some (stump, cells)) (hother : e other = some (so, co)) (go : α → α → Bool)
    {Q : PUnit → World α → Prop} (hQ : Q PUnit.unit world) :
    wp (this.walkBoth l other go) Q E world := by
  have hlists := hw.lists_eq hl
  have hlists' := hw.lists_eq hother
  unfold Implementation.walkBoth
  rw [wp_bind]
  refine World.wp_onList hlists (hS.getBegin (hw.holds hl) ?_)
  rw [World.update_same hlists, wp_bind]
  refine World.wp_onList hlists ?_
  rw [Container.wp_end_, World.update_same hlists, wp_bind]
  refine World.wp_onList hlists' (hS.getBegin (hw.holds hother) ?_)
  rw [World.update_same hlists', wp_bind]
  refine World.wp_onList hlists' ?_
  rw [Container.wp_end_, World.update_same hlists', wp_bind, wp_get]
  refine wp_loop (I := fun n c w' => w' = world ∧ ∃ ca cb da db : List (Cell α),
    cells = ca ++ cb ∧ co = da ++ db ∧ c = (startOf stump.end_ cb, startOf so.end_ db) ∧
    n = cb.length) ?_ _ cells.length _ _ ⟨rfl, [], cells, [], co, rfl, rfl, rfl, rfl⟩
    (Nat.lt_succ_of_le (hw.holds hl).length_le)
  rintro n c w' ⟨rfl, ca, cb, da, db, rfl, rfl, rfl, rfl⟩
  have hH := hw.holds hl
  have hH' := hw.holds hother
  rw [wp_ite]
  refine ⟨fun _ => hQ, fun hend => ?_⟩
  rw [not_or] at hend
  cases cb with
  | nil => exact absurd rfl hend.1
  | cons c cb =>
    cases db with
    | nil => exact absurd rfl hend.2
    | cons d db =>
      rw [wp_bind]
      refine World.wp_onList hlists (Container.wp_dereference hH (v := c.2) (by simp) ?_)
      rw [World.update_same hlists, wp_bind]
      refine World.wp_onList hlists' (Container.wp_dereference hH' (v := d.2) (by simp) ?_)
      rw [World.update_same hlists', wp_ite]
      refine ⟨fun _ => ?_, fun _ => hQ⟩
      rw [wp_bind]
      refine World.wp_onList hlists (hS.wp_increment ca (v := c.2) hH ?_)
      rw [World.update_same hlists, wp_bind]
      refine World.wp_onList hlists' (hS.wp_increment da (v := d.2) hH' ?_)
      rw [World.update_same hlists', wp_pure]
      exact ⟨cb.length, Nat.lt_succ_self _, rfl, ca ++ [c], cb, da ++ [d], db, by simp, by simp,
        rfl, rfl⟩

theorem wp_length (hS : this.Sound moves) (hw : world.Holds e) (hl : e l = some (stump, cells))
    {Q : Int → World α → Prop} (hQ : ∀ n, Q n world) : wp (this.length l) Q E world := by
  have hlists := hw.lists_eq hl
  refine World.wp_onList hlists ?_
  rw [wp_bind]
  refine hS.getBegin (hw.holds hl) ?_
  rw [wp_bind, Container.wp_end_]
  have hH : Holds ⟨world.heap, stump⟩ ([] ++ cells) := hw.holds hl
  have hsplit : [] ++ cells = cells ++ [] := by simp
  refine hS.distance hH hsplit fun n => ?_
  rw [World.update_same hlists]
  exact hQ n

/-! ### `merge` -/

/-- The merged nodes are those of both lists. -/
theorem loose_merge {h : Heap α} (hL : Loose h (cells ++ co))
    (hone : CountOne h (nodes (cells ++ co))) (le : Ptr → Ptr → Bool) : ∃ cm : List (Cell α),
    (nodes cells).merge (nodes co) le = nodes cm ∧ cm.Perm (cells ++ co) ∧ Loose h cm ∧
      CountOne h (nodes cm) := by
  refine ⟨cells.merge co fun c d => le c.1 d.1,
    (List.map_merge (f := Prod.fst) fun _ _ _ _ => rfl).symm, ?_⟩
  have hperm : (cells.merge co fun c d => le c.1 d.1).Perm (cells ++ co) :=
    List.merge_perm_append _
  exact ⟨hperm, hL.perm hperm, fun x hx => hone x ((hperm.map Prod.fst).mem_iff.mp hx)⟩

/-- The nodes of a list were taken out of it and are nobody's. -/
structure Taken (world : World α) (e : Nat → Option (Entry α)) (l : Nat) (stump : AvlTreeStump)
    (cells : List (Cell α)) (st : AvlTreeStump) (world' : World α) : Prop where
  holds : world'.Holds (Function.update e l (some (st, [])))
  ends : SameEnds stump st
  edits : Edits (own stump cells) world.heap world'.heap
  one : CountOne world'.heap (nodes cells)
  loose : Loose world'.heap cells
  apart : ∀ k, (nodes cells).Disjoint (ownOf (Function.update e l (some (st, [])) k))

theorem wp_moveNodes (hS : this.Sound moves) (hw : world.Holds e) (hl : e l = some (stump, cells)) :
    wp (onList l this.moveNodes) (fun x world' => x = nodes cells ∧
      ∃ st, Taken world e l stump cells st world') E world := by
  refine World.wp_onList (hw.lists_eq hl) ((hS.moveNodes (hw.holds hl)).imp ?_)
  rintro x t ⟨rfl, hH, hends, he, hone⟩
  have hC := changed_of_sublist (List.nil_subset _) hH hends he.outside
  exact ⟨rfl, t.stump, ⟨hw.owns.changed hl hC, lists_update hw l (some (t.stump, []))⟩, hends, he,
    hone, (hw.holds hl).loose he, hw.owns.apart_of_taken hl hends (by rw [List.append_nil])⟩

theorem ownOf_emptied_subset {st : AvlTreeStump} (hl : e l = some (stump, cells))
    (hends : SameEnds stump st) (k : Nat) :
    ownOf (Function.update e l (some (st, [])) k) ⊆ ownOf (e k) := by
  by_cases hk : k = l
  · subst hk
    rw [Function.update_self, hl]
    show own st [] ⊆ own stump cells
    rw [hends.own_eq]
    exact own_subset (List.nil_subset _)
  · rw [Function.update_of_ne hk]
    exact List.Subset.refl _

/-- **Both lists are emptied**, and their nodes are nobody's. -/
structure Emptied (world : World α) (e : Nat → Option (Entry α)) (l other : Nat)
    (stump so : AvlTreeStump) (cells co : List (Cell α)) (st st' : AvlTreeStump)
    (world' : World α) : Prop where
  holds : world'.Holds (Function.update (Function.update e l (some (st, []))) other
    (some (st', [])))
  ends : SameEnds stump st
  ends' : SameEnds so st'
  loose : Loose world'.heap (cells ++ co)
  one : CountOne world'.heap (nodes (cells ++ co))
  live : world'.heap.live = world.heap.live
  apart : ∀ k, (nodes (cells ++ co)).Disjoint (ownOf (Function.update (Function.update e l
    (some (st, []))) other (some (st', [])) k))

theorem Taken.emptied {world₁ world' : World α} {st st' : AvlTreeStump} (hw : world.Holds e)
    (hne : l ≠ other) (hl : e l = some (stump, cells)) (hother : e other = some (so, co))
    (hT : Taken world e l stump cells st world₁)
    (hT' : Taken world₁ (Function.update e l (some (st, []))) other so co st' world') :
    Emptied world e l other stump so cells co st st' world' := by
  have hapart : (own stump cells).Disjoint (own so co) := by
    have hd := hw.owns.disjoint l other hne
    rw [hl, hother] at hd
    exact hd
  have hnodes : ∀ (cs : List (Cell α)) (st : AvlTreeStump), nodes cs ⊆ own st cs :=
    fun cs st x hx => List.mem_cons_of_mem _ (List.mem_append_left _ hx)
  have hkept : ∀ x ∈ nodes cells, world'.heap.node x = world₁.heap.node x := fun x hx =>
    hT'.edits.node x fun hm => hapart (hnodes _ _ hx) hm
  refine ⟨hT'.holds, hT.ends, hT'.ends, ⟨?_, fun c hc => ?_, fun c hc => ?_⟩, fun x hx => ?_,
    hT'.edits.live.trans hT.edits.live, fun k x hx hm => ?_⟩
  · rw [nodes_append]
    exact hT.loose.nodup.append hT'.loose.nodup fun x hx hx' =>
      hapart (hnodes _ _ hx) (hnodes _ _ hx')
  · rcases List.mem_append.mp hc with hc | hc
    · exact hT'.edits.live ▸ hT.loose.live c hc
    · exact hT'.loose.live c hc
  · rcases List.mem_append.mp hc with hc | hc
    · rw [hkept c.1 (fst_mem_nodes hc)]
      exact hT.loose.values c hc
    · exact hT'.loose.values c hc
  · rw [nodes_append, List.mem_append] at hx
    rcases hx with hx | hx
    · rw [hkept x hx]
      exact hT.one x hx
    · exact hT'.one x hx
  · have ho₁ : Function.update e l (some (st, ([] : List (Cell α)))) other = some (so, co) := by
      rw [Function.update_of_ne (Ne.symm hne)]
      exact hother
    rw [nodes_append, List.mem_append] at hx
    rcases hx with hx | hx
    · exact hT.apart k hx (ownOf_emptied_subset ho₁ hT'.ends k hm)
    · exact hT'.apart k hx hm

theorem wp_moveBoth (hS : this.Sound moves) (hw : world.Holds e) (hne : l ≠ other)
    (hl : e l = some (stump, cells)) (hother : e other = some (so, co)) :
    wp (onList l this.moveNodes) (fun nodes0 world₁ => nodes0 = nodes cells ∧
      wp (onList other this.moveNodes) (fun nodes1 world' => nodes1 = nodes co ∧
        ∃ st st', Emptied world e l other stump so cells co st st' world') E world₁) E world := by
  refine (wp_moveNodes hS hw hl).imp ?_
  rintro _ world₁ ⟨rfl, st, hT⟩
  have ho₁ : Function.update e l (some (st, ([] : List (Cell α)))) other = some (so, co) := by
    rw [Function.update_of_ne (Ne.symm hne)]
    exact hother
  refine ⟨rfl, (wp_moveNodes hS hT.holds ho₁).imp ?_⟩
  rintro _ world' ⟨rfl, st', hT'⟩
  exact ⟨rfl, st, st', hT.emptied hw hne hl hother hT'⟩

/-- The second half of `merge`, and of other calls: loose nodes fill an empty list. -/
theorem wp_refill (hS : this.Sound moves) (hw : world.Holds e) {cm : List (Cell α)}
    (hl : e l = some (stump, [])) (hL : Loose world.heap cm) (hone : CountOne world.heap (nodes cm))
    (hapart : ∀ k, (nodes cm).Disjoint (ownOf (e k))) :
    wp (do
      let pos ← onList l this.getBegin
      let _ ← onList l (this.insertNodesFromListAndReturnFirstInserted (nodes cm) pos)
      pure PUnit.unit) (fun _ world' => ∃ st, SameEnds stump st ∧
        world'.Holds (Function.update e l (some (st, cm))) ∧
        world'.heap.live = world.heap.live) E world := by
  have hlists := hw.lists_eq hl
  rw [wp_bind]
  refine World.wp_onList hlists (hS.getBegin (hw.holds hl) ?_)
  rw [World.update_same hlists, wp_bind]
  have hHl : Holds ⟨world.heap, stump⟩ ([] ++ ([] : List (Cell α))) := hw.holds hl
  have hnew : ∀ c ∈ cm, c.1 ∉ own stump ([] ++ ([] : List (Cell α))) := by
    intro c hc hm
    exact hapart l (fst_mem_nodes hc) (by rwa [hl])
  refine World.wp_onList hlists ((hS.wp_insertNodesFromList hHl hL hone hnew).imp ?_)
  rintro _ t ⟨-, hH, hends, he⟩
  rw [List.append_nil, List.nil_append] at hH
  have hperm : cm.Perm (cm ++ ([] : List (Cell α))) := by rw [List.append_nil]
  exact ⟨t.stump, hends, ⟨hw.owns.inserted hl hapart hH hends hperm he,
    lists_update hw l (some (t.stump, cm))⟩, he.live⟩

/-- **`merge`** empties both lists and fills the first one. -/
theorem wp_merge (hS : this.Sound moves) (hw : world.Holds e) (hl : e l = some (stump, cells))
    (hother : e other = some (so, co)) (comp : α → α → Bool) :
    wp (this.merge l other comp) (fun _ world' => world'.Alive) E world := by
  unfold Implementation.merge
  rw [wp_ite]
  refine ⟨fun _ => ⟨e, hw⟩, fun hne => ?_⟩
  rw [wp_bind]
  refine (wp_moveBoth hS hw hne hl hother).imp ?_
  rintro _ world₁ ⟨rfl, hboth⟩
  rw [wp_bind]
  refine hboth.imp ?_
  rintro _ world₂ ⟨rfl, st, st', hE⟩
  rw [wp_bind, wp_get]
  dsimp only
  obtain ⟨cm, hcm, hperm, hLcm, honecm⟩ := loose_merge hE.loose hE.one fun a b =>
    !Container.lessAt comp world₂.heap b a
  rw [hcm]
  have hl₂ : Function.update (Function.update e l (some (st, ([] : List (Cell α))))) other
      (some (st', [])) l = some (st, []) := by
    rw [Function.update_of_ne hne, Function.update_self]
  have hapart : ∀ k, (nodes cm).Disjoint (ownOf (Function.update (Function.update e l
      (some (st, []))) other (some (st', [])) k)) :=
    fun k x hx => hE.apart k ((hperm.map Prod.fst).mem_iff.mp hx)
  refine (wp_refill hS hE.holds hl₂ hLcm honecm hapart).imp ?_
  rintro _ world' ⟨st₂, -, hw', -⟩
  exact ⟨_, hw'⟩

/-! ### All calls -/

/-- The move of the nodes from an iterator on is the move of a range. -/
theorem wp_spliceFrom_of_spliceRange (hS : this.Sound moves) (hw : world.Holds e)
    (hl : e l = some (stump, ca ++ cb)) (hother : e other = some (so, da ++ db))
    (alloc : Allocator) {Q : PUnit → World α → Prop}
    (hrange : wp (this.spliceRange l (startOf stump.end_ cb) other (startOf so.end_ db) so.end_)
      Q E world) :
    wp (this.exec alloc (.spliceFrom l ca.length other da.length)) Q E world := by
  rw [Implementation.exec, wp_bind]
  refine Op.wp_iteratorAt hS hw hl rfl ?_
  rw [wp_bind]
  refine Op.wp_iteratorAt hS hw hother rfl ?_
  unfold Implementation.spliceFrom
  rw [wp_bind]
  refine World.wp_onList (hw.lists_eq hother) ?_
  rw [Container.wp_end_, World.update_same (hw.lists_eq hother)]
  exact hrange

/-- **The nodes from an iterator up to the end** go into the other list. -/
theorem wp_spliceFrom_moves (hS : this.Sound moves) (hw : world.Holds e) (hne : l ≠ other)
    (hother : e other = some (so, da ++ db)) (hl : e l = some (stump, ca ++ cb))
    (hm : db ≠ [] → moves) (alloc : Allocator) :
    wp (this.exec alloc (.spliceFrom l ca.length other da.length)) (fun _ world' =>
      ∃ e' : Nat → Option (Entry α), world'.Holds e' ∧ contents e' =
        Function.update (Function.update (contents e) other (some da)) l
          (some (ca ++ db ++ cb))) E world := by
  refine wp_spliceFrom_of_spliceRange hS hw hl hother alloc ?_
  have hHo : Holds ⟨world.heap, so⟩ (da ++ db ++ []) := by
    rw [List.append_nil]
    exact hw.holds hother
  have hperm : (db ++ da).Perm (da ++ db) := List.perm_append_comm
  have htake := fun {E : ε → Tree α → Prop} => hS.moveNodesRange (E := E) hHo hm
  simp only [List.append_nil] at htake
  exact Op.wp_transfer hS hw hne hother hl hperm htake

theorem wp_spliceFrom (hS : this.Sound moves) (hw : world.Holds e) {pos it : Nat} (hne : l ≠ other)
    (hother : e other = some (so, co)) (hl : e l = some (stump, cells)) (hpos : pos ≤ cells.length)
    (hit : it ≤ co.length) (hm : it < co.length → moves) (alloc : Allocator) :
    wp (this.exec alloc (.spliceFrom l pos other it)) (fun _ world' => world'.Alive) E world := by
  obtain ⟨ca, cb, rfl, rfl⟩ := exists_split hpos
  obtain ⟨da, db, rfl, rfl⟩ := exists_split hit
  have hdb : db ≠ [] → moves := fun hdb => hm <| by
    rw [List.length_append]
    exact Nat.lt_add_of_pos_right (List.length_pos_of_ne_nil hdb)
  refine (wp_spliceFrom_moves hS hw hne hother hl hdb alloc).imp ?_
  rintro _ world' ⟨e', hw', -⟩
  exact ⟨e', hw'⟩

/-- **Every valid call** comes to its end, and the lists hold elements again. -/
theorem wp_exec (hS : this.Sound moves) (alloc : Allocator) (call : Call α) (hw : world.Holds e)
    (hv : call.Valid world.sizes) (hm : call.MovesRange world.sizes → moves) :
    wp (this.exec alloc call) (fun _ world' => world'.Alive) E world := by
  rw [hw.sizes_eq] at hv hm
  cases call with
  | op op => exact (op.wp_execOp hS alloc hw hv hm).imp fun _ _ hdone => hdone.alive
  | on l call =>
    obtain ⟨n, hn, hcall⟩ := hv
    obtain ⟨stump, cells, hl, rfl⟩ := exists_entry hn
    exact wp_on hS alloc hw hl call hcall
  | assignRange l values =>
    obtain ⟨stump, cells, hl⟩ := exists_entry_of_isSome hv
    exact (wp_assignRange hS alloc hw hl values).imp fun _ _ hdone => hdone.alive
  | copyAssign l other =>
    obtain ⟨stump, cells, hl⟩ := exists_entry_of_isSome hv.1
    obtain ⟨so, co, hother⟩ := exists_entry_of_isSome hv.2
    rw [Implementation.exec, Implementation.copyAssign, wp_bind]
    refine World.wp_onList (hw.lists_eq hother) (hS.wp_traverse (hw.holds hother) ?_)
    rw [World.update_same (hw.lists_eq hother)]
    exact (wp_assignRange hS alloc hw hl _).imp fun _ _ hdone => hdone.alive
  | spliceFrom l pos other it =>
    obtain ⟨hne, ⟨m, hm', hit⟩, n, hn, hpos⟩ := hv
    obtain ⟨so, co, hother, rfl⟩ := exists_entry hm'
    obtain ⟨stump, cells, hl, rfl⟩ := exists_entry hn
    exact wp_spliceFrom hS hw hne hother hl hpos hit (fun hlt => hm ⟨_, hm', hlt⟩) alloc
  | merge l other comp =>
    obtain ⟨stump, cells, hl⟩ := exists_entry_of_isSome hv.1
    obtain ⟨so, co, hother⟩ := exists_entry_of_isSome hv.2
    exact wp_merge hS hw hl hother comp
  | equal l other eq =>
    obtain ⟨stump, cells, hl⟩ := exists_entry_of_isSome hv.1
    obtain ⟨so, co, hother⟩ := exists_entry_of_isSome hv.2
    rw [Implementation.exec, Implementation.equal, wp_bind]
    refine wp_length hS hw hl fun m => ?_
    rw [wp_bind]
    refine wp_length hS hw hother fun n => ?_
    rw [wp_ite]
    exact ⟨fun _ => wp_walkBoth hS hw hl hother eq ⟨e, hw⟩, fun _ => ⟨e, hw⟩⟩
  | less l other comp =>
    obtain ⟨stump, cells, hl⟩ := exists_entry_of_isSome hv.1
    obtain ⟨so, co, hother⟩ := exists_entry_of_isSome hv.2
    exact wp_walkBoth hS hw hl hother _ ⟨e, hw⟩

/-! ### The call that fails -/

/-- The move of a range with an element in it ends at the assertion of
`deleteAndGetNext`. -/
theorem wp_asserted_spliceRange (l w : Nat) (to_ : Ptr) {da dm db : List (Cell α)}
    (hw : world.Holds e) (hother : e other = some (so, da ++ dm ++ db)) (hdm : dm ≠ []) :
    wp ((asserted w).spliceRange l to_ other (startOf so.end_ (dm ++ db)) (startOf so.end_ db))
      (fun _ _ => False) (fun a _ => a = .deleteAndGetNext) world := by
  obtain ⟨c, dm, rfl⟩ := List.exists_cons_of_ne_nil hdm
  have hH := hw.holds hother
  unfold Implementation.spliceRange
  rw [wp_bind]
  refine World.wp_onList (hw.lists_eq hother) ?_
  exact wp_mono (fun _ _ h => h.elim) (fun _ _ h => h.1)
    (Asserted.moveNodesRange_fails hH hH.startOf_ne)

theorem wp_asserted_fails (w : Nat) (alloc : Allocator) (call : Call α) (hw : world.Holds e)
    (hv : call.Valid world.sizes) (hm : call.MovesRange world.sizes) :
    wp ((asserted w).exec alloc call) (fun _ _ => False) (fun a _ => a = .deleteAndGetNext)
      world := by
  have hS := asserted_sound (α := α) w
  rw [hw.sizes_eq] at hv hm
  cases call with
  | spliceFrom l pos other it =>
    obtain ⟨-, ⟨m, hm', -⟩, n, hn, hpos⟩ := hv
    obtain ⟨so, co, hother, rfl⟩ := exists_entry hm'
    obtain ⟨stump, cells, hl, rfl⟩ := exists_entry hn
    obtain ⟨m, hm'', hlt⟩ := hm
    obtain rfl := Option.some.inj (hm'.symm.trans hm'')
    obtain ⟨ca, cb, rfl, rfl⟩ := exists_split hpos
    obtain ⟨da, dm, rfl, rfl⟩ := exists_split (Nat.le_of_lt hlt)
    have hdm : dm ≠ [] := by
      rintro rfl
      simp at hlt
    refine wp_spliceFrom_of_spliceRange hS hw hl hother alloc ?_
    have hother' : e other = some (so, da ++ dm ++ []) := by rwa [List.append_nil]
    have hfails := wp_asserted_spliceRange l w (startOf stump.end_ cb) hw hother' hdm
    rwa [List.append_nil] at hfails
  | op op =>
    cases op with
    | spliceRange l pos other first last =>
      obtain ⟨-, ⟨m, hm', hfirst, hlast⟩, n, hn, hpos⟩ := hv
      obtain ⟨so, co, hother, rfl⟩ := exists_entry hm'
      obtain ⟨stump, cells, hl, rfl⟩ := exists_entry hn
      obtain ⟨ca, cb, rfl, rfl⟩ := exists_split hpos
      obtain ⟨da, dm, db, rfl, rfl, rfl⟩ := exists_range hfirst hlast
      have hdm : dm ≠ [] := by
        rintro rfl
        simp [MovesRange] at hm
      rw [Implementation.exec, Implementation.execOp, wp_bind]
      refine Op.wp_iteratorAt hS hw hl rfl ?_
      rw [wp_bind]
      refine Op.wp_iteratorAt hS hw (by rwa [List.append_assoc] at hother) rfl ?_
      rw [wp_bind]
      refine Op.wp_iteratorAt hS hw hother rfl ?_
      exact wp_asserted_spliceRange l w _ hw hother hdm
    | _ => exact hm.elim
  | _ => exact hm.elim

/-! ### Runs -/

theorem alive_of_next {w : Nat} {alloc : Allocator} {world' : World α} {call : Call α}
    (hn : (calls w alloc).next world call = some world') (halive : world.Alive) :
    world'.Alive := by
  obtain ⟨e, hw⟩ := halive
  unfold calls at hn
  dsimp only at hn
  split at hn
  · next hv =>
    obtain ⟨_, world'', hx, halive⟩ := (wp_exec (E := fun _ _ => False) (released_sound w) alloc
      call hw hv fun _ => trivial).returns
    rw [hx] at hn
    exact Option.some.inj hn ▸ halive
  · cases hn

theorem alive_of_reachable {w : Nat} {alloc : Allocator}
    (hr : (calls w alloc).Reachable world) : world.Alive := by
  refine hr.invariant (fun world hinit => ?_) fun _ _ _ halive _ hn => alive_of_next hn halive
  have hempty : (machine alloc).init world := hinit
  exact ⟨_, World.holds_of_init hempty⟩

/-- **When the assertions hold.**  A valid call on reachable lists meets all
assertions of the tree, unless it moves a range with an element in it; then it
ends at the assertion of `deleteAndGetNext`. -/
theorem assertions_hold_iff (w : Nat) (alloc : Allocator)
    (hr : (calls w alloc).Reachable world) (call : Call α) (hv : call.Valid world.sizes) :
    (call.AssertionsHold w alloc world ↔ ¬ call.MovesRange world.sizes) ∧
      (call.MovesRange world.sizes → call.Fails w alloc world .deleteAndGetNext) := by
  obtain ⟨e, hw⟩ := alive_of_reachable hr
  have hfails : call.MovesRange world.sizes → call.Fails w alloc world .deleteAndGetNext := by
    intro hm
    obtain ⟨r, world', hx, hok, herror⟩ := (wp_asserted_fails w alloc call hw hv hm).outcome
    cases r with
    | ok b => exact (hok b rfl).elim
    | error a => exact ⟨world', herror a rfl ▸ hx⟩
  refine ⟨⟨fun ⟨world', hx⟩ hm => ?_, fun hm => ?_⟩, hfails⟩
  · obtain ⟨world'', hx'⟩ := hfails hm
    rw [hx] at hx'
    cases hx'
  · obtain ⟨_, world', hx, -⟩ := (wp_exec (E := fun _ _ => False) (asserted_sound w) alloc call hw
      hv hm).returns
    exact ⟨world', hx⟩

theorem exists_two_lists : ∃ world : World Nat,
    (calls 64 bumpAllocator).run ⟨emptyHeap Nat, fun _ => none⟩
      [.op (.create 0), .op (.create 1), .op (.on 0 (.insertRange 0 [5, 7]))] = some world ∧
    (calls 64 bumpAllocator).Reachable world ∧
    (Call.op (.spliceRange 1 0 0 0 1) : Call Nat).Valid world.sizes := by
  have hrun : ((calls 64 bumpAllocator).run ⟨emptyHeap Nat, fun _ => none⟩
      [.op (.create 0), .op (.create 1), .op (.on 0 (.insertRange 0 [5, 7]))]).any
        (fun world => decide ((Call.op (.spliceRange 1 0 0 0 1) : Call Nat).Valid world.sizes)) =
          true := by decide +kernel
  obtain ⟨world, hr, hv⟩ := (Option.any_eq_true _ _).mp hrun
  exact ⟨world, hr, Machine.Reachable.run (.init fun _ => rfl) hr, of_decide_eq_true hv⟩

/-- The rule for a range of one element. -/
theorem assertions_hold_iff_range_splice : ∃ world : World Nat,
    (calls 64 bumpAllocator).run ⟨emptyHeap Nat, fun _ => none⟩
      [.op (.create 0), .op (.create 1), .op (.on 0 (.insertRange 0 [5, 7]))] = some world ∧
    ((Call.op (.spliceRange 1 0 0 0 1)).AssertionsHold 64 bumpAllocator world ↔
      ¬ (Call.op (.spliceRange 1 0 0 0 1) : Call Nat).MovesRange world.sizes) := by
  obtain ⟨world, hrun, hr, hv⟩ := exists_two_lists
  exact ⟨world, hrun, (assertions_hold_iff 64 bumpAllocator hr _ hv).1⟩

/-- One element is spliced from a list of two into an empty list. -/
theorem assertion_fails_at_range_splice : ∃ world : World Nat,
    (calls 64 bumpAllocator).run ⟨emptyHeap Nat, fun _ => none⟩
      [.op (.create 0), .op (.create 1), .op (.on 0 (.insertRange 0 [5, 7]))] = some world ∧
    (Call.op (.spliceRange 1 0 0 0 1) : Call Nat).Valid world.sizes ∧
    ¬ (Call.op (.spliceRange 1 0 0 0 1)).AssertionsHold 64 bumpAllocator world := by
  obtain ⟨world, hrun, hr, hv⟩ := exists_two_lists
  refine ⟨world, hrun, hv, fun ⟨world', hx⟩ => ?_⟩
  obtain ⟨e, hw⟩ := alive_of_reachable hr
  have hfails := wp_asserted_fails 64 bumpAllocator (Call.op (.spliceRange 1 0 0 0 1)) hw hv
    (by decide : 0 < 1)
  exact (wp_iff_of_ok hx).mp hfails

end Call

end Garbage.RandomAccessList
