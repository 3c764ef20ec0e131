import Garbage.RandomAccessList.Grown
import Garbage.RandomAccessList.Merging

/-!
# Insertions that fail

`makeNode` may fail twice, when it allocates the node and when it constructs the
element; the second time it gives the node back.  A bulk insertion first makes all
its nodes in a local list.  If one of them fails, or the source iterator does, the
others are destroyed.  Only when all are made they go into the tree, and that does
not fail.

Both cleanups are scope exits that run when an exception propagates, whichever it
is.  With none on entry, a failed insertion leaves the memory as it was, and a
successful one does what `Implementation` says.

An element is constructed from a `Reference`, which may point into the list, and
the source of a bulk insertion is a `Cursor`, which may walk over the list.
-/

namespace Garbage.RandomAccessList

open Foundation (Prog Execution)
open Foundation.Prog
open Foundation.Execution

variable {α β ε : Type}

/-- What an element is copied from: a value outside, or the element of a node. -/
inductive Reference (α : Type) where
  | value (v : α)
  | element (p : Ptr)

/-- The places `first` and `last` of a source: in a sequence outside, of which the
rest is given, or in a list. -/
inductive Cursor (α : Type) where
  | values (rest : List α)
  | elements (source : AvlTreeStump) (current last : Ptr)

namespace Throwing

/-! ### One node -/

def get : Reference α → Prog (Tree α) ε α
  | .value v => pure v
  | .element p => Container.dereference p

def allocateNodeInternal (alloc : Allocator) : Prog (Execution (Tree α)) Thrown Ptr := do
  mayThrow .allocation
  within (allocate alloc (TAvlTreeNode.make none))

/-- `TAllocatorTraits::construct(allocator, node, construct, value)`. -/
def constructNode (node : Ptr) (value : Reference α) : Prog (Execution (Tree α)) Thrown PUnit := do
  mayThrow .construction
  within do
    let v ← get value
    store node fun _ => TAvlTreeNode.make (some v)

def dealocateNodeIfRaisedExceptionInternal (node : Ptr) :
    Prog (Execution (Tree α)) Thrown PUnit :=
  whenUnwinding (within (deallocate node))

def makeNode (alloc : Allocator) (value : Reference α) : Prog (Execution (Tree α)) Thrown Ptr := do
  let node ← allocateNodeInternal alloc
  scopeExit (constructNode node value) (dealocateNodeIfRaisedExceptionInternal node)
  pure node

/-- `TDeleter::operator()` with `exactly_destroy_node_value`. -/
def dispose (node : Ptr) : Prog (Execution (Tree α)) Thrown PUnit :=
  scopeExit (within (destructValue node)) (within (deallocate node))

def disposeAll : List Ptr → Prog (Execution (Tree α)) Thrown PUnit
  | [] => pure PUnit.unit
  | node :: nodes => do
    dispose node
    disposeAll nodes

/-! ### The local list of a bulk insertion -/

/-- `constructedNodesForStrongExeptionSafety.push_back`, which links the node. -/
def pushBack (node : Ptr) : Prog (Execution (Tree α × List Ptr)) Thrown PUnit := do
  outer (within (store node id))
  let nodes ← getLocal
  setLocal (nodes ++ [node])

/-- `constructedNodesForStrongExeptionSafety.clear_and_dispose`. -/
def clearAndDispose : Prog (Execution (Tree α × List Ptr)) Thrown PUnit := do
  let nodes ← getLocal
  outer (disposeAll nodes)
  setLocal []

/-- The loop of `insert(pos, count, value)`. -/
def fillCount (alloc : Allocator) (value : Reference α) :
    Nat → Prog (Execution (Tree α × List Ptr)) Thrown PUnit
  | 0 => pure PUnit.unit
  | count + 1 => do
    let node ← outer (makeNode alloc value)
    pushBack node
    fillCount alloc value count

/-- `first == last`. -/
def atEnd : Cursor α → Bool
  | .values rest => rest.isEmpty
  | .elements _ current last => current = last

/-- `first++`: what the old place refers to, and the next place. -/
def next (this : Implementation α Thrown) :
    Cursor α → Prog (Tree α) Thrown (Reference α × Cursor α)
  | .values [] => stuck
  | .values (v :: rest) => pure (.value v, .values rest)
  | .elements source current last => do
    let next ← zoom (fun t => ⟨t.heap, source⟩) (fun t t' => ⟨t'.heap, t.stump⟩)
      (this.increment current)
    pure (.element current, .elements source next last)

/-- How many rounds the loop over a source may take. -/
def roundsOf (heap : Heap α) : Cursor α → Nat
  | .values rest => rest.length + 1
  | .elements _ _ _ => heap.live.length + 1

/-- A round of the loop of `insert(pos, first, last)`, with the three operations on
the source iterator. -/
def fillRound (this : Implementation α Thrown) (alloc : Allocator) (cursor : Cursor α) :
    Prog (Execution (Tree α × List Ptr)) Thrown (Cursor α ⊕ PUnit) := do
  mayThrow .iterator
  if atEnd cursor then pure (.inr PUnit.unit)
  else do
    mayThrow .iterator
    let (value, cursor) ← outer (within (next this cursor))
    mayThrow .iterator
    let node ← outer (makeNode alloc value)
    pushBack node
    pure (.inl cursor)

/-- The loop of `insert(pos, first, last)`. -/
def fillRange (this : Implementation α Thrown) (alloc : Allocator) (cursor : Cursor α) :
    Prog (Execution (Tree α × List Ptr)) Thrown PUnit := do
  let tree ← outer (within Prog.get)
  loop (fillRound this alloc) (roundsOf tree.heap cursor) cursor

/-- The nodes of a bulk insertion. -/
def constructNodes (fill : Prog (Execution (Tree α × List Ptr)) Thrown PUnit) :
    Prog (Execution (Tree α)) Thrown (List Ptr) :=
  withLocal [] do
    scopeExit fill (whenUnwinding clearAndDispose)
    getLocal

/-! ### The calls -/

variable (this : Implementation α Thrown) (alloc : Allocator)

def emplace (it : Ptr) (value : Reference α) : Prog (Execution (Tree α)) Thrown Ptr := do
  let node ← makeNode alloc value
  within (this.insertBefore it node)

def insertCount (pos : Ptr) (count : Nat) (value : Reference α) :
    Prog (Execution (Tree α)) Thrown Ptr := do
  let nodes ← constructNodes (fillCount alloc value count)
  within (this.insertNodesFromListAndReturnFirstInserted nodes pos)

def insertRange (pos : Ptr) (cursor : Cursor α) : Prog (Execution (Tree α)) Thrown Ptr := do
  let nodes ← constructNodes (fillRange this alloc cursor)
  within (this.insertNodesFromListAndReturnFirstInserted nodes pos)

end Throwing

/-! ### What is read -/

variable {h h' : Heap α} {S : List Ptr} {v : α} {value : Reference α} {cursor : Cursor α}

def Reference.Denotes (h : Heap α) (v : α) : Reference α → Prop
  | .value v' => v' = v
  | .element p => valueAt h p = some v

/-- The values a source has still to give. -/
def Cursor.Gives (h : Heap α) (vs : List α) : Cursor α → Prop
  | .values rest => rest = vs
  | .elements source current last => ∃ ca cm cb, Holds ⟨h, source⟩ (ca ++ cm ++ cb) ∧
    current = startOf source.end_ (cm ++ cb) ∧ last = startOf source.end_ cb ∧
    cm.map Prod.snd = vs

theorem Holds.valueAt {s : Tree α} {cells : List (Cell α)} {c : Cell α} (hH : Holds s cells)
    (hc : c ∈ cells) : valueAt s.heap c.1 = some c.2 := by
  unfold RandomAccessList.valueAt
  rw [if_pos (hH.live c.1 (fst_mem_own _ hc))]
  exact hH.values c hc

theorem Grown.valueAt (hG : Grown S h h') {p : Ptr} (hv : valueAt h p = some v) :
    valueAt h' p = some v := by
  unfold RandomAccessList.valueAt at hv ⊢
  split at hv
  · next hp => rw [if_pos (hG.mem_live.mpr (.inr hp)), hG.node p hp, hv]
  · cases hv

theorem Reference.Denotes.grown (hv : value.Denotes h v) (hG : Grown S h h') :
    value.Denotes h' v := by
  cases value with
  | value _ => exact hv
  | element p => exact hG.valueAt hv

theorem Cursor.Gives.grown {vs : List α} (hc : cursor.Gives h vs) (hG : Grown S h h') :
    cursor.Gives h' vs := by
  cases cursor with
  | values _ => exact hc
  | elements source current last =>
    obtain ⟨ca, cm, cb, hH, hfirst, hlast, hvs⟩ := hc
    exact ⟨ca, cm, cb, hG.holds hH, hfirst, hlast, hvs⟩

theorem Cursor.Gives.length_lt {vs : List α} (hc : cursor.Gives h vs) :
    vs.length < Throwing.roundsOf h cursor := by
  cases cursor with
  | values rest => exact hc ▸ Nat.lt_succ_self _
  | elements source current last =>
    obtain ⟨ca, cm, cb, hH, -, -, rfl⟩ := hc
    have hlen := hH.length_le
    simp only [List.length_append] at hlen
    rw [List.length_map]
    exact Nat.lt_succ_of_le (by omega)

/-- The source ends where it has nothing to give. -/
theorem Cursor.Gives.atEnd_eq {vs : List α} (hc : cursor.Gives h vs) :
    Throwing.atEnd cursor = vs.isEmpty := by
  cases cursor with
  | values rest => exact congrArg List.isEmpty hc
  | elements source current last =>
    obtain ⟨ca, cm, cb, hH, rfl, rfl, rfl⟩ := hc
    cases cm with
    | nil => exact decide_eq_true rfl
    | cons c cm => exact decide_eq_false hH.startOf_ne

/-! ### What is made -/

/-- The nodes of the elements `news` were made. -/
structure Constructed (news : List (Cell α)) (t t' : Execution (Tree α)) : Prop where
  continues : Continues t t'
  stump : t'.data.stump = t.data.stump
  made : Made news t.data.heap t'.data.heap

/-- Left by an exception, with everything as before. -/
structure RolledBack (t t' : Execution (Tree α)) : Prop where
  raised : Raised t t'
  stump : t'.data.stump = t.data.stump
  heap : Grown [] t.data.heap t'.data.heap

/-- The local list has the nodes of `news`, which were made since `s`. -/
structure Filling (s : Tree α) (news : List (Cell α)) (t : Execution (Tree α × List Ptr)) :
    Prop where
  stump : t.data.1.stump = s.stump
  nodes : t.data.2 = nodes news
  made : Made news s.heap t.data.1.heap

theorem Filling.of_data {s : Tree α} {news : List (Cell α)}
    {t t' : Execution (Tree α × List Ptr)} (hF : Filling s news t) (hdata : t'.data = t.data) :
    Filling s news t' := ⟨hdata ▸ hF.stump, hdata ▸ hF.nodes, hdata ▸ hF.made⟩

namespace Throwing

variable {this : Implementation α Thrown} {moves : Prop} {alloc : Allocator}
  {t : Execution (Tree α)} {E : ε → Tree α → Prop} {s : Tree α} {news : List (Cell α)}

theorem wp_getValue {Q : α → Tree α → Prop} (hv : value.Denotes s.heap v) (hQ : Q v s) :
    wp (get value) Q E s := by
  cases value with
  | value v' =>
    obtain rfl : v' = v := hv
    exact hQ
  | element p => exact (wp_read _).mpr ⟨v, hv, hQ⟩

/-- The handler of `makeNode`. -/
theorem wp_dealocateNodeIfRaised {p : Ptr} {Q : PUnit → Execution (Tree α) → Prop}
    {E : Thrown → Execution (Tree α) → Prop} (hp : p ∈ t.data.heap.live)
    (hfree : 0 < t.uncaught →
      Q PUnit.unit (t.withData { t.data with heap := t.data.heap.free p }))
    (hkeep : t.uncaught = 0 → Q PUnit.unit t) :
    wp (dealocateNodeIfRaisedExceptionInternal p) Q E t := by
  unfold dealocateNodeIfRaisedExceptionInternal
  rw [wp_whenUnwinding]
  refine ⟨fun hu => ?_, hkeep⟩
  rw [wp_within, wp_deallocate]
  exact ⟨hp, hfree hu⟩

/-- **`makeNode`** makes one node, or leaves nothing. -/
theorem wp_makeNode (hu : t.uncaught = 0) (hv : value.Denotes t.data.heap v) :
    wp (makeNode alloc value) (fun p t' => Constructed [(p, v)] t t')
      (fun _ t' => RolledBack t t') t := by
  have hfresh := alloc.fresh t.data.heap.allocations t.data.heap.live
  unfold makeNode allocateNodeInternal
  rw [wp_bind, wp_bind]
  refine wp_mayThrow (fun t₁ hcont hdata => ?_) fun t₁ hraised hdata => ?_
  · rw [wp_within, wp_allocate, hdata]
    generalize alloc.pick t.data.heap.allocations t.data.heap.live = p at hfresh
    have hG := Grown.add t.data.heap hfresh (TAvlTreeNode.make none)
    rw [wp_bind, wp_scopeExit]
    unfold constructNode
    rw [wp_bind]
    refine wp_mayThrow (fun t₂ hcont' hdata' => ?_) fun t₂ hraised hdata' => ?_
    · rw [wp_within, hdata', wp_bind]
      refine wp_getValue (hv.grown hG) ?_
      rw [wp_store]
      have hdone : Continues t t₂ := hcont.trans ((continues_withData_left _).mp hcont')
      refine ⟨List.mem_cons_self, wp_dealocateNodeIfRaised List.mem_cons_self (fun hpos => ?_)
        fun _ =>
          ⟨(continues_withData_right _).mpr hdone, rfl, Made.single _ hfresh v⟩⟩
      rw [withData_uncaught, hdone.uncaught, hu] at hpos
      exact absurd hpos (Nat.lt_irrefl 0)
    · have hdone : Raised t t₂ := hcont.raised ((raised_withData_left _).mp hraised)
      have hp : p ∈ t₂.data.heap.live := by
        rw [hdata']
        exact List.mem_cons_self
      refine wp_dealocateNodeIfRaised hp (fun _ => ⟨(raised_withData_right _).mpr hdone, ?_, ?_⟩)
        fun hzero => ?_
      · rw [withData_data, hdata']
        rfl
      · rw [withData_data, hdata']
        exact hG.free (congrArg TAvlTreeNode.value (if_pos rfl))
      · rw [hdone.uncaught] at hzero
        cases hzero
  · exact ⟨hraised, by rw [hdata], by rw [hdata]; exact .refl _⟩

theorem wp_disposeAll (h₀ : Heap α) : ∀ {news : List (Cell α)} {t : Execution (Tree α)}
    {E : Thrown → Execution (Tree α) → Prop}, Grown (nodes news) h₀ t.data.heap →
    Loose t.data.heap news →
    wp (disposeAll (nodes news)) (fun _ t' => Continues t t' ∧ t'.data.stump = t.data.stump ∧
      Grown [] h₀ t'.data.heap) E t := by
  intro news
  induction news with
  | nil => exact fun hG _ => ⟨.refl _, rfl, hG⟩
  | cons c news ih =>
    intro t E hG hL
    have hn := List.nodup_cons.mp hL.nodup
    show wp (do
      dispose c.1
      disposeAll (nodes news)) _ E t
    unfold dispose
    rw [wp_bind, wp_scopeExit, wp_within, wp_destructValue, hL.values c List.mem_cons_self]
    refine ⟨rfl, hL.live c List.mem_cons_self, ?_⟩
    rw [wp_within, wp_deallocate]
    refine ⟨hL.live c List.mem_cons_self, ?_⟩
    rw [withData_withData, withData_data]
    have hne : ∀ d ∈ news, d.1 ≠ c.1 := fun d hd he => hn.1 (he ▸ fst_mem_nodes hd)
    refine (ih ?_ ⟨hn.2, fun d hd => ?_, fun d hd => ?_⟩).imp fun _ t' h => ?_
    · refine (hG.set (List.mem_cons_self) _).free ?_
      rw [Heap.node_set_self]
    · exact (List.mem_erase_of_ne (hne d hd)).mpr (hL.live d (List.mem_cons_of_mem _ hd))
    · have hnode := Heap.node_set_of_ne (hne d hd) t.data.heap fun node : TAvlTreeNode α =>
        { node with value := none }
      exact (congrArg TAvlTreeNode.value hnode).trans (hL.values d (List.mem_cons_of_mem _ hd))
    · rwa [continues_withData_left, withData_data] at h

/-! ### The local list -/

section Filling

variable {t : Execution (Tree α × List Ptr)} {E : Thrown → Execution (Tree α × List Ptr) → Prop}
  {s : Tree α} {vs : List α}

theorem wp_pushBack {node : Ptr} {Q : PUnit → Execution (Tree α × List Ptr) → Prop}
    (hp : node ∈ t.data.1.heap.live)
    (hQ : Q PUnit.unit (t.withData (t.data.1, t.data.2 ++ [node]))) :
    wp (pushBack node) Q E t := by
  unfold pushBack
  rw [wp_bind, wp_outer, wp_within, wp_store, wp_bind, wp_getLocal, wp_setLocal]
  refine ⟨hp, ?_⟩
  have hid : t.data.1.heap.set node id = t.data.1.heap := by
    unfold Heap.set
    congr 1
    funext q
    split
    · next h => rw [h]; rfl
    · rfl
  dsimp only [withData_data]
  rw [hid]
  exact hQ

theorem wp_pushNode {k : Prog (Execution (Tree α × List Ptr)) Thrown β}
    {Q : β → Execution (Tree α × List Ptr) → Prop} (hu : t.uncaught = 0) (hF : Filling s news t)
    (hv : value.Denotes s.heap v)
    (hQ : ∀ p t', Continues t t' → Filling s (news ++ [(p, v)]) t' → wp k Q E t')
    (hE : ∀ e t', Raised t t' → Filling s news t' → E e t') :
    wp (do
      let node ← outer (makeNode alloc value)
      pushBack node
      k) Q E t := by
  rw [wp_bind, wp_outer]
  refine wp_mono (fun p t' hC => ?_) (fun e t' hR => ?_)
    (wp_makeNode (t := t.withData t.data.1) hu (hv.grown hF.made.grown))
  · have hp : p ∈ t'.data.heap.live := hC.made.loose.live (p, v) List.mem_cons_self
    rw [wp_bind]
    refine wp_pushBack hp (hQ p _ ?_ ⟨hC.stump.trans hF.stump, ?_, hF.made.next hC.made⟩)
    · simpa using hC.continues
    · rw [withData_data, withData_data, hF.nodes, nodes_append]
      rfl
  · exact hE e _ (by simpa using hR.raised)
      ⟨hR.stump.trans hF.stump, hF.nodes, hF.made.kept hR.heap⟩

/-- What a loop that fills the local list does. -/
def Fills (fill : Prog (Execution (Tree α × List Ptr)) Thrown PUnit) (s : Tree α)
    (vs : List α) (t : Execution (Tree α × List Ptr)) (news : List (Cell α)) : Prop :=
  wp fill (fun _ t' => Continues t t' ∧ ∃ more : List (Cell α), more.map Prod.snd = vs ∧
      Filling s (news ++ more) t')
    (fun _ t' => Raised t t' ∧ ∃ news', Filling s news' t') t

theorem fillCount_fills (hv : value.Denotes s.heap v) (count : Nat) :
    ∀ {news : List (Cell α)} {t : Execution (Tree α × List Ptr)}, t.uncaught = 0 →
      Filling s news t → Fills (fillCount alloc value count) s (List.replicate count v) t news := by
  induction count with
  | zero =>
    intro news t _ hF
    exact ⟨.refl t, [], rfl, by rwa [List.append_nil]⟩
  | succ count ih =>
    intro news t hu hF
    refine wp_pushNode hu hF hv (fun p t' hcont hF' => ?_) fun e t' hR hF' => ⟨hR, news, hF'⟩
    refine wp_mono ?_ ?_ (ih (hcont.uncaught.trans hu) hF')
    · rintro _ t'' ⟨hcont', more, hmore, hF''⟩
      refine ⟨hcont.trans hcont', (p, v) :: more, ?_, ?_⟩
      · rw [List.map_cons, hmore]
        rfl
      · rwa [List.append_assoc] at hF''
    · rintro e t'' ⟨hR, hF''⟩
      exact ⟨hcont.raised hR, hF''⟩

/-- `first++` over a source that has something to give. -/
theorem wp_next (hS : this.Sound moves) {E : Thrown → Tree α → Prop} {h : Heap α} {S : List Ptr}
    (hc : cursor.Gives h (v :: vs)) (hG : Grown S h s.heap) :
    wp (next this cursor) (fun r s' => s' = s ∧ r.1.Denotes h v ∧ r.2.Gives h vs) E s := by
  cases cursor with
  | values rest =>
    obtain rfl : rest = v :: vs := hc
    exact ⟨rfl, rfl, rfl⟩
  | elements source current last =>
    obtain ⟨ca, cm, cb, hH, rfl, rfl, hvs⟩ := hc
    obtain ⟨c, cm, rfl, rfl, rfl⟩ := List.map_eq_cons_iff.mp hvs
    have hc : Holds ⟨h, source⟩ (ca ++ (c.1, c.2) :: (cm ++ cb)) := by simpa using hH
    unfold next
    rw [wp_bind, wp_zoom]
    refine hS.wp_increment ca (hG.holds hc) ?_
    exact ⟨rfl, hc.valueAt (c := c) (by simp), ca ++ [c], cm, cb, by simpa using hH, rfl, rfl, rfl⟩

/-- A round of the loop over a source that has something to give. -/
theorem wp_fillRound (hS : this.Sound moves) {Q : Cursor α ⊕ PUnit → _ → Prop}
    (hc : cursor.Gives s.heap (v :: vs)) (hu : t.uncaught = 0) (hF : Filling s news t)
    (hQ : ∀ p cursor' t', cursor'.Gives s.heap vs → Continues t t' →
      Filling s (news ++ [(p, v)]) t' → Q (.inl cursor') t')
    (hE : ∀ e t', Raised t t' → Filling s news t' → E e t') :
    wp (fillRound this alloc cursor) Q E t := by
  unfold fillRound
  rw [wp_bind]
  refine wp_mayThrow (fun t₁ hcont₁ hdata₁ => ?_) fun t₁ hR hdata => hE _ t₁ hR (hF.of_data hdata)
  rw [hc.atEnd_eq, if_neg (by simp), wp_bind]
  refine wp_mayThrow (fun t₂ hcont₂ hdata₂ => ?_) fun t₂ hR hdata =>
    hE _ t₂ (hcont₁.raised hR) (hF.of_data (hdata.trans hdata₁))
  have hcont₂ := hcont₁.trans hcont₂
  have hF₂ := hF.of_data (hdata₂.trans hdata₁)
  rw [wp_bind, wp_outer, wp_within]
  refine (wp_next hS hc hF₂.made.grown).imp ?_
  rintro ⟨value, cursor'⟩ s' ⟨rfl, hv, hc'⟩
  rw [wp_bind]
  refine wp_mayThrow (fun t₃ hcont₃ hdata₃ => ?_) fun t₃ hR hdata =>
    hE _ t₃ (hcont₂.raised ((raised_withData_left _).mp hR)) (hF₂.of_data hdata)
  have hcont₃ := hcont₂.trans ((continues_withData_left _).mp hcont₃)
  exact wp_pushNode (hcont₃.uncaught.trans hu) (hF₂.of_data hdata₃) hv
    (fun p t' hcont' hF' => hQ p cursor' t' hc' (hcont₃.trans hcont') hF')
    fun e t' hR hF' => hE e t' (hcont₃.raised hR) hF'

theorem fillRange_fills (hS : this.Sound moves) (hc : cursor.Gives s.heap vs)
    (hu : t.uncaught = 0) (hF : Filling s [] t) :
    Fills (fillRange this alloc cursor) s vs t [] := by
  unfold Fills fillRange
  rw [wp_bind, wp_outer, wp_within, wp_get]
  refine wp_loop (I := fun n cursor t' => ∃ (news : List (Cell α)) (rest : List α),
    news.map Prod.snd ++ rest = vs ∧ n = rest.length ∧ cursor.Gives s.heap rest ∧
    Continues t t' ∧ Filling s news t') ?_ _ vs.length cursor t
    ⟨[], vs, rfl, rfl, hc, .refl t, hF⟩ (hc.grown hF.made.grown).length_lt
  rintro n cursor t' ⟨news, rest, rfl, rfl, hc, hcont, hF⟩
  cases rest with
  | nil =>
    unfold fillRound
    rw [wp_bind]
    refine wp_mayThrow (fun t₁ hcont₁ hdata₁ => ?_) fun t₁ hR hdata =>
      ⟨hcont.raised hR, news, hF.of_data hdata⟩
    rw [hc.atEnd_eq, if_pos List.isEmpty_nil, wp_pure]
    exact ⟨hcont.trans hcont₁, news, by simp, hF.of_data hdata₁⟩
  | cons v rest =>
    refine wp_fillRound hS hc (hcont.uncaught.trans hu) hF (fun p cursor' t'' hc' hcont' hF' => ?_)
      fun e t'' hR hF' => ⟨hcont.raised hR, news, hF'⟩
    exact ⟨rest.length, Nat.lt_succ_self _, news ++ [(p, v)], rest, by simp, rfl, hc',
      hcont.trans hcont', hF'⟩

end Filling

/-- **The nodes of a bulk insertion** are all made, or nothing is left of them. -/
theorem wp_constructNodes {fill : Prog (Execution (Tree α × List Ptr)) Thrown PUnit} {vs : List α}
    (hu : t.uncaught = 0)
    (hfill : ∀ t₀ : Execution (Tree α × List Ptr), t₀.uncaught = 0 → Filling t.data [] t₀ →
      Fills fill t.data vs t₀ []) :
    wp (constructNodes fill) (fun x t' => ∃ news : List (Cell α), news.map Prod.snd = vs ∧
      x = nodes news ∧ Constructed news t t') (fun _ t' => RolledBack t t') t := by
  unfold constructNodes
  rw [wp_withLocal, wp_bind, wp_scopeExit]
  refine wp_mono ?_ ?_ (hfill (t.withData (t.data, [])) hu ⟨rfl, rfl, .refl _⟩)
  · rintro _ t₁ ⟨hcont, news, rfl, hF⟩
    rw [List.nil_append] at hF
    rw [continues_withData_left] at hcont
    rw [wp_whenUnwinding]
    refine ⟨fun hpos => absurd hpos (by rw [hcont.uncaught, hu]; decide), fun _ => ?_⟩
    rw [wp_getLocal]
    exact ⟨news, rfl, hF.nodes, (continues_withData_right _).mpr hcont, hF.stump, hF.made⟩
  · rintro e t₁ ⟨hR, news, hF⟩
    rw [raised_withData_left] at hR
    rw [wp_whenUnwinding]
    refine ⟨fun _ => ?_, fun hzero => by rw [hR.uncaught] at hzero; cases hzero⟩
    unfold clearAndDispose
    rw [wp_bind, wp_getLocal, wp_bind, wp_outer, hF.nodes]
    refine (wp_disposeAll t.data.heap (t := t₁.withData t₁.data.1) hF.made.grown
      hF.made.loose).imp ?_
    rintro _ t₂ ⟨hcont, hst, hG⟩
    rw [wp_setLocal]
    refine ⟨(raised_withData_right _).mpr (hR.continues ?_), hst.trans hF.stump, hG⟩
    simpa using hcont

end Throwing

end Garbage.RandomAccessList
