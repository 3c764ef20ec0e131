import Garbage.RandomAccessList.Construction

/-!
# `assign`

`assign` fills a temporary list, exchanges the pointers, and the temporary list goes
with the old elements.  So the source may be in the list itself, and up to the
exchange nothing of the list is touched.  If the filling fails, the temporary list is
deleted and everything is as before (`Throwing.wp_assign`).

The one thing that is wrong is in `makeImplementation`: where the allocation of a gap
node of the temporary list throws, its deleter destroys an object that is not there
(`Throwing.not_wp_assign`).

The last part says what insertions and assignments do to the lists of a memory.
-/

namespace Garbage.RandomAccessList

open Foundation (Prog Machine Execution)
open Foundation.Prog
open Foundation.Execution

variable {α β ε : Type}

/-- The overloads of `assign`; the copy assignment is the one of a range. -/
inductive Assignment (α : Type) where
  | count (n : Nat)
  | countValue (n : Nat) (value : Reference α)
  | range (cursor : Cursor α)

namespace Throwing

variable (this : Implementation α Thrown) (alloc : Allocator)

/-- `emplace_back` and `push_back`. -/
def emplaceBack (value : Reference α) : Prog (Execution (Tree α)) Thrown Ptr := do
  let it ← within Container.end_
  emplace this alloc it value

/-- The loops of `assign(count)` and `assign(count, value)`. -/
def pushBackTimes (value : Reference α) : Nat → Prog (Execution (Tree α)) Thrown PUnit
  | 0 => pure PUnit.unit
  | n + 1 => do
    let _ ← emplaceBack this alloc value
    pushBackTimes value n

/-- What `assign` does to the temporary list; `valueType` is `value_type()`. -/
def fill (valueType : α) : Assignment α → Prog (Execution (Tree α)) Thrown PUnit
  | .count n => pushBackTimes this alloc (.value valueType) n
  | .countValue n value => pushBackTimes this alloc value n
  | .range cursor => do
    let pos ← within Container.end_
    let _ ← insertRange this alloc pos cursor
    pure PUnit.unit

/-- `assign`, for the list in block `b`: the pointer of the list afterwards. -/
def assign (blockAlloc : Allocator) (valueType : α) (b : Ptr) (asg : Assignment α) :
    Prog (Execution (Memory α)) Thrown Ptr := do
  let tmp ← makeImplementation this alloc blockAlloc
  onUnwind (onObject tmp (fill this alloc valueType asg)) (deleteImplementation this tmp)
  deleteImplementation this b
  pure tmp

end Throwing

/-- The arguments are valid, and denote the values `vs`. -/
def Assignment.Gives (valueType : α) (h : Heap α) (vs : List α) : Assignment α → Prop
  | count n => vs = List.replicate n valueType
  | countValue n value => ∃ v, vs = List.replicate n v ∧ value.Denotes h v
  | range cursor => cursor.Gives h vs

/-! ### The temporary list -/

variable {this : Implementation α Thrown} {moves : Prop} {alloc : Allocator} {valueType v : α}
  {vs : List α} {value : Reference α} {asg : Assignment α} {ca news cb cells : List (Cell α)}

namespace Temporary

variable {h : Heap α} {s s' : Tree α} {first : Ptr}

theorem inserted (hT : Temporary h (ca ++ cb) s) (hI : Inserted ca news cb s s' first) :
    Temporary h (ca ++ news ++ cb) s' := by
  obtain ⟨h₁, hM, he⟩ := hI.made
  have hG := hT.grown.trans hM.grown
  have hends := hI.changed.ends
  refine ⟨hI.changed.holds, ?_, fun x hx => ?_⟩
  · rw [hends.own_eq]
    refine (hG.edits he (List.Subset.refl _)).perm (List.perm_iff_count.mpr fun x => ?_)
    simp only [own, nodes_append, List.count_append, List.count_cons]
    omega
  · rw [hends.own_eq] at hx
    have hlive : x ∈ s.heap.live := hT.holds.live x (own_subset (List.nil_subset _) hx)
    rw [he.value, hM.grown.node x hlive]
    exact hT.gaps x hx

/-- The list is still there after a rollback. -/
theorem kept {h' : Heap α} (hT : Temporary h cells s) (hG : Grown [] s.heap h') :
    Temporary h cells ⟨h', s.stump⟩ := by
  refine ⟨hG.holds hT.holds, hT.grown.trans hG, fun x hx => ?_⟩
  rw [hG.node x (hT.holds.live x (own_subset (List.nil_subset _) hx))]
  exact hT.gaps x hx

theorem rolledBack {t t' : Execution (Tree α)} (hT : Temporary h cells t.data)
    (hR : RolledBack t t') : Temporary h cells t'.data := by
  have hT' := hT.kept hR.heap
  rw [← hR.stump] at hT'
  exact hT'

end Temporary

/-- What a program on the tree of a new list leaves. -/
theorem WithList.put {b : Ptr} {stump : AvlTreeStump} {cells' : List (Cell α)} {m m' : Memory α}
    {tree : Tree α} (hW : WithList b stump cells m m') (hT : Temporary m.heap cells' tree) :
    WithList b tree.stump cells' m (m'.put b tree) :=
  ⟨hW.fresh, AList.lookup_insert _,
    fun b' hb' => (AList.lookup_insert_ne hb').trans (hW.blocks b' hb'), hT⟩

/-! ### Filling it -/

namespace Throwing

variable {t : Execution (Tree α)} {h : Heap α}

/-- The last place of the temporary list. -/
theorem wp_end {E : Thrown → Execution (Tree α) → Prop} {Q : Ptr → Execution (Tree α) → Prop} :
    wp (within Container.end_) Q E t ↔ Q t.data.stump.end_ t := by
  rw [wp_within, Container.wp_end_, withData_self]

theorem wp_insertEnd {ins : Insertion α} (hS : this.Sound moves) (hu : t.uncaught = 0)
    (hT : Temporary h cells t.data) (hg : ins.Gives t.data.heap vs) :
    wp (ins.exec this alloc t.data.stump.end_)
      (fun _ t' => Continues t t' ∧ ∃ news : List (Cell α), news.map Prod.snd = vs ∧
        Temporary h (cells ++ news) t'.data)
      (fun _ t' => Raised t t' ∧ Temporary h cells t'.data) t := by
  rw [← List.append_nil cells] at hT
  refine wp_mono ?_ ?_ (Insertion.wp_exec hS hu hT.holds hg)
  · rintro _ t' ⟨hcont, news, hvs, hI⟩
    have hT' := hT.inserted hI
    rw [List.append_nil] at hT'
    exact ⟨hcont, news, hvs, hT'⟩
  · rintro _ t' hR
    have hT' := hT.rolledBack hR
    rw [List.append_nil] at hT'
    exact ⟨hR.raised, hT'⟩

theorem wp_pushBackTimes (hS : this.Sound moves) (hv : value.Denotes h v) (n : Nat) :
    ∀ {cells : List (Cell α)} {t : Execution (Tree α)}, t.uncaught = 0 →
      Temporary h cells t.data →
      wp (pushBackTimes this alloc value n)
        (fun _ t' => Continues t t' ∧ ∃ news : List (Cell α),
          news.map Prod.snd = List.replicate n v ∧ Temporary h (cells ++ news) t'.data)
        (fun _ t' => Raised t t' ∧ ∃ cells', Temporary h cells' t'.data) t := by
  induction n with
  | zero =>
    intro cells t _ hT
    exact ⟨.refl t, [], rfl, by rwa [List.append_nil]⟩
  | succ n ih =>
    intro cells t hu hT
    show wp (do
      let _ ← emplaceBack this alloc value
      pushBackTimes this alloc value n) _ _ t
    unfold emplaceBack
    rw [wp_bind, wp_bind, wp_end]
    have hg : (Insertion.emplace value).Gives t.data.heap [v] := ⟨v, rfl, hv.grown hT.grown⟩
    refine wp_mono ?_ ?_ (wp_insertEnd hS hu hT hg)
    · rintro _ t₁ ⟨hcont, news, hnews, hT₁⟩
      refine wp_mono ?_ ?_ (ih (hcont.uncaught.trans hu) hT₁)
      · rintro _ t₂ ⟨hcont', more, hmore, hT₂⟩
        refine ⟨hcont.trans hcont', news ++ more, ?_, by rwa [List.append_assoc] at hT₂⟩
        rw [List.map_append, hnews, hmore]
        rfl
      · rintro _ t₂ ⟨hR, hT₂⟩
        exact ⟨hcont.raised hR, hT₂⟩
    · rintro _ t₁ ⟨hR, hT₁⟩
      exact ⟨hR, cells, hT₁⟩

/-- **The temporary list is filled**, or it has some elements when it is left. -/
theorem wp_fill (hS : this.Sound moves) (hu : t.uncaught = 0) (hT : Temporary h [] t.data)
    (hg : asg.Gives valueType h vs) :
    wp (fill this alloc valueType asg)
      (fun _ t' => Continues t t' ∧ ∃ news : List (Cell α), news.map Prod.snd = vs ∧
        Temporary h news t'.data)
      (fun _ t' => Raised t t' ∧ ∃ cells, Temporary h cells t'.data) t := by
  cases asg with
  | count n =>
    obtain rfl : vs = List.replicate n valueType := hg
    have hv : (Reference.value valueType).Denotes h valueType := rfl
    exact wp_pushBackTimes hS hv n hu hT
  | countValue n value =>
    obtain ⟨v, rfl, hv⟩ := hg
    exact wp_pushBackTimes hS hv n hu hT
  | range cursor =>
    unfold fill
    rw [wp_bind, wp_end, wp_bind]
    have hg : (Insertion.range cursor).Gives t.data.heap vs := Cursor.Gives.grown hg hT.grown
    refine wp_mono ?_ ?_ (wp_insertEnd hS hu hT hg)
    · exact fun _ _ h => h
    · rintro _ t' ⟨hR, hT'⟩
      exact ⟨hR, [], hT'⟩

/-! ### `assign` -/

section Assign

variable {t : Execution (Memory α)} {b : Ptr} {stump : AvlTreeStump}

theorem not_wp_assign (alloc blockAlloc : Allocator) {Q : Ptr → Execution (Memory α) → Prop}
    {E : Thrown → Execution (Memory α) → Prop} (hu : t.uncaught = 0)
    (h : t.failAt = some 1 ∨ t.failAt = some 2) :
    ¬ wp (assign this alloc blockAlloc valueType b asg) Q E t := by
  unfold assign
  rw [wp_bind]
  exact not_wp_makeImplementation blockAlloc hu h

/-- **`assign`** replaces the list by a new one, or leaves everything as it was. -/
theorem wp_assign (w : Nat) (alloc blockAlloc : Allocator) (hu : t.uncaught = 0)
    (h1 : t.failAt ≠ some 1) (h2 : t.failAt ≠ some 2)
    (hb : t.data.blocks.lookup b = some (some stump)) (hH : Holds ⟨t.data.heap, stump⟩ cells)
    (hg : asg.Gives valueType t.data.heap vs) :
    wp (assign (released w) alloc blockAlloc valueType b asg)
      (fun b' t' => Continues t t' ∧ ∃ m stump' news, news.map Prod.snd = vs ∧
        WithList b' stump' news t.data m ∧ Deleted b stump cells m t'.data)
      (fun _ t' => Raised t t' ∧ Restored t.data t'.data) t := by
  unfold assign
  rw [wp_bind]
  refine wp_makeImplementation blockAlloc hu h1 h2 (fun tmp members t₁ h0 hpass hW => ?_)
    fun e t' _ hR hM => ⟨hR, hM⟩
  have hcont := hpass.continues
  rw [wp_bind, wp_onUnwind, wp_onObject hW.object]
  refine wp_mono ?_ ?_ (wp_fill (released_sound w) (hcont.uncaught.trans hu) hW.list hg)
  · rintro _ t₂ ⟨hcont₂, news, hvs, hT⟩
    have hW₂ := hW.put hT
    have hne : b ≠ tmp := fun he => hW.fresh (he ▸ AList.lookup_isSome.mp (by rw [hb]; rfl))
    rw [wp_bind]
    refine wp_deleteImplementation w ((hW₂.blocks b hne).trans hb)
      (hW₂.list.grown.holds hH) fun t₃ hcont₃ hD => ?_
    rw [wp_pure]
    exact ⟨hcont.trans (((continues_withData_left _).mp hcont₂).trans
      ((continues_withData_left _).mp hcont₃)), _, _, news, hvs, hW₂, hD⟩
  · rintro e t₂ ⟨hR, cells', hT⟩
    have hW₂ := hW.put hT
    refine wp_deleteImplementation w hW₂.object hW₂.list.holds fun t₃ hcont₃ hD => ?_
    exact ⟨hcont.raised (((raised_withData_left _).mp hR).continues
      ((continues_withData_left _).mp hcont₃)), hW₂.restored hD⟩

end Assign

end Throwing

/-! ### The other lists -/

section Worlds

variable {m m' : Memory α} {b b' : Ptr} {stump : AvlTreeStump} {e : Nat → Option (Entry α)}

theorem Memory.exists_entry (hw : m.world.Holds e)
    (hb : m.blocks.lookup b = some (some stump)) : ∃ cells, e b = some (stump, cells) := by
  have hl : m.world.lists b = some stump := congrArg Option.join hb
  rw [hw.lists] at hl
  obtain ⟨⟨stump', cells⟩, he, rfl⟩ := Option.map_eq_some_iff.mp hl
  exact ⟨cells, he⟩

theorem lists_eq_update (hw : m.world.Holds e) {o : Option (Entry α)}
    (hself : (m'.blocks.lookup b).join = o.map Prod.fst)
    (hrest : ∀ k, k ≠ b → m'.blocks.lookup k = m.blocks.lookup k) :
    m'.world.lists = fun k => (Function.update e b o k).map Prod.fst := by
  funext k
  by_cases hk : k = b
  · rw [hk, Function.update_self]
    exact hself
  · rw [Function.update_of_ne hk]
    exact (congrArg Option.join (hrest k hk)).trans (congrFun hw.lists k)

theorem WithList.world_holds (hW : WithList b stump news m m') (hw : m.world.Holds e) :
    m'.world.Holds (Function.update e b (some (stump, news))) := by
  have hnone : e b = none := by
    have hlookup := AList.lookup_eq_none.mpr hW.fresh
    have hl : m.world.lists b = none := congrArg Option.join hlookup
    rw [hw.lists] at hl
    exact Option.map_eq_none_iff.mp hl
  refine ⟨hw.owns.replaced (fun x hx => Option.some.inj hx ▸ hW.list.holds) ?_ hW.list.grown.fresh,
    lists_eq_update hw (congrArg Option.join hW.object) hW.blocks⟩
  rw [hnone]
  exact hW.list.grown.outside

theorem Deleted.world_holds (hD : Deleted b stump cells m m') (hw : m.world.Holds e)
    (hb : e b = some (stump, cells)) : m'.world.Holds (Function.update e b none) := by
  refine ⟨hw.owns.replaced (fun _ hx => (nomatch hx)) ?_ fun _ hp => (nomatch hp),
    lists_eq_update hw (congrArg Option.join hD.object) hD.blocks⟩
  rw [hb]
  exact hD.outside

theorem Restored.world_holds (hM : Restored m m') (hw : m.world.Holds e) : m'.world.Holds e := by
  refine ⟨⟨fun l x hx => hM.heap.holds (hw.owns.holds l x hx), hw.owns.disjoint⟩, ?_⟩
  rw [← hw.lists]
  exact funext fun k => congrArg Option.join (hM.blocks k)

end Worlds

/-! ### The guarantee -/

/-- What an insertion before the position `pos` of the list in block `b` leaves, and
returns: `vs` are there in new elements, the iterator is to the first of these or to
`pos`, and the other lists are as before. -/
structure PutIn (b : Ptr) (pos : Nat) (stump : AvlTreeStump) (vs : List α) (m : Memory α)
    (first : Ptr) (m' : Memory α) : Prop where
  elements : ∃ news : List (Cell α), news.map Prod.snd = vs ∧
    m'.world.elements b =
      (m.world.elements b).take pos ++ news ++ (m.world.elements b).drop pos ∧
    first = startOf stump.end_ (news ++ (m.world.elements b).drop pos)
  others : ∀ k, k ≠ b → m'.world.elements k = m.world.elements k

/-- What an assignment to the list in block `b`, afterwards in block `b'`, leaves. -/
structure Assigned (b : Ptr) (vs : List α) (m : Memory α) (b' : Ptr) (m' : Memory α) : Prop where
  values : (m'.world.elements b').map Prod.snd = vs
  deleted : m'.blocks.lookup b = none
  others : ∀ k, k ≠ b → k ≠ b' → m'.world.elements k = m.world.elements k

section Guarantee

variable {t : Execution (Memory α)} {b : Ptr} {stump : AvlTreeStump}
  {e : Nat → Option (Entry α)}

theorem Insertion.wp_onObject {ins : Insertion α} (hS : this.Sound moves) (hu : t.uncaught = 0)
    (hw : t.data.world.Holds e) (hb : t.data.blocks.lookup b = some (some stump)) {pos : Nat}
    (hpos : pos ≤ (t.data.world.elements b).length) (hg : ins.Gives t.data.heap vs) :
    wp (Throwing.onObject b (ins.exec this alloc (Tree.iteratorTo ⟨t.data.heap, stump⟩ pos)))
      (fun first t' => Continues t t' ∧ PutIn b pos stump vs t.data first t'.data ∧
        t'.data.world.Alive)
      (fun _ t' => Raised t t' ∧ Restored t.data t'.data) t := by
  obtain ⟨cells, he⟩ := Memory.exists_entry hw hb
  have hH : Holds ⟨t.data.heap, stump⟩ cells := hw.holds he
  have helements := hw.elements_of_entry he
  rw [helements] at hpos
  obtain ⟨ca, cb, rfl, rfl⟩ := exists_split hpos
  rw [Throwing.wp_onObject hb, Tree.iteratorTo, hH.elements_eq, List.drop_left]
  refine wp_mono ?_ ?_ (Insertion.wp_exec (t := t.withData ⟨t.data.heap, stump⟩) hS hu hH hg)
  · rintro first t' ⟨hcont, news, hvs, hI⟩
    have hobject : (t.data.put b t'.data).blocks.lookup b = some (some t'.data.stump) :=
      AList.lookup_insert _
    have hw' : (t.data.put b t'.data).world.Holds
        (Function.update e b (some (t'.data.stump, ca ++ news ++ cb))) :=
      ⟨hw.owns.changed he hI.changed,
        lists_eq_update hw (congrArg Option.join hobject) fun k hk => AList.lookup_insert_ne hk⟩
    refine ⟨by simpa using hcont, ⟨⟨news, hvs, ?_, ?_⟩, fun k hk => ?_⟩, _, hw'⟩
    · rw [helements, List.take_left, List.drop_left]
      exact hw'.elements_of_entry (Function.update_self ..)
    · rw [helements, List.drop_left]
      exact hI.first_eq
    · rw [withData_data, hw'.elements_eq, hw.elements_eq, contents, contents,
        Function.update_of_ne hk]
  · rintro _ t' hR
    refine ⟨by simpa using hR.raised, fun k => ?_, hR.heap⟩
    by_cases hk : k = b
    · rw [hk, hb]
      exact (AList.lookup_insert _).trans (congrArg (fun st => some (some st)) hR.stump)
    · exact AList.lookup_insert_ne hk

/-- **`assign`**, and the other lists. -/
theorem wp_assign_elements (w : Nat) (alloc blockAlloc : Allocator) (hu : t.uncaught = 0)
    (h1 : t.failAt ≠ some 1) (h2 : t.failAt ≠ some 2) (hw : t.data.world.Holds e)
    (hb : t.data.blocks.lookup b = some (some stump)) (hg : asg.Gives valueType t.data.heap vs) :
    wp (Throwing.assign (released w) alloc blockAlloc valueType b asg)
      (fun b' t' => Continues t t' ∧ Assigned b vs t.data b' t'.data ∧ t'.data.world.Alive)
      (fun _ t' => Raised t t' ∧ Restored t.data t'.data) t := by
  obtain ⟨cells, he⟩ := Memory.exists_entry hw hb
  refine (Throwing.wp_assign w alloc blockAlloc hu h1 h2 hb (hw.holds he) hg).imp ?_
  rintro b' t' ⟨hcont, m, stump', news, hvs, hW, hD⟩
  have hne : b ≠ b' := fun he => hW.fresh (he ▸ AList.lookup_isSome.mp (by rw [hb]; rfl))
  have hw' := hD.world_holds (hW.world_holds hw) ((Function.update_of_ne hne _ _).trans he)
  refine ⟨hcont, ⟨?_, hD.object, fun k hk hk' => ?_⟩, _, hw'⟩
  · rw [hw'.elements_of_entry ((Function.update_of_ne hne.symm _ _).trans
      (Function.update_self ..))]
    exact hvs
  · rw [hw'.elements_eq, hw.elements_eq, contents, contents, Function.update_of_ne hk,
      Function.update_of_ne hk']

end Guarantee

end Garbage.RandomAccessList
