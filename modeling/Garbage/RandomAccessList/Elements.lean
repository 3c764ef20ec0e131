import Garbage.RandomAccessList.Contract
import Mathlib.Data.List.Sort

/-!
# The operations on the elements of one list

`Changed s s' cells cells'`: a list that held `cells` holds `cells'`, with its
gap nodes as before and with nothing else touched, and each element of `cells'`
is an old one, in its old node, or has a node that was not allocated before.
Over any sound implementation, every operation on one list is `Changed` by the
same operation on `cells`.
-/

namespace Garbage.RandomAccessList

open Foundation (Prog Side)
open Foundation.Prog
open AvlTreeStump

variable {α ε : Type} {p : Ptr} {v : α} {cells ca cb cm news : List (Cell α)}

/-- The contents of a list went from `cells` to `cells'`. -/
structure Changed (s s' : Tree α) (cells cells' : List (Cell α)) : Prop where
  holds : Holds s' cells'
  ends : SameEnds s.stump s'.stump
  outside : Outside (own s.stump cells) s.heap s'.heap
  fresh : ∀ c ∈ cells', c ∈ cells ∨ c.1 ∉ s.heap.live

theorem Changed.refl {s : Tree α} (hH : Holds s cells) : Changed s s cells cells :=
  ⟨hH, ⟨rfl, rfl⟩, Outside.refl _ _, fun _ hc => .inl hc⟩

theorem Changed.live_subset {s s' : Tree α} {cells' : List (Cell α)} (hsub : cells ⊆ cells')
    (h : Changed s s' cells cells') : s.heap.live ⊆ s'.heap.live := by
  intro x hx
  by_cases hS : x ∈ own s.stump cells
  · refine h.holds.live x ?_
    rw [h.ends.own_eq]
    exact own_subset hsub hS
  · exact (h.outside x hx hS).1

theorem Changed.trans {s s' s'' : Tree α} {cells' cells'' : List (Cell α)}
    (hsub : cells ⊆ cells') (h : Changed s s' cells cells') (h' : Changed s' s'' cells' cells'') :
    Changed s s'' cells cells'' := by
  refine ⟨h'.holds, h.ends.trans h'.ends, fun x hx hS => ?_, fun c hc => ?_⟩
  · obtain ⟨hx', hnode⟩ := h.outside x hx hS
    have hS' : x ∉ own s'.stump cells' := by
      intro hm
      rw [h.ends.own_eq] at hm
      rcases List.mem_cons.mp hm with rfl | hm
      · exact hS List.mem_cons_self
      · rcases List.mem_append.mp hm with hm | hm
        · obtain ⟨c, hc, rfl⟩ := List.mem_map.mp hm
          exact (h.fresh c hc).elim (fun hc => hS (fst_mem_own _ hc)) fun hc => hc hx
        · exact hS (List.mem_cons_of_mem _ (List.mem_append_right _ hm))
    obtain ⟨hx'', hnode'⟩ := h'.outside x hx' hS'
    exact ⟨hx'', hnode'.trans hnode⟩
  · rcases h'.fresh c hc with hc | hc
    · exact h.fresh c hc
    · exact .inr fun hm => hc (h.live_subset hsub hm)

theorem changed_of_sublist {cells' : List (Cell α)} {s s' : Tree α} (hsub : cells' ⊆ cells)
    (hH' : Holds s' cells') (hends : SameEnds s.stump s'.stump)
    (hout : Outside (own s.stump cells) s.heap s'.heap) : Changed s s' cells cells' :=
  ⟨hH', hends, hout, fun _ hc => .inl (hsub hc)⟩

theorem Holds.loose {s s' : Tree α} {S : List Ptr} (hH : Holds s cells)
    (he : Edits S s.heap s'.heap) : Loose s'.heap cells := by
  refine ⟨(List.nodup_cons.mp hH.nodup).2.of_append_left, fun c hc => ?_, fun c hc => ?_⟩
  · exact he.live ▸ hH.live c.1 (fst_mem_own _ hc)
  · rw [he.value]
    exact hH.values c hc

/-- The loose nodes that are left when the first one is in the list. -/
theorem Loose.inserted {s s' : Tree α} {c : Cell α} {news : List (Cell α)}
    (hL : Loose s.heap (c :: news))
    (hone : CountOne s.heap (nodes (c :: news)))
    (hnew : ∀ d ∈ c :: news, d.1 ∉ own s.stump (ca ++ cb)) (hends : SameEnds s.stump s'.stump)
    (he : Edits (c.1 :: own s.stump (ca ++ cb)) s.heap s'.heap) :
    Loose s'.heap news ∧ CountOne s'.heap (nodes news) ∧
      ∀ d ∈ news, d.1 ∉ own s'.stump (ca ++ [(c.1, c.2)] ++ cb) := by
  have hn := List.nodup_cons.mp hL.nodup
  refine ⟨⟨hn.2, fun d hd => ?_, fun d hd => ?_⟩, fun x hx => ?_, fun d hd hm => ?_⟩
  · exact he.live ▸ hL.live d (List.mem_cons_of_mem _ hd)
  · rw [he.value]
    exact hL.values d (List.mem_cons_of_mem _ hd)
  · obtain ⟨d, hd, rfl⟩ := List.mem_map.mp hx
    have hd' : d ∈ c :: news := List.mem_cons_of_mem _ hd
    have hne : d.1 ∉ c.1 :: own s.stump (ca ++ cb) := fun hm =>
      (List.mem_cons.mp hm).elim (fun he => hn.1 (he ▸ hx)) (hnew d hd')
    rw [he.node d.1 hne]
    exact hone d.1 (fst_mem_nodes hd')
  · rw [hends.own_eq, List.append_assoc, List.singleton_append,
      (own_perm s.stump ca (c.1, c.2) cb).mem_iff] at hm
    rcases List.mem_cons.mp hm with he | hm
    · exact hn.1 (he ▸ fst_mem_nodes hd)
    · exact hnew d (List.mem_cons_of_mem _ hd) hm

/-! ### The rounds of `unique` -/

/-- Between two rounds of `unique`: `ca` and `d` are kept, the elements `ds` come next,
and what follows the erasures was told `gone`. -/
structure UniqueRound (p : α → α → Bool) (R : List (Cell α) → Tree α → Prop) (s : Tree α)
    (cells ca : List (Cell α)) (d : Cell α) (ds gone : List (Cell α)) (s' : Tree α) : Prop where
  holds : Holds s' (ca ++ d :: ds)
  unique : ca ++ d :: uniqueFrom (fun a b => p a.2 b.2) d ds =
    uniqueList (fun a b => p a.2 b.2) cells
  perm : cells.Perm (gone ++ (ca ++ d :: ds))
  told : R gone s'
  ends : SameEnds s.stump s'.stump
  outside : Outside (own s.stump cells) s.heap s'.heap

namespace UniqueRound

variable {p : α → α → Bool} {R : List (Cell α) → Tree α → Prop} {s s' s'' : Tree α}
  {d e : Cell α} {ds gone : List (Cell α)}

theorem start {c : Cell α} {cs : List (Cell α)} (hH : Holds s (c :: cs)) (hR : R [] s) :
    UniqueRound p R s (c :: cs) [] c cs [] s :=
  ⟨hH, rfl, List.Perm.refl _, hR, ⟨rfl, rfl⟩, Outside.refl _ _⟩

theorem subset (hU : UniqueRound p R s cells ca d ds gone s') : ca ++ d :: ds ⊆ cells :=
  fun _ hz => hU.perm.mem_iff.mpr (List.mem_append_right _ hz)

theorem done (hU : UniqueRound p R s cells ca d [] gone s') :
    Changed s s' cells (uniqueList (fun a b => p a.2 b.2) cells) ∧ ∃ gone : List (Cell α),
      cells.Perm (gone ++ uniqueList (fun a b => p a.2 b.2) cells) ∧ R gone s' := by
  have huniq := hU.unique
  rw [uniqueFrom] at huniq
  rw [← huniq]
  exact ⟨changed_of_sublist hU.subset hU.holds hU.ends hU.outside, gone, hU.perm, hU.told⟩

theorem removed (hU : UniqueRound p R s cells ca d (e :: ds) gone s') (hp : p e.2 d.2 = true)
    (hC : Changed s' s'' (ca ++ [d] ++ (e.1, e.2) :: ds) (ca ++ [d] ++ ds))
    (hR : R (gone ++ [e]) s'') : UniqueRound p R s cells ca d ds (gone ++ [e]) s'' := by
  have huniq := hU.unique
  rw [uniqueFrom, if_pos hp] at huniq
  refine ⟨by simpa using hC.holds, huniq, hU.perm.trans ?_, hR, hU.ends.trans hC.ends,
    hU.outside.trans (hC.outside.mono ?_)⟩
  · rw [List.append_assoc]
    refine List.Perm.append_left gone ?_
    have hmiddle : (ca ++ [d] ++ e :: ds).Perm (e :: (ca ++ [d] ++ ds)) := List.perm_middle
    simpa using hmiddle
  · rw [hU.ends.own_eq]
    exact own_subset (by simpa using hU.subset)

theorem kept (hU : UniqueRound p R s cells ca d (e :: ds) gone s') (hp : ¬ p e.2 d.2 = true) :
    UniqueRound p R s cells (ca ++ [d]) e ds gone s' := by
  have huniq := hU.unique
  rw [uniqueFrom, if_neg hp] at huniq
  exact ⟨by simpa using hU.holds, by simpa using huniq, by simpa using hU.perm, hU.told,
    hU.ends, hU.outside⟩

end UniqueRound

namespace Container

variable {E : ε → Tree α → Prop} {s : Tree α}

theorem wp_dereference {Q : α → Tree α → Prop} (hH : Holds s cells) (hc : (p, v) ∈ cells)
    (hQ : Q v s) : wp (dereference p) Q E s := by
  refine (wp_read _).mpr ⟨v, ?_, hQ⟩
  rw [if_pos (hH.live p (fst_mem_own _ hc))]
  exact hH.values _ hc

theorem wp_end_ {Q : Ptr → Tree α → Prop} : wp end_ Q E s ↔ Q s.stump.end_ s := Iff.rfl

theorem wp_size {Q : Nat → Tree α → Prop} (hH : Holds s cells) (hQ : Q cells.length s) :
    wp size Q E s := by
  obtain ⟨T, hR, hT⟩ := hH.tree
  have hnum : T.numNodes - 2 = cells.length := by
    rw [← Foundation.Zipper.length_inorder, hT]
    simp [own, nodes]
  unfold size AvlTreeStump.size
  rw [wp_bind, wp_bind, wp_get, hR.root]
  refine wp_nodeSize hR.settled.counted (fun x hx => hR.settled.live x
    (List.mem_append_left _ hx)) ?_
  rw [wp_pure, hnum]
  exact hQ

end Container

namespace Implementation.Sound

variable {this : Implementation α ε} {moves : Prop} {E : ε → Tree α → Prop} {s : Tree α}

/-! ### Iterators -/

theorem wp_increment (hS : this.Sound moves) (ca : List (Cell α)) {Q : Ptr → Tree α → Prop}
    (hH : Holds s (ca ++ (p, v) :: cb)) (hQ : Q (startOf s.stump.end_ cb) s) :
    wp (this.increment p) Q E s := by
  unfold Implementation.increment
  rw [wp_bind]
  exact hS.forward hH hQ

theorem wp_decrement (hS : this.Sound moves) {Q : Ptr → Tree α → Prop}
    (hH : Holds s (ca ++ (p, v) :: cb)) (hQ : Q p s) :
    wp (this.decrement (startOf s.stump.end_ cb)) Q E s := by
  unfold Implementation.decrement
  rw [wp_bind]
  exact hS.backward hH hQ

theorem wp_advance (hS : this.Sound moves) {k : Int} {Q : Ptr → Tree α → Prop}
    (hH : Holds s (ca ++ cb)) (hlow : 0 ≤ ca.length + k)
    (hhigh : ca.length + k ≤ (ca ++ cb).length) (hQ : ∀ x, Q x s) :
    wp (this.advance (startOf s.stump.end_ cb) k) Q E s := by
  unfold Implementation.advance
  rw [wp_bind]
  refine hS.goTo hH hlow hhigh fun o => ?_
  cases o with
  | none => exact hQ s.stump.end_
  | some x => exact hQ x

theorem wp_incrementBy (hS : this.Sound moves) (cm : List (Cell α)) :
    ∀ (ca : List (Cell α)) {Q : Ptr → Tree α → Prop},
      Holds s (ca ++ (cm ++ cb)) → Q (startOf s.stump.end_ cb) s →
      wp (this.incrementBy cm.length (startOf s.stump.end_ (cm ++ cb))) Q E s := by
  induction cm with
  | nil => intro ca Q _ hQ; exact hQ
  | cons c cm ih =>
    intro ca Q hH hQ
    show wp (do
      let next ← this.increment c.1
      this.incrementBy cm.length next) Q E s
    rw [wp_bind]
    refine hS.wp_increment ca (v := c.2) hH ?_
    exact ih (ca ++ [c]) (by simpa using hH) hQ

theorem wp_iteratorAt (hS : this.Sound moves) {pos : Nat} {Q : Ptr → Tree α → Prop}
    (hH : Holds s (ca ++ cb)) (hpos : ca.length = pos) (hQ : Q (startOf s.stump.end_ cb) s) :
    wp (this.iteratorAt pos) Q E s := by
  unfold Implementation.iteratorAt
  rw [wp_bind]
  refine hS.getBegin hH ?_
  rw [← hpos]
  exact hS.wp_incrementBy ca [] hH hQ

/-! ### Insertion -/

theorem wp_insertNodes (hS : this.Sound moves) (news : List (Cell α)) :
    ∀ {ca : List (Cell α)} {s : Tree α} (first : Ptr) (already : Bool), Holds s (ca ++ cb) →
    Loose s.heap news → CountOne s.heap (nodes news) →
    (∀ c ∈ news, c.1 ∉ own s.stump (ca ++ cb)) →
    wp (this.insertNodes (startOf s.stump.end_ cb) (nodes news) first already) (fun x s' =>
      x = (if already then first else startOf first news) ∧ Holds s' (ca ++ news ++ cb) ∧
      SameEnds s.stump s'.stump ∧
      Edits (nodes news ++ own s.stump (ca ++ cb)) s.heap s'.heap) E s := by
  induction news with
  | nil =>
    intro ca s first already hH _ _ _
    show wp (pure first) _ E s
    rw [wp_pure, List.append_nil]
    exact ⟨by cases already <;> rfl, hH, ⟨rfl, rfl⟩, Edits.refl _ _⟩
  | cons c news ih =>
    intro ca s first already hH hL hone hnew
    show wp (do
      let lastInserted ← this.insertBefore (startOf s.stump.end_ cb) c.1
      if already then this.insertNodes (startOf s.stump.end_ cb) (nodes news) first already
      else this.insertNodes (startOf s.stump.end_ cb) (nodes news) lastInserted true) _ E s
    rw [wp_bind]
    refine (hS.insertBefore hH (hnew c List.mem_cons_self) (hL.live c List.mem_cons_self)
      (hL.values c List.mem_cons_self) fun x hx => hone x ?_).imp ?_
    · exact List.mem_cons.mpr (.inl (List.mem_singleton.mp hx))
    rintro x s' ⟨rfl, hH', hends, he⟩
    obtain ⟨hL', hone', hnew'⟩ := hL.inserted hone hnew hends he
    have hH'' : Holds s' (ca ++ [(c.1, c.2)] ++ cb) := by simpa using hH'
    have hrest := fun first already => ih first already hH'' hL' hone' hnew'
    rw [hends.2] at hrest
    have hdone : ∀ first' already', (if already' = true then first' else startOf first' news) =
        (if already = true then first else startOf first (c :: news)) →
        wp (this.insertNodes (startOf s.stump.end_ cb) (nodes news) first' already') (fun x s' =>
          x = (if already then first else startOf first (c :: news)) ∧
          Holds s' (ca ++ c :: news ++ cb) ∧ SameEnds s.stump s'.stump ∧
          Edits (nodes (c :: news) ++ own s.stump (ca ++ cb)) s.heap s'.heap) E s' := by
      intro first' already' hfirst
      refine (hrest first' already').imp ?_
      rintro x s'' ⟨hx, hH₂, hends', he'⟩
      refine ⟨hx.trans hfirst, by simpa using hH₂, hends.trans hends',
        (he.mono ?_).trans (he'.mono ?_)⟩
      · exact List.cons_subset_cons _ (List.subset_append_right _ _)
      · rw [hends.own_eq]
        intro y hy
        rw [List.append_assoc, List.mem_append, List.singleton_append,
          (own_perm s.stump ca (c.1, c.2) cb).mem_iff] at hy
        simp only [nodes_cons, List.mem_append, List.mem_cons] at hy ⊢
        tauto
    cases already with
    | true => exact hdone first true rfl
    | false => exact hdone c.1 true rfl

/-- **Nodes put into a list before `pos`.** -/
theorem wp_insertNodesFromList (hS : this.Sound moves) (hH : Holds s (ca ++ cb))
    (hL : Loose s.heap news) (hone : CountOne s.heap (nodes news))
    (hnew : ∀ c ∈ news, c.1 ∉ own s.stump (ca ++ cb)) :
    wp (this.insertNodesFromListAndReturnFirstInserted (nodes news) (startOf s.stump.end_ cb))
      (fun x s' => x = startOf s.stump.end_ (news ++ cb) ∧ Holds s' (ca ++ news ++ cb) ∧
        SameEnds s.stump s'.stump ∧
        Edits (nodes news ++ own s.stump (ca ++ cb)) s.heap s'.heap) E s := by
  refine (hS.wp_insertNodes news _ _ hH hL hone hnew).imp ?_
  rintro x s' ⟨rfl, h⟩
  refine ⟨?_, h⟩
  cases news <;> rfl

theorem wp_insertLoose (hS : this.Sound moves) {s₁ : Tree α} (hH : Holds s (ca ++ cb))
    (hL : Loose s₁.heap news) (hone : CountOne s₁.heap (nodes news))
    (hnew : ∀ c ∈ news, c.1 ∉ s.heap.live) (hout : Outside [] s.heap s₁.heap)
    (hst : s₁.stump = s.stump) :
    wp (this.insertNodesFromListAndReturnFirstInserted (nodes news) (startOf s.stump.end_ cb))
      (fun x s' => x = startOf s.stump.end_ (news ++ cb) ∧
        Changed s s' (ca ++ cb) (ca ++ news ++ cb) ∧
        Edits (nodes news ++ own s.stump (ca ++ cb)) s₁.heap s'.heap) E s₁ := by
  have hH₁ : Holds s₁ (ca ++ cb) := by
    have h : Holds ⟨s₁.heap, s.stump⟩ (ca ++ cb) :=
      hH.congr fun x hx => hout x (hH.live x hx) (by simp)
    rw [← hst] at h
    exact h
  have hnew₁ : ∀ c ∈ news, c.1 ∉ own s₁.stump (ca ++ cb) := by
    intro c hc hm
    rw [hst] at hm
    exact hnew c hc (hH.live c.1 hm)
  rw [← hst]
  refine (hS.wp_insertNodesFromList hH₁ hL hone hnew₁).imp ?_
  rintro x s' ⟨rfl, hH', hends, he⟩
  refine ⟨rfl, ⟨hH', hst ▸ hends, fun y hy hS => ?_, fun c hc => ?_⟩, he⟩
  · obtain ⟨hy₁, hnode⟩ := hout y hy (by simp)
    have hyn : y ∉ nodes news := fun hm => by
      obtain ⟨c, hc, rfl⟩ := List.mem_map.mp hm
      exact hnew c hc hy
    have hyS : y ∉ nodes news ++ own s₁.stump (ca ++ cb) := by
      rw [List.mem_append, hst]
      exact fun h => h.elim hyn hS
    obtain ⟨hy', hnode'⟩ := he.outside y hy₁ hyS
    exact ⟨hy', hnode'.trans hnode⟩
  · simp only [List.mem_append] at hc ⊢
    rcases hc with (hc | hc) | hc
    · exact .inl (.inl hc)
    · exact .inr (hnew c hc)
    · exact .inl (.inr hc)

theorem wp_insertLooseNode (hS : this.Sound moves) {s₁ : Tree α} (hH : Holds s (ca ++ cb))
    (hL : Loose s₁.heap [(p, v)]) (hone : CountOne s₁.heap [p]) (hnew : p ∉ s.heap.live)
    (hout : Outside [] s.heap s₁.heap) (hst : s₁.stump = s.stump) :
    wp (this.insertBefore (startOf s.stump.end_ cb) p) (fun x s' => x = p ∧
      Changed s s' (ca ++ cb) (ca ++ (p, v) :: cb) ∧
      Edits (p :: own s.stump (ca ++ cb)) s₁.heap s'.heap) E s₁ := by
  have hinsert := hS.wp_insertLoose (E := E) hH hL hone
    (fun c hc => List.mem_singleton.mp hc ▸ hnew) hout hst
  rw [List.append_assoc, List.singleton_append] at hinsert
  exact (wp_bind _ _).mp hinsert

theorem wp_emplace (hS : this.Sound moves) (alloc : Allocator) (v : α) (hH : Holds s (ca ++ cb)) :
    wp (this.emplace alloc (startOf s.stump.end_ cb) v) (fun p s' => p ∉ s.heap.live ∧
      Changed s s' (ca ++ cb) (ca ++ (p, v) :: cb)) E s := by
  unfold Implementation.emplace
  rw [wp_bind]
  refine (wp_makeNode alloc v).imp ?_
  rintro p s₁ ⟨hp, hlive, hv, hone, hout, hst⟩
  have hL : Loose s₁.heap [(p, v)] := by
    refine ⟨List.nodup_singleton p, fun c hc => ?_, fun c hc => ?_⟩
    · rw [List.mem_singleton.mp hc]
      exact hlive
    · rw [List.mem_singleton.mp hc]
      exact hv
  refine (hS.wp_insertLooseNode hH hL hone hp hout hst).imp ?_
  rintro x s' ⟨rfl, hC, -⟩
  exact ⟨hp, hC⟩

theorem wp_insertRange (hS : this.Sound moves) (alloc : Allocator) (values : List α)
    (hH : Holds s (ca ++ cb)) :
    wp (this.insertRange alloc (startOf s.stump.end_ cb) values)
      (fun x s' => ∃ news : List (Cell α),
        news.map Prod.snd = values ∧ (∀ c ∈ news, c.1 ∉ s.heap.live) ∧
        x = startOf s.stump.end_ (news ++ cb) ∧
        Changed s s' (ca ++ cb) (ca ++ news ++ cb)) E s := by
  unfold Implementation.insertRange
  rw [wp_bind]
  refine (wp_makeNodes alloc values).imp ?_
  rintro x s₁ ⟨news, rfl, hvalues, hL, hone, hnew, hout, hst⟩
  refine (hS.wp_insertLoose hH hL hone hnew hout hst).imp ?_
  rintro x s' ⟨hx, hC, -⟩
  exact ⟨news, hvalues, hnew, hx, hC⟩

/-- The end of `reverse` and `sort`: the nodes go back in another order. -/
theorem wp_rebuild (hS : this.Sound moves) {cells' : List (Cell α)} {s' : Tree α}
    (hH : Holds s cells)
    (hperm : cells'.Perm cells) (hH' : Holds s' ([] : List (Cell α)))
    (hends : SameEnds s.stump s'.stump) (he : Edits (own s.stump cells) s.heap s'.heap)
    (hone : CountOne s'.heap (nodes cells)) :
    wp (do
      let pos ← this.getBegin
      let _ ← this.insertNodesFromListAndReturnFirstInserted (nodes cells') pos
      pure PUnit.unit) (fun _ s'' => Changed s s'' cells cells') E s' := by
  have hL : Loose s'.heap cells' := (hH.loose he).perm hperm
  have hnew : ∀ c ∈ cells', c.1 ∉ own s'.stump ([] : List (Cell α)) := by
    intro c hc hm
    rw [hends.own_eq] at hm
    have hn := hH.nodup
    have hcell : c.1 ∈ nodes cells := fst_mem_nodes (hperm.mem_iff.mp hc)
    rw [own, List.nodup_cons, List.nodup_append'] at hn
    rcases List.mem_cons.mp hm with h | h
    · exact hn.1 (List.mem_append_left _ (h ▸ hcell))
    · exact hn.2.2.2 hcell h
  have hone' : CountOne s'.heap (nodes cells') := fun x hx =>
    hone x ((hperm.map Prod.fst).mem_iff.mp hx)
  rw [wp_bind]
  refine hS.getBegin hH' ?_
  rw [wp_bind]
  have hinsert := hS.wp_insertNodesFromList (E := E) (show Holds s' ([] ++ []) from hH') hL hone'
    hnew
  refine hinsert.imp ?_
  rintro _ s'' ⟨-, hH'', hends', he'⟩
  rw [wp_pure]
  rw [List.append_nil, List.nil_append] at hH''
  refine ⟨hH'', hends.trans hends', (he.trans (he'.mono ?_)).outside, fun c hc =>
    .inl (hperm.mem_iff.mp hc)⟩
  rw [hends.own_eq]
  refine List.append_subset.mpr ⟨fun x hx => ?_, own_subset (List.nil_subset _)⟩
  obtain ⟨c, hc, rfl⟩ := List.mem_map.mp hx
  exact fst_mem_own _ (hperm.mem_iff.mp hc)

/-- **`reverse`** -/
theorem wp_reverse (hS : this.Sound moves) (hH : Holds s cells) :
    wp this.reverse (fun _ s' => Changed s s' cells cells.reverse) E s := by
  unfold Implementation.reverse
  rw [wp_bind]
  refine (hS.moveNodes hH).imp ?_
  rintro x s' ⟨rfl, hH', hends, he, hone⟩
  rw [show (nodes cells).reverse = nodes cells.reverse from List.map_reverse.symm]
  exact hS.wp_rebuild hH (List.reverse_perm cells) hH' hends he hone

/-- **`sort`** is the stable sort of the elements. -/
theorem wp_sort (hS : this.Sound moves) (comp : α → α → Bool) (hH : Holds s cells) :
    wp (this.sort comp) (fun _ s' =>
      Changed s s' cells (cells.mergeSort fun a b => !comp b.2 a.2)) E s := by
  unfold Implementation.sort
  rw [wp_bind]
  refine (hS.moveNodes hH).imp ?_
  rintro x s' ⟨rfl, hH', hends, he, hone⟩
  have hL := hH.loose he
  have hsorted : (nodes cells).mergeSort (fun a b => !Container.lessAt comp s'.heap b a) =
      nodes (cells.mergeSort fun a b => !comp b.2 a.2) := by
    refine (List.map_mergeSort fun a ha b hb => ?_).symm
    rw [Container.lessAt, hL.values a ha, hL.values b hb]
  rw [wp_bind, wp_get]
  dsimp only
  rw [hsorted]
  exact hS.wp_rebuild hH (List.mergeSort_perm _ _) hH' hends he hone

/-! ### Erasure -/

theorem wp_erase (hS : this.Sound moves) (hH : Holds s (ca ++ (p, v) :: cb)) :
    wp (this.erase p) (fun x s' => x = some (startOf s.stump.end_ cb) ∧
      Changed s s' (ca ++ (p, v) :: cb) (ca ++ cb)) E s := by
  refine (hS.deletes hH).imp ?_
  rintro x s' ⟨hx, hH', hends, hout⟩
  refine ⟨hx, changed_of_sublist (fun c hc => ?_) hH' hends hout⟩
  simp only [List.mem_append, List.mem_cons] at hc ⊢
  tauto

theorem wp_eraseRange (hS : this.Sound moves) (hH : Holds s (ca ++ cm ++ cb)) :
    wp (this.eraseRange (startOf s.stump.end_ (cm ++ cb)) (startOf s.stump.end_ cb))
      (fun x s' => x = startOf s.stump.end_ cb ∧
        Changed s s' (ca ++ cm ++ cb) (ca ++ cb)) E s := by
  unfold Implementation.eraseRange
  rw [wp_bind]
  refine (wp_deletes hS.deletes hH).imp ?_
  rintro _ s' ⟨hH', hends, hout⟩
  refine ⟨rfl, changed_of_sublist (fun c hc => ?_) hH' hends hout⟩
  simp only [List.mem_append] at hc ⊢
  tauto

theorem wp_clear (hS : this.Sound moves) (hH : Holds s cells) :
    wp this.clear (fun _ s' => Changed s s' cells []) E s := by
  refine (hS.destructValues hH).imp ?_
  rintro _ s' ⟨hH', hends, hout⟩
  exact changed_of_sublist (List.nil_subset _) hH' hends hout

/-! ### `unique` -/

/-- **`unique`** keeps what the greedy rule keeps, and what follows the erasures
is told what it takes out. -/
theorem wp_unique_tracking (hS : this.Sound moves) {R : List (Cell α) → Tree α → Prop}
    (hT : Tracks this.deleteAndGetNext R E) (p : α → α → Bool) (hH : Holds s cells) (hR : R [] s) :
    wp (this.unique p) (fun _ s' =>
      Changed s s' cells (uniqueList (fun a b => p a.2 b.2) cells) ∧ ∃ gone : List (Cell α),
        cells.Perm (gone ++ uniqueList (fun a b => p a.2 b.2) cells) ∧ R gone s') E s := by
  unfold Implementation.unique
  rw [wp_bind]
  refine hS.getBegin hH ?_
  rw [wp_bind]
  refine hS.getBegin hH ?_
  rw [wp_bind, Container.wp_end_]
  cases cells with
  | nil =>
    rw [startOf_nil, if_pos rfl, wp_pure]
    exact ⟨Changed.refl hH, [], List.Perm.refl _, hR⟩
  | cons c cs =>
    have hH' : Holds s ([] ++ (c.1, c.2) :: cs) := hH
    have hne : c.1 ≠ s.stump.end_ := fun he => hH'.not_gap (.inr he)
    rw [startOf_cons, if_neg hne, wp_bind]
    refine hS.wp_increment [] hH ?_
    refine wp_rounds (I := fun n x s' => ∃ ca d ds gone, x = (d.1, startOf s.stump.end_ ds) ∧
      n = ds.length ∧ UniqueRound p R s (c :: cs) ca d ds gone s') ?_ cs.length
      ⟨[], c, cs, [], rfl, rfl, .start hH hR⟩ ?_
    · rintro n x s' ⟨ca, d, ds, gone, rfl, rfl, hU⟩
      have hH' := hU.holds
      cases ds with
      | nil =>
        rw [startOf_nil, if_pos rfl, wp_pure]
        exact hU.done
      | cons e ds =>
        have hH₁ : Holds s' ((ca ++ [d]) ++ (e.1, e.2) :: ds) := by simpa using hH'
        have hne' : e.1 ≠ s.stump.end_ := fun he =>
          hH₁.not_gap (.inr (he.trans hU.ends.2.symm))
        rw [startOf_cons, if_neg hne', wp_bind]
        refine Container.wp_dereference hH' (v := e.2) (by simp) ?_
        rw [wp_bind]
        refine Container.wp_dereference hH' (v := d.2) (by simp) ?_
        by_cases hp : p e.2 d.2 = true
        · rw [if_pos hp, wp_bind]
          refine ((hS.wp_erase hH₁).and (hT gone hH₁ hU.told)).imp ?_
          rintro y s'' ⟨⟨rfl, hC⟩, hR'⟩
          dsimp only
          rw [wp_pure, hU.ends.2]
          exact ⟨ds.length, Nat.lt_succ_self _, ca, d, ds, gone ++ [e], rfl, rfl,
            hU.removed hp hC hR'⟩
        · rw [if_neg hp, wp_bind]
          refine hS.wp_increment _ hH₁ ?_
          rw [wp_bind]
          refine hS.wp_increment _ (v := d.2) hH' ?_
          rw [wp_pure, hU.ends.2]
          exact ⟨ds.length, Nat.lt_succ_self _, ca ++ [d], e, ds, gone, rfl, rfl, hU.kept hp⟩
    · have := hH.length_le
      rw [List.length_cons] at this
      omega

theorem wp_unique (hS : this.Sound moves) (p : α → α → Bool) (hH : Holds s cells) :
    wp (this.unique p) (fun _ s' =>
      Changed s s' cells (uniqueList (fun a b => p a.2 b.2) cells)) E s :=
  (hS.wp_unique_tracking (R := fun _ _ => True) (tracks_true hS.deletes) p hH trivial).imp
    fun _ _ h => h.1

/-! ### The temporary list of `assign` -/

theorem wp_emplaceBack (hS : this.Sound moves) (alloc : Allocator) (v : α) (hH : Holds s cells) :
    wp (this.emplaceBack alloc v) (fun p s' => p ∉ s.heap.live ∧
      Changed s s' cells (cells ++ [(p, v)])) E s := by
  unfold Implementation.emplaceBack
  rw [wp_bind, Container.wp_end_]
  have hH₀ : Holds s (cells ++ []) := by simpa using hH
  have hemplace := hS.wp_emplace (E := E) alloc v hH₀
  rwa [List.append_nil] at hemplace

theorem wp_pushBackAll (hS : this.Sound moves) (alloc : Allocator) (values : List α) :
    ∀ {cells : List (Cell α)} {s : Tree α}, Holds s cells →
      wp (this.pushBackAll alloc values) (fun _ s' =>
        ∃ news : List (Cell α), news.map Prod.snd = values ∧ (∀ c ∈ news, c.1 ∉ s.heap.live) ∧
          Changed s s' cells (cells ++ news)) E s := by
  induction values with
  | nil =>
    intro cells s hH
    show wp (pure PUnit.unit) _ E s
    rw [wp_pure]
    exact ⟨[], rfl, by simp, by simpa using Changed.refl hH⟩
  | cons v values ih =>
    intro cells s hH
    show wp (do
      let _ ← this.emplaceBack alloc v
      this.pushBackAll alloc values) _ E s
    rw [wp_bind]
    refine (hS.wp_emplaceBack alloc v hH).imp ?_
    rintro p s₁ ⟨hp, hC⟩
    refine (ih hC.holds).imp ?_
    rintro _ s' ⟨news, rfl, hnew, hC'⟩
    have hsub : cells ⊆ cells ++ [(p, v)] := List.subset_append_left _ _
    have hC'' := hC.trans hsub hC'
    refine ⟨(p, v) :: news, rfl, fun c hc => ?_, by simpa using hC''⟩
    rcases List.mem_cons.mp hc with rfl | hc
    · exact hp
    · exact fun hm => hnew c hc (hC.live_subset hsub hm)

end Implementation.Sound

end Garbage.RandomAccessList
