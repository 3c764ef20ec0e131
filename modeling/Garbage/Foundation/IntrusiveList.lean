import Garbage.Foundation.Prog
import Mathlib.Data.List.Nodup
import Mathlib.Logic.Function.Basic

/-!
# Intrusive lists

The links of an intrusive list are members of its items, so an item can be in
one list only: to push it to the end of a list takes it out of the list it is in,
without that list being told.  What is left of the other list can still be read
from its second item on.

A list is the node `root` that closes its ring.  `Ring L root l` says that the
items `l` are read from it, `Path L x l y` that the items `l` are read from `x`
on up to `y`.  `merge` takes the items of two lists one after the other to the
end of a third one, and `wp_merge` says that they come in the order of
`List.merge`, whatever the comparison does on its way.
-/

namespace Garbage.Foundation

open Prog

/-- The links of the nodes `κ`. -/
structure Links (κ : Type) where
  next : κ → κ
  previous : κ → κ

namespace Links

variable {κ σ ε : Type} [DecidableEq κ] {L : Links κ} {root x y z : κ} {l l' : List κ}

/-- No node is in a list, and all lists are empty. -/
def unlinked : Links κ := ⟨id, id⟩

def pushBack (L : Links κ) (root x : κ) : Links κ where
  next := Function.update (Function.update L.next (L.previous root) x) x root
  previous := Function.update (Function.update L.previous x (L.previous root)) root x

/-- Push the items to the end, one after the other. -/
def pushAll (L : Links κ) (root : κ) : List κ → Links κ
  | [] => L
  | x :: l => (L.pushBack root x).pushAll root l

/-- The items from `x` on up to `last`, if there are fewer than `n`. -/
def items (L : Links κ) (last : κ) : Nat → κ → List κ
  | 0, _ => []
  | n + 1, x => if x = last then [] else x :: L.items last n (L.next x)

/-! ### Reading -/

/-- The items `l` are read from `x` on up to `y`. -/
def Path (L : Links κ) : κ → List κ → κ → Prop
  | x, [], y => x = y
  | x, a :: l, y => x = a ∧ L.Path (L.next a) l y

omit [DecidableEq κ] in
theorem path_append : ∀ {x : κ} {l : List κ},
    L.Path x (l ++ l') y ↔ ∃ z, L.Path x l z ∧ L.Path z l' y := by
  intro x l
  induction l generalizing x with
  | nil => simp [Path]
  | cons a l ih => simp [Path, ih, and_assoc]

omit [DecidableEq κ] in
/-- The links of other nodes make no difference. -/
theorem Path.congr {L' : Links κ} (hnext : ∀ a ∈ l, L'.next a = L.next a) :
    ∀ {x : κ}, L.Path x l y → L'.Path x l y := by
  induction l with
  | nil => exact fun h => h
  | cons a l ih =>
    rintro x ⟨rfl, h⟩
    refine ⟨rfl, ?_⟩
    rw [hnext x List.mem_cons_self]
    exact ih (fun b hb => hnext b (List.mem_cons_of_mem x hb)) h

theorem Path.items_eq (hy : y ∉ l) : ∀ {n : Nat} {x : κ}, l.length < n → L.Path x l y →
    L.items y n x = l := by
  induction l with
  | nil =>
    rintro (- | n) x hn rfl
    · exact absurd hn (Nat.not_lt_zero _)
    · exact if_pos rfl
  | cons a l ih =>
    rintro (- | n) x hn ⟨rfl, h⟩
    · exact absurd hn (Nat.not_lt_zero _)
    · rw [items, if_neg fun he => hy (by simp [he]),
        ih (fun hm => hy (List.mem_cons_of_mem x hm)) (Nat.lt_of_succ_lt_succ hn) h]

/-! ### Rings -/

/-- The list of `root` has the items `l`. -/
structure Ring (L : Links κ) (root : κ) (l : List κ) : Prop where
  nodup : (root :: l).Nodup
  path : L.Path (L.next root) l root
  last : L.previous root = (root :: l).getLast (List.cons_ne_nil root l)

omit [DecidableEq κ] in
theorem ring_unlinked (root : κ) : (unlinked : Links κ).Ring root [] :=
  ⟨List.nodup_singleton root, rfl, rfl⟩

omit [DecidableEq κ] in
theorem Ring.previous_mem (h : L.Ring root l) : L.previous root ∈ root :: l :=
  h.last ▸ List.getLast_mem _

theorem next_pushBack_of_ne (hx : y ≠ x) (hlast : y ≠ L.previous root) :
    (L.pushBack root x).next y = L.next y := by
  show Function.update (Function.update L.next (L.previous root) x) x root y = _
  rw [Function.update_of_ne hx, Function.update_of_ne hlast]

/-- **The list gets the item**, from wherever it was. -/
theorem Ring.pushBack (h : L.Ring root l) (hx : x ∉ root :: l) :
    (L.pushBack root x).Ring root (l ++ [x]) := by
  have hne : x ≠ root := fun he => hx (he ▸ List.mem_cons_self)
  have hxnext : (L.pushBack root x).next x = root := Function.update_self ..
  have hlast : L.previous root ≠ x := fun he => hx (he ▸ h.previous_mem)
  have hznext : (L.pushBack root x).next (L.previous root) = x := by
    show Function.update (Function.update L.next (L.previous root) x) x root _ = x
    rw [Function.update_of_ne hlast, Function.update_self]
  refine ⟨?_, ?_, ?_⟩
  · rw [← List.cons_append]
    exact List.nodup_append.mpr ⟨h.nodup, List.nodup_singleton x, fun a ha b hb hab =>
      hx (List.mem_singleton.mp hb ▸ hab ▸ ha)⟩
  · rcases List.eq_nil_or_concat' l with rfl | ⟨init, z, rfl⟩
    · have hroot : L.previous root = root := h.last
      rw [hroot] at hznext
      exact ⟨hznext, hxnext⟩
    · have hz : L.previous root = z := by simpa using h.last
      rw [hz] at hznext
      have hnodup := h.nodup
      have hinit : ∀ a ∈ root :: init, (L.pushBack root x).next a = L.next a := by
        intro a ha
        have hmem : a ∈ root :: (init ++ [z]) := by
          rw [← List.cons_append]
          exact List.mem_append_left _ ha
        refine next_pushBack_of_ne (fun he => hx (he ▸ by simpa using hmem)) fun he => ?_
        rw [← List.cons_append, List.nodup_append] at hnodup
        exact hnodup.2.2 a ha z (by simp) (he.trans hz)
      obtain ⟨c, hpath, rfl, -⟩ := path_append.mp h.path
      rw [hinit root List.mem_cons_self, List.append_assoc]
      exact path_append.mpr ⟨c, hpath.congr fun a ha => hinit a (List.mem_cons_of_mem _ ha),
        rfl, hznext, hxnext⟩
  · show Function.update (Function.update L.previous x _) root x root = _
    rw [Function.update_self]
    simp

/-- Another list is as it was. -/
theorem Ring.pushBack_of_disjoint {root' : κ} (h : L.Ring root l) (h' : L.Ring root' l')
    (hdisj : (root :: l).Disjoint (root' :: l')) (hx : x ∉ root' :: l') :
    (L.pushBack root x).Ring root' l' := by
  have hnext : ∀ a ∈ root' :: l', (L.pushBack root x).next a = L.next a := fun a ha =>
    next_pushBack_of_ne (fun he => hx (he ▸ ha)) fun he => hdisj h.previous_mem (he ▸ ha)
  refine ⟨h'.nodup, ?_, ?_⟩
  · rw [hnext root' List.mem_cons_self]
    exact h'.path.congr fun a ha => hnext a (List.mem_cons_of_mem _ ha)
  · show Function.update (Function.update L.previous x _) root x root' = _
    have hroot : root' ≠ root := fun he => hdisj List.mem_cons_self (he ▸ List.mem_cons_self)
    have hne : root' ≠ x := fun he => hx (he ▸ List.mem_cons_self)
    rw [Function.update_of_ne hroot, Function.update_of_ne hne, h'.last]

theorem Ring.pushAll (hL : L.Ring root l) (hnodup : (root :: (l ++ l')).Nodup) :
    (L.pushAll root l').Ring root (l ++ l') := by
  induction l' generalizing L l with
  | nil => simpa [Links.pushAll] using hL
  | cons x l' ih =>
    have hx : x ∉ root :: l := by
      rw [← List.cons_append, List.nodup_append] at hnodup
      exact fun hm => hnodup.2.2 x hm x List.mem_cons_self rfl
    have h := ih (hL.pushBack hx) (by simpa using hnodup)
    rwa [List.append_assoc] at h

/-- Another list is as it was. -/
theorem Ring.pushAll_of_disjoint {root' : κ} {m : List κ} (hL : L.Ring root l)
    (hm : L.Ring root' m) (hnodup : (root :: (l ++ l')).Nodup)
    (hdisj : (root :: (l ++ l')).Disjoint (root' :: m)) : (L.pushAll root l').Ring root' m := by
  induction l' generalizing L l with
  | nil => exact hm
  | cons x l' ih =>
    have hx : x ∉ root :: l := by
      rw [← List.cons_append, List.nodup_append] at hnodup
      exact fun hm => hnodup.2.2 x hm x List.mem_cons_self rfl
    have hsub : root :: l ⊆ root :: (l ++ x :: l') :=
      List.cons_subset_cons _ (List.subset_append_left _ _)
    refine ih (l := l ++ [x]) (hL.pushBack hx)
      (hL.pushBack_of_disjoint hm (fun a ha ha' => hdisj (hsub ha) ha') ?_) (by simpa using hnodup)
      (by simpa using hdisj)
    exact fun ha => hdisj (by simp) ha

/-- Two lists are filled, a third one is empty. -/
theorem rings_of_pushAll {root1 root2 : κ} {l1 l2 : List κ}
    (hnodup : ([root1, root2, root] ++ (l1 ++ l2)).Nodup) :
    ((unlinked.pushAll root1 l1).pushAll root2 l2).Ring root1 l1 ∧
      ((unlinked.pushAll root1 l1).pushAll root2 l2).Ring root2 l2 ∧
      ((unlinked.pushAll root1 l1).pushAll root2 l2).Ring root [] := by
  simp only [List.cons_append, List.nil_append, List.nodup_cons, List.nodup_append', List.mem_cons,
    List.mem_append, not_or] at hnodup
  obtain ⟨⟨h12, h1, hr1, hr12⟩, ⟨h2, hr21, hr2⟩, ⟨hl1, hl2⟩, hn1, hn2, hdisj⟩ := hnodup
  have hcons1 : (root1 :: ([] ++ l1)).Nodup := List.nodup_cons.mpr ⟨hr1, hn1⟩
  have hcons2 : (root2 :: ([] ++ l2)).Nodup := List.nodup_cons.mpr ⟨hr2, hn2⟩
  -- the first list is filled while the others are empty
  have hring1 := (ring_unlinked root1).pushAll hcons1
  have hring2 := (ring_unlinked root1).pushAll_of_disjoint (ring_unlinked root2) hcons1
    (List.disjoint_singleton.mpr fun h => by simp [Ne.symm h12, hr21] at h)
  have hring := (ring_unlinked root1).pushAll_of_disjoint (ring_unlinked root) hcons1
    (List.disjoint_singleton.mpr fun h => by simp [Ne.symm h1, hl1] at h)
  refine ⟨hring2.pushAll_of_disjoint hring1 hcons2 ?_, hring2.pushAll hcons2,
    hring2.pushAll_of_disjoint hring hcons2
      (List.disjoint_singleton.mpr fun h => by simp [Ne.symm h2, hl2] at h)⟩
  simp only [List.nil_append, List.disjoint_cons_left, List.disjoint_cons_right, List.mem_cons,
    not_or]
  exact ⟨⟨h12, hr12⟩, hr21, fun x hx hx' => hdisj hx' hx⟩

/-! ### The merge -/

/-- The links and the places in the two lists that are read. -/
structure Cursors (κ : Type) where
  links : Links κ
  first1 : κ
  first2 : κ

/-- Move the items from `first` on up to `last` to the end of the list `merged`. -/
def drain (merged last : κ) (fuel : Nat) (L : Links κ) (first : κ) : Prog σ ε (Links κ) :=
  loop (fun s : Links κ × κ =>
    if s.2 = last then pure (.inr s.1)
    else pure (.inl (s.1.pushBack merged s.2, s.1.next s.2))) fuel (L, first)

/-- A round of the merge: the smaller one of the two items goes to the end of the
list `merged`, the first one if neither is; if one list is at its end, all items
of the other. -/
def mergeRound (less : κ → κ → Prog σ ε Bool) (last1 last2 merged : κ) (fuel : Nat)
    (s : Cursors κ) : Prog σ ε (Cursors κ ⊕ Links κ) :=
  if s.first1 = last1 then do
    let links ← drain merged last2 fuel s.links s.first2
    pure (.inr links)
  else if s.first2 = last2 then do
    let links ← drain merged last1 fuel s.links s.first1
    pure (.inr links)
  else do
    let takesSecond ← less s.first2 s.first1
    if takesSecond then
      pure (.inl ⟨s.links.pushBack merged s.first2, s.first1, s.links.next s.first2⟩)
    else pure (.inl ⟨s.links.pushBack merged s.first1, s.links.next s.first1, s.first2⟩)

/-- Merge the lists of `last1` and `last2` to the end of the list `merged`. -/
def merge (less : κ → κ → Prog σ ε Bool) (last1 last2 merged : κ) (fuel : Nat) (L : Links κ) :
    Prog σ ε (Links κ) :=
  loop (mergeRound less last1 last2 merged fuel) fuel ⟨L, L.next last1, L.next last2⟩

section Merge

variable {Q : Links κ → σ → Prop} {E : ε → σ → Prop} {t : σ} {root1 root2 : κ} {m l1 l2 : List κ}

/-- Nodes that are not pushed and not in the list pushed to are read as before. -/
theorem Ring.path_pushBack (h : L.Ring root m) (hl : l.Disjoint (x :: root :: m))
    (hpath : L.Path y l z) : (L.pushBack root x).Path y l z := by
  refine hpath.congr fun a ha => next_pushBack_of_ne (fun he => ?_) fun he => ?_
  · exact hl ha (he ▸ List.mem_cons_self)
  · exact hl ha (List.mem_cons_of_mem _ (he ▸ h.previous_mem))

theorem wp_drain (fuel : Nat) (hfuel : l.length < fuel) (hring : L.Ring root m)
    (hpath : L.Path x l y) (hy : y ∉ l) (hl : l.Nodup) (hdisj : l.Disjoint (root :: m))
    (hQ : ∀ L', L'.Ring root (m ++ l) → Q L' t) : wp (drain root y fuel L x) Q E t := by
  refine wp_loop (I := fun n s t' => t' = t ∧ ∃ m' l' : List κ, m' ++ l' = m ++ l ∧ n = l'.length ∧
    s.1.Ring root m' ∧ s.1.Path s.2 l' y ∧ y ∉ l' ∧ l'.Nodup ∧ l'.Disjoint (root :: m'))
    ?_ fuel l.length _ t ⟨rfl, m, l, rfl, rfl, hring, hpath, hy, hl, hdisj⟩ hfuel
  rintro n ⟨L', x'⟩ t' ⟨rfl, m', l', hml, rfl, hring', hpath', hy', hl', hdisj'⟩
  change L'.Ring root m' at hring'
  change L'.Path x' l' y at hpath'
  cases l' with
  | nil =>
    obtain rfl : x' = y := hpath'
    rw [if_pos rfl, wp_pure]
    rw [List.append_nil] at hml
    exact hQ L' (hml ▸ hring')
  | cons a l' =>
    obtain ⟨rfl, hpath'⟩ := hpath'
    obtain ⟨ha, hl'⟩ := List.nodup_cons.mp hl'
    have hx : x' ∉ root :: m' := fun hm => hdisj' List.mem_cons_self hm
    have hne : x' ≠ y := fun he => hy' (he ▸ List.mem_cons_self)
    rw [if_neg hne, wp_pure]
    refine ⟨l'.length, Nat.lt_succ_self _, rfl, m' ++ [x'], l', by simpa using hml, rfl,
      hring'.pushBack hx, hring'.path_pushBack ?_ hpath',
      fun hm => hy' (List.mem_cons_of_mem _ hm), hl', ?_⟩
    · exact List.disjoint_cons_right.mpr ⟨ha, (List.disjoint_cons_left.mp hdisj').2⟩
    · rw [← List.cons_append, List.disjoint_append_right]
      exact ⟨(List.disjoint_cons_left.mp hdisj').2, List.disjoint_singleton.mpr ha⟩

/-- What was merged, `m`, and what is still to be merged, `l1` and `l2`. -/
structure Merging (s : Cursors κ) (root1 root2 root : κ) (m l1 l2 : List κ) : Prop where
  ring : s.links.Ring root m
  path1 : s.links.Path s.first1 l1 root1
  path2 : s.links.Path s.first2 l2 root2
  nodup : (m ++ (l1 ++ l2)).Nodup
  roots : ∀ x ∈ l1 ++ l2, x ≠ root1 ∧ x ≠ root2 ∧ x ≠ root

section

variable {s : Cursors κ} {a b : κ}

omit [DecidableEq κ] in
/-- What is still to be merged is apart from what was. -/
theorem Merging.disjoint (h : Merging s root1 root2 root m l1 l2) :
    (l1 ++ l2).Disjoint (root :: m) := by
  refine List.disjoint_cons_right.mpr ⟨fun hm => (h.roots root hm).2.2 rfl, ?_⟩
  exact fun x hx hm => List.disjoint_of_nodup_append h.nodup hm hx

theorem Merging.takeFirst (h : Merging s root1 root2 root m (a :: l1) l2) :
    Merging ⟨s.links.pushBack root a, s.links.next a, s.first2⟩ root1 root2 root (m ++ [a])
      l1 l2 := by
  obtain ⟨-, hpath1⟩ := h.path1
  have ha : a ∉ l1 ++ l2 :=
    (List.nodup_cons.mp (List.nodup_append.mp h.nodup).2.1).1
  have hdisj := List.disjoint_cons_left.mp h.disjoint
  have hrest : (l1 ++ l2).Disjoint (a :: root :: m) :=
    List.disjoint_cons_right.mpr ⟨ha, hdisj.2⟩
  obtain ⟨hrest1, hrest2⟩ := List.disjoint_append_left.mp hrest
  refine ⟨h.ring.pushBack hdisj.1, h.ring.path_pushBack hrest1 hpath1,
    h.ring.path_pushBack hrest2 h.path2, ?_, fun x hx => h.roots x (List.mem_cons_of_mem _ hx)⟩
  simpa using h.nodup

theorem Merging.takeSecond (h : Merging s root1 root2 root m l1 (b :: l2)) :
    Merging ⟨s.links.pushBack root b, s.first1, s.links.next b⟩ root1 root2 root (m ++ [b])
      l1 l2 := by
  obtain ⟨-, hpath2⟩ := h.path2
  have hperm : (l1 ++ b :: l2).Perm (b :: (l1 ++ l2)) := List.perm_middle
  have hnodup : (m ++ b :: (l1 ++ l2)).Nodup := (hperm.append_left m).nodup_iff.mp h.nodup
  have hb : b ∉ l1 ++ l2 := (List.nodup_cons.mp (List.nodup_append.mp hnodup).2.1).1
  have hdisj : (b :: (l1 ++ l2)).Disjoint (root :: m) :=
    fun x hx => h.disjoint (hperm.mem_iff.mpr hx)
  obtain ⟨hbm, hdisj⟩ := List.disjoint_cons_left.mp hdisj
  have hrest : (l1 ++ l2).Disjoint (b :: root :: m) := List.disjoint_cons_right.mpr ⟨hb, hdisj⟩
  obtain ⟨hrest1, hrest2⟩ := List.disjoint_append_left.mp hrest
  refine ⟨h.ring.pushBack hbm, h.ring.path_pushBack hrest1 h.path1,
    h.ring.path_pushBack hrest2 hpath2, by simpa using hnodup, fun x hx => h.roots x ?_⟩
  exact hperm.mem_iff.mpr (List.mem_cons_of_mem _ hx)

end

/-- **The merge.**  If the comparison answers `lt` and keeps `I`, the list gets
the items in the order of `List.merge`. -/
theorem wp_merge {less : κ → κ → Prog σ ε Bool} (lt : κ → κ → Bool) {I : σ → Prop}
    (hless : ∀ a ∈ l2, ∀ b ∈ l1, ∀ t, I t → wp (less a b) (fun r t' => r = lt a b ∧ I t') E t)
    (fuel : Nat) (hfuel : (l1 ++ l2).length < fuel) (h1 : L.Ring root1 l1) (h2 : L.Ring root2 l2)
    (hring : L.Ring root []) (hnodup : ([root1, root2, root] ++ (l1 ++ l2)).Nodup) (hI : I t)
    (hQ : ∀ L' t', L'.Ring root (l1.merge l2 fun a b => !lt b a) → I t' → Q L' t') :
    wp (merge less root1 root2 root fuel L) Q E t := by
  have hM : Merging ⟨L, L.next root1, L.next root2⟩ root1 root2 root [] l1 l2 :=
    ⟨hring, h1.path, h2.path, (List.nodup_append'.mp hnodup).2.1, fun x hx => by
      simpa using fun hm => (List.nodup_append'.mp hnodup).2.2 hm hx⟩
  refine wp_loop (I := fun n s t' => I t' ∧ ∃ m' l1' l2' : List κ, n = (l1' ++ l2').length ∧
    Merging s root1 root2 root m' l1' l2' ∧ l1' <:+ l1 ∧ l2' <:+ l2 ∧
    m' ++ (l1'.merge l2' fun a b => !lt b a) = l1.merge l2 fun a b => !lt b a)
    ?_ fuel (l1 ++ l2).length _ t
    ⟨hI, [], l1, l2, rfl, hM, List.suffix_rfl, List.suffix_rfl, rfl⟩ hfuel
  rintro n s t' ⟨hI', m', l1', l2', rfl, hM', hs1, hs2, heq⟩
  have hlen : (l1' ++ l2').length < fuel := by
    have hle1 := hs1.length_le
    have hle2 := hs2.length_le
    rw [List.length_append] at hfuel ⊢
    omega
  have hdisj := List.disjoint_append_left.mp hM'.disjoint
  have hnd := (List.nodup_append.mp hM'.nodup).2.1
  unfold mergeRound
  cases l1' with
  | nil =>
    -- the rest of the second list
    have hend : s.first1 = root1 := hM'.path1
    rw [if_pos hend, wp_bind]
    refine wp_drain fuel hlen hM'.ring hM'.path2 (fun hm => (hM'.roots _ hm).2.1 rfl) hnd hdisj.2
      fun L' hL' => ?_
    rw [wp_pure]
    refine hQ L' t' ?_ hI'
    rw [← heq, List.nil_merge]
    exact hL'
  | cons a l1' =>
    obtain ⟨rfl, -⟩ := hM'.path1
    rw [if_neg (hM'.roots _ (by simp)).1]
    cases l2' with
    | nil =>
      rw [List.append_nil] at hlen hnd
      have hend : s.first2 = root2 := hM'.path2
      rw [if_pos hend, wp_bind]
      refine wp_drain fuel hlen hM'.ring hM'.path1
        (fun hm => (hM'.roots _ (List.mem_append_left _ hm)).1 rfl) hnd hdisj.1 fun L' hL' => ?_
      rw [wp_pure]
      refine hQ L' t' ?_ hI'
      rw [← heq, List.merge_right]
      exact hL'
    | cons b l2' =>
      obtain ⟨rfl, -⟩ := hM'.path2
      rw [if_neg (hM'.roots _ (by simp)).2.1, wp_bind]
      refine (hless _ (hs2.subset List.mem_cons_self) _ (hs1.subset List.mem_cons_self) t'
        hI').imp ?_
      rintro _ t'' ⟨rfl, hI''⟩
      rw [List.cons_merge_cons] at heq
      by_cases hlt : lt s.first2 s.first1 = true
      · rw [if_pos hlt, wp_pure]
        rw [if_neg (by simp [hlt])] at heq
        exact ⟨_, by simp, hI'', _, _, _, rfl, hM'.takeSecond, hs1,
          (List.suffix_cons _ l2').trans hs2, by simpa using heq⟩
      · rw [if_neg hlt, wp_pure]
        rw [if_pos (by simpa using hlt)] at heq
        exact ⟨_, by simp, hI'', _, _, _, rfl, hM'.takeFirst,
          (List.suffix_cons _ l1').trans hs1, hs2, by simpa using heq⟩

end Merge

end Links

end Garbage.Foundation
