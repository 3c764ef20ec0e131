import Garbage.RandomAccessList.Elements

/-!
# Lists that share a memory

An `Entry` is a list variable: the members of its tree and what it holds.
`Owns h e`: in the memory `h` every list of `e` holds what `e` says, and no two
lists own a node in common.  A program that writes to nodes of one list, to
nodes of nobody and to new nodes only keeps the others (`Owns.update`).
-/

namespace Garbage.RandomAccessList

open Foundation (Prog)
open Foundation.Prog

variable {α ε β : Type} {h h' : Heap α}

/-- A list variable: its tree and its elements. -/
abbrev Entry (α : Type) := AvlTreeStump × List (Cell α)

/-- The nodes of a list variable. -/
def ownOf : Option (Entry α) → List Ptr
  | none => []
  | some x => own x.1 x.2

/-- The lists hold what `e` says and share no node. -/
structure Owns (h : Heap α) (e : Nat → Option (Entry α)) : Prop where
  holds : ∀ l x, e l = some x → Holds ⟨h, x.1⟩ x.2
  disjoint : ∀ l k, l ≠ k → (ownOf (e l)).Disjoint (ownOf (e k))

variable {e : Nat → Option (Entry α)} {l : Nat} {stump stump' : AvlTreeStump}
  {cells cells' : List (Cell α)}

theorem Owns.live (hO : Owns h e) : ∀ k, ∀ p ∈ ownOf (e k), p ∈ h.live := by
  intro k p hp
  cases hk : e k with
  | none => rw [hk] at hp; cases hp
  | some x => rw [hk] at hp; exact (hO.holds k x hk).live p hp

/-- **One list changes.**  The nodes written to and the new nodes of the list
are nobody else's. -/
theorem Owns.update {S : List Ptr} {o : Option (Entry α)} (hO : Owns h e)
    (ho : ∀ x, o = some x → Holds ⟨h', x.1⟩ x.2) (hout : Outside S h h')
    (hS : ∀ k, k ≠ l → ∀ p ∈ ownOf (e k), p ∉ S ∧ p ∉ ownOf o) :
    Owns h' (Function.update e l o) := by
  refine ⟨fun k x hx => ?_, fun k k' hkk' => ?_⟩
  · by_cases hk : k = l
    · subst hk
      rw [Function.update_self] at hx
      exact ho x hx
    · rw [Function.update_of_ne hk] at hx
      have hown : ownOf (e k) = own x.1 x.2 := congrArg ownOf hx
      exact (hO.holds k x hx).congr fun p hp =>
        hout p ((hO.holds k x hx).live p hp) (hS k hk p (hown ▸ hp)).1
  · -- only a pair with the list that changed is new
    by_cases hk : k = l
    · subst hk
      rw [Function.update_self, Function.update_of_ne hkk'.symm]
      exact fun p hp hp' => (hS k' hkk'.symm p hp').2 hp
    · by_cases hk' : k' = l
      · subst hk'
        rw [Function.update_self, Function.update_of_ne hkk']
        exact fun p hp hp' => (hS k hkk' p hp).2 hp'
      · rw [Function.update_of_ne hk, Function.update_of_ne hk']
        exact hO.disjoint k k' hkk'

theorem Owns.changed (hO : Owns h e) (hl : e l = some (stump, cells))
    (hC : Changed ⟨h, stump⟩ ⟨h', stump'⟩ cells cells') :
    Owns h' (Function.update e l (some (stump', cells'))) := by
  have hown : ownOf (e l) = own stump cells := congrArg ownOf hl
  refine hO.update (fun x hx => Option.some.inj hx ▸ hC.holds) hC.outside fun k hk p hp => ?_
  have hpl : p ∉ own stump cells := fun hm => hO.disjoint k l hk hp (hown ▸ hm)
  refine ⟨hpl, fun hm => ?_⟩
  have hm' : p ∈ own stump cells' := hC.ends.own_eq cells' ▸ hm
  rcases List.mem_cons.mp hm' with rfl | hm'
  · exact hpl List.mem_cons_self
  · rcases List.mem_append.mp hm' with hm' | hm'
    · obtain ⟨c, hc, rfl⟩ := List.mem_map.mp hm'
      rcases hC.fresh c hc with hc | hc
      · exact hpl (fst_mem_own _ hc)
      · exact hc (hO.live k _ hp)
    · exact hpl (List.mem_cons_of_mem _ (List.mem_append_right _ hm'))

theorem Owns.replaced {o : Option (Entry α)} (hO : Owns h e)
    (ho : ∀ x, o = some x → Holds ⟨h', x.1⟩ x.2) (hout : Outside (ownOf (e l)) h h')
    (hnew : ∀ p ∈ ownOf o, p ∉ h.live) : Owns h' (Function.update e l o) :=
  hO.update ho hout fun k hk p hp =>
    ⟨fun hm => hO.disjoint k l hk hp hm, fun hm => hnew p hm (hO.live k p hp)⟩

theorem Owns.swapped (hO : Owns h e) (l k : Nat) : Owns h fun i => e (Equiv.swap l k i) :=
  ⟨fun _ x hx => hO.holds _ x hx, fun _ _ hij =>
    hO.disjoint _ _ fun he => hij ((Equiv.swap l k).injective he)⟩

section Moving

variable {other : Nat} {so so' sl sl' : AvlTreeStump} {co cm co' cl cl' : List (Cell α)}

theorem Owns.apart_of_taken (hO : Owns h e) (hother : e other = some (so, co))
    (hends : SameEnds so so') (hperm : (cm ++ co').Perm co) (k : Nat) :
    (nodes cm).Disjoint (ownOf (Function.update e other (some (so', co')) k)) := by
  intro x hx hm
  obtain ⟨c, hc, rfl⟩ := List.mem_map.mp hx
  have hcm : c ∈ co := hperm.mem_iff.mp (List.mem_append_left _ hc)
  by_cases hk : k = other
  · subst hk
    rw [Function.update_self] at hm
    have hn := (hO.holds k _ hother).nodup
    rw [own, List.nodup_cons, List.mem_append, not_or, List.nodup_append'] at hn
    obtain ⟨⟨hbb, -⟩, hncells, -, hend⟩ := hn
    have hcell : c.1 ∈ nodes co := fst_mem_nodes hcm
    have hapart := ((hperm.map Prod.fst).nodup_iff.mpr hncells)
    rw [List.map_append, List.nodup_append'] at hapart
    change c.1 ∈ own so' co' at hm
    rw [hends.own_eq, own, List.mem_cons, List.mem_append] at hm
    rcases hm with hm | hm | hm
    · exact hbb (hm ▸ hcell)
    · exact hapart.2.2 hx hm
    · exact hend hcell hm
  · rw [Function.update_of_ne hk] at hm
    have hown : ownOf (e other) = own so co := congrArg ownOf hother
    exact hO.disjoint k other hk hm (hown ▸ fst_mem_own _ hcm)

theorem Owns.inserted (hO : Owns h e) (hl : e l = some (sl, cl))
    (hnew : ∀ k, (nodes cm).Disjoint (ownOf (e k))) (hH : Holds ⟨h', sl'⟩ cl')
    (hends : SameEnds sl sl') (hperm : cl'.Perm (cm ++ cl))
    (he : Edits (nodes cm ++ own sl cl) h h') :
    Owns h' (Function.update e l (some (sl', cl'))) := by
  have hown' : ∀ x ∈ own sl' cl', x ∈ own sl cl ∨ x ∈ nodes cm := by
    intro x hx
    rw [hends.own_eq] at hx
    rcases List.mem_cons.mp hx with rfl | hx
    · exact .inl List.mem_cons_self
    · rcases List.mem_append.mp hx with hx | hx
      · have h := (hperm.map Prod.fst).mem_iff.mp hx
        rw [List.map_append, List.mem_append] at h
        exact h.elim .inr fun h => .inl (List.mem_cons_of_mem _ (List.mem_append_left _ h))
      · exact .inl (List.mem_cons_of_mem _ (List.mem_append_right _ hx))
  refine hO.update (fun x hx => Option.some.inj hx ▸ hH) he.outside fun k hk p hp => ?_
  have hcm : p ∉ nodes cm := fun hm => hnew k hm hp
  have hcl : p ∉ own sl cl := by
    have hownl : ownOf (e l) = own sl cl := congrArg ownOf hl
    exact fun hm => hO.disjoint k l hk hp (hownl ▸ hm)
  exact ⟨fun hm => (List.mem_append.mp hm).elim hcm hcl, fun hm => (hown' p hm).elim hcl hcm⟩

theorem Owns.moved {h'' : Heap α} (hO : Owns h e) (hne : l ≠ other)
    (hother : e other = some (so, co)) (hl : e l = some (sl, cl))
    (hH : Holds ⟨h', so'⟩ co') (hends : SameEnds so so') (hperm : (cm ++ co').Perm co)
    (he : Edits (own so co) h h')
    (hH' : Holds ⟨h'', sl'⟩ cl') (hends' : SameEnds sl sl') (hperm' : cl'.Perm (cm ++ cl))
    (he' : Edits (nodes cm ++ own sl cl) h' h'') :
    Owns h'' (Function.update (Function.update e other (some (so', co'))) l (some (sl', cl'))) := by
  have hO' : Owns h' (Function.update e other (some (so', co'))) :=
    hO.changed hother (changed_of_sublist
      (fun c hc => hperm.mem_iff.mp (List.mem_append_right _ hc)) hH hends he.outside)
  have hl' : Function.update e other (some (so', co')) l = some (sl, cl) :=
    (Function.update_of_ne hne _ _).trans hl
  exact hO'.inserted hl' (hO.apart_of_taken hother hends hperm) hH' hends' hperm' he'

end Moving

/-! ### Programs on list variables -/

namespace World

variable {w : World α} {E : ε → World α → Prop}

theorem wp_onList {x : Prog (Tree α) ε β} {Q : β → World α → Prop} (hl : w.lists l = some stump)
    (hx : wp x (fun b t => Q b ⟨t.heap, Function.update w.lists l (some t.stump)⟩)
      (fun r t => E r ⟨t.heap, Function.update w.lists l (some t.stump)⟩) ⟨w.heap, stump⟩) :
    wp (onList l x) Q E w := by
  unfold wp at hx
  unfold wp onList
  rw [hl]
  dsimp only
  split at hx
  · exact hx.elim
  · rename_i hr
    rw [hr]
    exact hx
  · rename_i hr
    rw [hr]
    exact hx

theorem wp_onTree {x : Prog (Tree α) ε PUnit} {Q : AvlTreeStump → World α → Prop}
    (hx : wp x (fun _ t => Q t.stump ⟨t.heap, w.lists⟩) (fun r t => E r ⟨t.heap, w.lists⟩)
      ⟨w.heap, stump⟩) : wp (onTree stump x) Q E w := by
  unfold wp at hx
  unfold wp onTree
  split at hx
  · exact hx.elim
  · rename_i hr
    rw [hr]
    exact hx
  · rename_i hr
    rw [hr]
    exact hx

theorem wp_getList {Q : AvlTreeStump → World α → Prop} (hl : w.lists l = some stump)
    (hQ : Q stump w) : wp (getList l) Q E w :=
  (wp_read _).mpr ⟨stump, hl, hQ⟩

end World

end Garbage.RandomAccessList
