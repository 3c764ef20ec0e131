import Mathlib.Data.List.Sort
import Mathlib.Order.Defs.Unbundled

/-!
# The stable merge

`List.merge` with `!lt b a` as its comparison takes the item of the second list
only if it is less than that of the first one.  Whatever `lt` is, the merged list
has the items of both, and those of one list in their order.  If `lt` is a strict
weak order and both lists are sorted, so is the merged list, and where an item of
the second list stands before one of the first, it is less.
-/

namespace Garbage.Foundation

variable {γ : Type} {lt : γ → γ → Bool} {as bs : List γ}

/-- No item is less than one before it. -/
def SortedBy (lt : γ → γ → Bool) (l : List γ) : Prop := l.Pairwise fun a b => lt b a = false

/-- The comparison of the merge: the item of the first list is taken unless that
of the second one is less. -/
def notAfter (lt : γ → γ → Bool) (a b : γ) : Bool := !lt b a

/-! ### Any comparison -/

theorem sublist_merge_left (le : γ → γ → Bool) (as bs : List γ) :
    as.Sublist (as.merge bs le) := by
  induction as generalizing bs with
  | nil => exact List.nil_sublist _
  | cons a as ih =>
    induction bs with
    | nil => rw [List.merge_right]
    | cons b bs ihb =>
      rw [List.cons_merge_cons]
      split
      · exact (ih (b :: bs)).cons_cons a
      · exact ihb.cons b

theorem sublist_merge_right (le : γ → γ → Bool) (as bs : List γ) :
    bs.Sublist (as.merge bs le) := by
  induction as generalizing bs with
  | nil => rw [List.nil_merge]
  | cons a as ih =>
    induction bs with
    | nil => exact List.nil_sublist _
    | cons b bs ihb =>
      rw [List.cons_merge_cons]
      split
      · exact (ih (b :: bs)).cons a
      · exact ihb.cons_cons b

/-! ### Strict weak orders -/

/-- The comparison is a strict weak order. -/
abbrev StrictWeak (lt : γ → γ → Bool) : Prop := IsStrictWeakOrder γ fun a b => lt a b = true

theorem lt_asymm (hlt : StrictWeak lt) {a b : γ} (h : lt a b = true) : lt b a = false := by
  by_contra hba
  exact hlt.irrefl a (hlt.trans a b a h (by simpa using hba))

theorem not_lt_trans (hlt : StrictWeak lt) {a b c : γ} (hab : lt b a = false)
    (hbc : lt c b = false) : lt c a = false := by
  by_contra hca
  have hca : lt c a = true := by simpa using hca
  have hab' : lt a b = false := by
    by_contra h
    have := hlt.trans c a b hca (by simpa using h)
    simp [this] at hbc
  have hbc' : lt b c = false := by
    by_contra h
    have := hlt.trans b c a (by simpa using h) hca
    simp [this] at hab
  have h := hlt.incomp_trans a b c ⟨by simp [hab'], by simp [hab]⟩ ⟨by simp [hbc'], by simp [hbc]⟩
  exact h.2 hca

/-- Less than something that is not after is less. -/
theorem lt_of_lt_of_not_lt (hlt : StrictWeak lt) {a b c : γ} (hab : lt a b = true)
    (hcb : lt c b = false) : lt a c = true := by
  by_contra h
  have hac : lt a c = false := by simpa using h
  have := not_lt_trans hlt hcb hac
  simp [this] at hab

/-- **The merged list is sorted.** -/
theorem SortedBy.merge (hlt : StrictWeak lt) (ha : SortedBy lt as) (hb : SortedBy lt bs) :
    SortedBy lt (as.merge bs (notAfter lt)) := by
  have hmerge : (as.merge bs (notAfter lt)).Pairwise fun a b => notAfter lt a b = true := by
    refine List.pairwise_merge (fun a b c hab hbc => ?_) (fun a b => ?_) as bs ?_ ?_
    · simp only [notAfter, Bool.not_eq_true'] at hab hbc ⊢
      exact not_lt_trans hlt hab hbc
    · cases h : lt a b with
      | false => simp [notAfter, h]
      | true => simp [notAfter, lt_asymm hlt h]
    · exact ha.imp fun h => by simp [notAfter, h]
    · exact hb.imp fun h => by simp [notAfter, h]
  exact hmerge.imp fun h => by simpa [notAfter] using h

/-- **The merge is stable**: an item of the second list that stands before one of
the first is less. -/
theorem SortedBy.merge_stable (hlt : StrictWeak lt) {A B : γ → Prop} (ha : SortedBy lt as)
    (hA : ∀ b ∈ bs, ¬ A b) (hB : ∀ a ∈ as, ¬ B a) :
    (as.merge bs (notAfter lt)).Pairwise fun b a => B b → A a → lt b a = true := by
  induction as generalizing bs with
  | nil =>
    rw [List.nil_merge]
    exact List.Pairwise.imp_of_mem (fun _ hb _ _ hAb => absurd hAb (hA _ hb))
      (List.pairwise_of_forall fun _ _ => trivial)
  | cons a as ih =>
    induction bs with
    | nil =>
      rw [List.merge_right]
      exact List.Pairwise.imp_of_mem (fun hb _ _ hBb _ => absurd hBb (hB _ hb))
        (List.pairwise_of_forall fun _ _ => trivial)
    | cons b bs ihb =>
      rw [List.cons_merge_cons]
      split
      · refine List.Pairwise.cons (fun c _ hBa => absurd hBa (hB a List.mem_cons_self)) ?_
        exact ih ha.of_cons hA fun c hc => hB c (List.mem_cons_of_mem _ hc)
      · next hle =>
        have hba : lt b a = true := by simpa [notAfter] using hle
        refine List.Pairwise.cons (fun c hc _ hAc => ?_)
          (ihb fun c hc => hA c (List.mem_cons_of_mem _ hc))
        -- the item of the first list is its first one or comes later in it
        rcases List.mem_merge.mp hc with hc | hc
        · rcases List.mem_cons.mp hc with rfl | hc
          · exact hba
          · exact lt_of_lt_of_not_lt hlt hba (List.rel_of_pairwise_cons ha hc)
        · exact absurd hAc (hA c (List.mem_cons_of_mem _ hc))

/-- The list `merged` is a stable merge of the lists `as` and `bs`. -/
structure StablyMerged (lt : γ → γ → Bool) (as bs merged : List γ) : Prop where
  perm : merged.Perm (as ++ bs)
  left : as.Sublist merged
  right : bs.Sublist merged
  sorted : StrictWeak lt → SortedBy lt as → SortedBy lt bs → SortedBy lt merged
  stable : StrictWeak lt → SortedBy lt as →
    merged.Pairwise fun b a => b ∈ bs → a ∈ as → lt b a = true

/-- **`List.merge` merges stably** two lists without a common item. -/
theorem stablyMerged_merge (lt : γ → γ → Bool) (hdisj : as.Disjoint bs) :
    StablyMerged lt as bs (as.merge bs (notAfter lt)) where
  perm := List.merge_perm_append _
  left := sublist_merge_left _ as bs
  right := sublist_merge_right _ as bs
  sorted hlt ha hb := ha.merge hlt hb
  stable hlt ha := ha.merge_stable hlt (fun _ hb ha => hdisj ha hb) fun _ ha hb => hdisj ha hb

end Garbage.Foundation
