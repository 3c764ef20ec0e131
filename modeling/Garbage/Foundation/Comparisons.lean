import Garbage.Foundation.Prog

/-!
# Algorithms that compare

A comparison algorithm is a tree of questions, "is `x` less than `y`", with a
result at each leaf.  `answer lt` is its result if the questions are answered by
`lt`.  `run less` asks a program, which may have an effect of its own, or throw in
the middle.  `wp_run` says that a run without exception has that result.

A `ComparisonSort` asks only about the items it is given, and ends with the same
items in some order.  `insertionSort` is one.
-/

namespace Garbage.Foundation

open Prog

/-- A comparison algorithm on items `κ` with results `β`. -/
inductive Comparisons (κ β : Type) where
  | done (b : β)
  | ask (x y : κ) (next : Bool → Comparisons κ β)

namespace Comparisons

variable {κ σ ε β γ : Type}

/-- The result if the questions are answered by `lt`. -/
def answer (lt : κ → κ → Bool) : Comparisons κ β → β
  | done b => b
  | ask x y next => (next (lt x y)).answer lt

/-- Ask the program `less`. -/
def run (less : κ → κ → Prog σ ε Bool) : Comparisons κ β → Prog σ ε β
  | done b => pure b
  | ask x y next => do
    let r ← less x y
    (next r).run less

def andThen (f : β → Comparisons κ γ) : Comparisons κ β → Comparisons κ γ
  | done b => f b
  | ask x y next => ask x y fun r => (next r).andThen f

/-- All questions are about items with `P`, all results have `R`. -/
def Within (P : κ → Prop) (R : β → Prop) : Comparisons κ β → Prop
  | done b => R b
  | ask x y next => P x ∧ P y ∧ ∀ r, (next r).Within P R

variable {P P' : κ → Prop} {R : β → Prop} {R' : γ → Prop} {c : Comparisons κ β}

theorem Within.mono {R₀ : β → Prop} (hP : ∀ x, P x → P' x) (hR : ∀ b, R b → R₀ b)
    (h : c.Within P R) : c.Within P' R₀ := by
  induction c with
  | done b => exact hR b h
  | ask x y next ih => exact ⟨hP x h.1, hP y h.2.1, fun r => ih r (h.2.2 r)⟩

theorem Within.andThen {f : β → Comparisons κ γ} (h : c.Within P R)
    (hf : ∀ b, R b → (f b).Within P R') : (c.andThen f).Within P R' := by
  induction c with
  | done b => exact hf b h
  | ask x y next ih => exact ⟨h.1, h.2.1, fun r => ih r (h.2.2 r)⟩

/-- **A run** that nothing interrupts has the result of the answers. -/
theorem wp_run {less : κ → κ → Prog σ ε Bool} (lt : κ → κ → Bool) {I : σ → Prop}
    {E : ε → σ → Prop} (hless : ∀ x y t, P x → P y → I t →
      wp (less x y) (fun r t' => r = lt x y ∧ I t') E t) :
    ∀ {c : Comparisons κ β} {t : σ}, c.Within P R → I t →
      wp (c.run less) (fun b t' => b = c.answer lt ∧ R b ∧ I t') E t := by
  intro c
  induction c with
  | done b => exact fun hR hI => ⟨rfl, hR, hI⟩
  | ask x y next ih =>
    intro t hP hI
    show wp (do
      let r ← less x y
      (next r).run less) _ E t
    rw [wp_bind]
    refine (hless x y t hP.1 hP.2.1 hI).imp ?_
    rintro _ t' ⟨rfl, hI'⟩
    exact ih (lt x y) (hP.2.2 _) hI'

/-! ### Insertion sort -/

/-- Put `x` in front of the first item that is not less. -/
def insert (x : κ) : List κ → Comparisons κ (List κ)
  | [] => done [x]
  | y :: l => ask y x fun less =>
    if less then (insert x l).andThen fun l' => done (y :: l') else done (x :: y :: l)

def insertionSort : List κ → Comparisons κ (List κ)
  | [] => done []
  | x :: l => (insertionSort l).andThen (insert x)

theorem within_insert (x : κ) (l : List κ) :
    (insert x l).Within (· ∈ x :: l) fun l' => l'.Perm (x :: l) := by
  induction l with
  | nil => exact List.Perm.refl [x]
  | cons y l ih =>
    refine ⟨by simp, by simp, fun r => ?_⟩
    cases r with
    | false => exact List.Perm.refl _
    | true =>
      have hsub : ∀ z, z ∈ x :: l → z ∈ x :: y :: l := by
        intro z hz
        rw [List.mem_cons] at hz ⊢
        exact hz.imp_right (List.mem_cons_of_mem y)
      exact (ih.mono hsub fun _ h => h).andThen fun l' hl' =>
        (hl'.cons y).trans (List.Perm.swap x y l)

theorem within_insertionSort (l : List κ) :
    (insertionSort l).Within (· ∈ l) fun l' => l'.Perm l := by
  induction l with
  | nil => exact List.Perm.refl []
  | cons x l ih =>
    refine (ih.mono (fun z hz => List.mem_cons_of_mem x hz) fun _ h => h).andThen fun l' hl' => ?_
    have hperm : (x :: l').Perm (x :: l) := hl'.cons x
    exact (within_insert x l').mono (fun z hz => hperm.mem_iff.mp hz) fun _ h => h.trans hperm

end Comparisons

structure ComparisonSort (κ : Type) where
  sort : List κ → Comparisons κ (List κ)
  within (l : List κ) : (sort l).Within (· ∈ l) fun l' => l'.Perm l

def insertionSort (κ : Type) : ComparisonSort κ where
  sort := Comparisons.insertionSort
  within := Comparisons.within_insertionSort

end Garbage.Foundation
