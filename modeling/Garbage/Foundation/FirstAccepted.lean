import Mathlib.Data.List.Basic

/-!
# Trials up to the first that is accepted

`trial i` tries the item `i`: it changes a state, and it throws, or it answers with
nothing that suits (`none`), or with a value that is accepted.

`FirstAccepted trial exhausted s items tried r`: from the state `s` the items of
`tried`, a prefix of `items`, are tried in order, up to and including the first that
is accepted, and `r` is its value.  If none is accepted all are tried, and `r` is what
the last one threw, or `exhausted` if it merely did not suit or there is none.
-/

namespace Garbage.Foundation

variable {ι σ ε α : Type*}

/-- The state after the trials of some items. -/
def afterTrials (trial : ι → σ → Except ε (Option α) × σ) (items : List ι) (s : σ) : σ :=
  items.foldl (fun s i => (trial i s).2) s

/-- None of the items is accepted. -/
def NoneAccepted (trial : ι → σ → Except ε (Option α) × σ) : List ι → σ → Prop
  | [], _ => True
  | i :: items, s => (∀ a, (trial i s).1 ≠ .ok (some a)) ∧ NoneAccepted trial items (trial i s).2

inductive FirstAccepted (trial : ι → σ → Except ε (Option α) × σ) (exhausted : ε) (s : σ) :
    List ι → List ι → Except ε α → Prop
  | accepted {before rest : List ι} {i : ι} {a : α} : NoneAccepted trial before s →
      (trial i (afterTrials trial before s)).1 = .ok (some a) →
      FirstAccepted trial exhausted s (before ++ i :: rest) (before ++ [i]) (.ok a)
  | thrown {before : List ι} {i : ι} {e : ε} : NoneAccepted trial before s →
      (trial i (afterTrials trial before s)).1 = .error e →
      FirstAccepted trial exhausted s (before ++ [i]) (before ++ [i]) (.error e)
  | unsuitable {before : List ι} {i : ι} : NoneAccepted trial before s →
      (trial i (afterTrials trial before s)).1 = .ok none →
      FirstAccepted trial exhausted s (before ++ [i]) (before ++ [i]) (.error exhausted)
  | empty : FirstAccepted trial exhausted s [] [] (.error exhausted)

namespace FirstAccepted

variable {trial : ι → σ → Except ε (Option α) × σ} {exhausted : ε} {s : σ} {i : ι}
  {items tried : List ι} {r : Except ε α}

theorem head {a : α} (h : (trial i s).1 = .ok (some a)) :
    FirstAccepted trial exhausted s (i :: items) [i] (.ok a) :=
  show FirstAccepted trial exhausted s ([] ++ i :: items) ([] ++ [i]) (.ok a) from
    accepted trivial h

theorem single_thrown {e : ε} (h : (trial i s).1 = .error e) :
    FirstAccepted trial exhausted s [i] [i] (.error e) :=
  show FirstAccepted trial exhausted s ([] ++ [i]) ([] ++ [i]) (.error e) from thrown trivial h

theorem single_unsuitable (h : (trial i s).1 = .ok none) :
    FirstAccepted trial exhausted s [i] [i] (.error exhausted) :=
  show FirstAccepted trial exhausted s ([] ++ [i]) ([] ++ [i]) (.error exhausted) from
    unsuitable trivial h

/-- The first item is not accepted, and others are left. -/
theorem cons (hi : ∀ a, (trial i s).1 ≠ .ok (some a)) (hne : items ≠ [])
    (h : FirstAccepted trial exhausted (trial i s).2 items tried r) :
    FirstAccepted trial exhausted s (i :: items) (i :: tried) r := by
  cases h with
  | @accepted before rest j a hbefore hj =>
    rw [← List.cons_append, ← List.cons_append]
    exact accepted ⟨hi, hbefore⟩ hj
  | @thrown before j e hbefore hj =>
    rw [← List.cons_append]
    exact thrown ⟨hi, hbefore⟩ hj
  | @unsuitable before j hbefore hj =>
    rw [← List.cons_append]
    exact unsuitable ⟨hi, hbefore⟩ hj
  | empty => exact absurd rfl hne

theorem nil_cases (h : FirstAccepted trial exhausted s [] tried r) :
    tried = [] ∧ r = .error exhausted := by
  generalize hl : ([] : List ι) = l at h
  cases h with
  | empty => exact ⟨rfl, rfl⟩
  | _ => simp at hl

/-- What the law says of the first item. -/
theorem cons_cases (h : FirstAccepted trial exhausted s (i :: items) tried r) :
    (∃ a, (trial i s).1 = .ok (some a) ∧ tried = [i] ∧ r = .ok a) ∨
      (∃ e, (trial i s).1 = .error e ∧ items = [] ∧ tried = [i] ∧ r = .error e) ∨
      ((trial i s).1 = .ok none ∧ items = [] ∧ tried = [i] ∧ r = .error exhausted) ∨
      (∀ a, (trial i s).1 ≠ .ok (some a)) ∧ items ≠ [] ∧
        ∃ tried', tried = i :: tried' ∧
          FirstAccepted trial exhausted (trial i s).2 items tried' r := by
  generalize hl : i :: items = l at h
  cases h with
  | @accepted before rest j a hbefore hj =>
    cases before with
    | nil =>
      cases hl
      exact .inl ⟨a, hj, rfl, rfl⟩
    | cons k before =>
      cases hl
      exact .inr (.inr (.inr ⟨hbefore.1, by simp, before ++ [j], rfl, accepted hbefore.2 hj⟩))
  | @thrown before j e hbefore hj =>
    cases before with
    | nil =>
      cases hl
      exact .inr (.inl ⟨e, hj, rfl, rfl, rfl⟩)
    | cons k before =>
      cases hl
      exact .inr (.inr (.inr ⟨hbefore.1, by simp, before ++ [j], rfl, thrown hbefore.2 hj⟩))
  | @unsuitable before j hbefore hj =>
    cases before with
    | nil =>
      cases hl
      exact .inr (.inr (.inl ⟨hj, rfl, rfl, rfl⟩))
    | cons k before =>
      cases hl
      exact .inr (.inr (.inr ⟨hbefore.1, by simp, before ++ [j], rfl, unsuitable hbefore.2 hj⟩))
  | empty => cases hl

/-- The law says which items are tried and what comes out. -/
theorem unique {tried' : List ι} {r' : Except ε α}
    (h : FirstAccepted trial exhausted s items tried r)
    (h' : FirstAccepted trial exhausted s items tried' r') : tried = tried' ∧ r = r' := by
  induction items generalizing s tried tried' with
  | nil =>
    obtain ⟨rfl, rfl⟩ := h.nil_cases
    obtain ⟨rfl, rfl⟩ := h'.nil_cases
    exact ⟨rfl, rfl⟩
  | cons i items ih =>
    rcases h.cons_cases with ⟨a, hi, rfl, rfl⟩ | ⟨e, hi, rfl, rfl, rfl⟩ | ⟨hi, rfl, rfl, rfl⟩ |
      ⟨hi, hne, t, rfl, ht⟩ <;>
    rcases h'.cons_cases with ⟨a', hi', rfl, rfl⟩ | ⟨e', hi', hn, rfl, rfl⟩ | ⟨hi', hn, rfl, rfl⟩ |
      ⟨hi', hne', t', rfl, ht'⟩ <;>
    simp_all
    exact ih ht ht'

end FirstAccepted

end Garbage.Foundation
