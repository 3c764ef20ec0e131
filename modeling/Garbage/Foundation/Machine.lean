import Mathlib.Order.Basic

/-!
# Machines and their runs

A `Machine` is a set of start states and a function that says what an action
does to a state, `none` where the action cannot be taken.  All choices an
environment makes (which thread moves, which waiter is woken) are part of the
action, so a run is fixed by its start and its list of actions.

`ReachableBy C` are the states reached by steps that each meet the condition
`C` in the state before them; `Reachable` asks for no condition.  Every safety
result goes through `ReachableBy.invariant`.

`AllStates P` and `AllSteps C` speak about one run: `P` holds in each of its
states, `C` holds at each of its steps.  `allStates_iff_allSteps` is the rule
for an exact condition: when a step from a good state leads to a good state
exactly if it meets `C`, then a run stays good exactly if all its steps meet
`C`.
-/

namespace Garbage.Foundation

universe u v

/-- A machine: its start states and what an action does to a state. -/
structure Machine (σ : Type u) (ι : Type v) where
  init : σ → Prop
  next : σ → ι → Option σ

namespace Machine

variable {σ : Type u} {ι : Type v} (M : Machine σ ι)

/-- The state after a list of actions, `none` if one of them cannot be taken. -/
def run : σ → List ι → Option σ
  | s, [] => some s
  | s, a :: as => (M.next s a).bind fun s' => run s' as

/-- The states reached by steps that each meet `C` in the state before them. -/
inductive ReachableBy (C : σ → ι → Prop) : σ → Prop
  | init {s : σ} : M.init s → ReachableBy C s
  | step {s s' : σ} {a : ι} : ReachableBy C s → C s a → M.next s a = some s' → ReachableBy C s'

/-- The states reached by any steps at all. -/
abbrev Reachable : σ → Prop := M.ReachableBy fun _ _ => True

/-- `P` holds in every state of the run of `as` from `s`. -/
def AllStates (P : σ → Prop) : σ → List ι → Prop
  | s, [] => P s
  | s, a :: as => P s ∧ ∀ s', M.next s a = some s' → AllStates P s' as

/-- `C` holds at every step of the run of `as` from `s`. -/
def AllSteps (C : σ → ι → Prop) : σ → List ι → Prop
  | _, [] => True
  | s, a :: as => C s a ∧ ∀ s', M.next s a = some s' → AllSteps C s' as

variable {M}

instance decidableAllStates (P : σ → Prop) [DecidablePred P] :
    ∀ (as : List ι) (s : σ), Decidable (M.AllStates P s as)
  | [], s => inferInstanceAs (Decidable (P s))
  | a :: as, s =>
    have := decidableAllStates P as
    decidable_of_iff (P s ∧ (M.next s a).all fun s' => decide (M.AllStates P s' as)) <| by
      simp only [Option.all_eq_true, decide_eq_true_eq]
      exact Iff.rfl

instance decidableAllSteps (C : σ → ι → Prop) [∀ s, DecidablePred (C s)] :
    ∀ (as : List ι) (s : σ), Decidable (M.AllSteps C s as)
  | [], _ => isTrue trivial
  | a :: as, s =>
    have := decidableAllSteps C as
    decidable_of_iff (C s a ∧ (M.next s a).all fun s' => decide (M.AllSteps C s' as)) <| by
      simp only [Option.all_eq_true, decide_eq_true_eq]
      exact Iff.rfl

@[simp] theorem run_nil (s : σ) : M.run s [] = some s := rfl

@[simp] theorem run_cons (s : σ) (a : ι) (as : List ι) :
    M.run s (a :: as) = (M.next s a).bind fun s' => M.run s' as := rfl

theorem run_append (as bs : List ι) : ∀ s : σ,
    M.run s (as ++ bs) = (M.run s as).bind fun s' => M.run s' bs := by
  induction as with
  | nil => intro s; rfl
  | cons a as ih =>
    intro s
    rw [List.cons_append, run_cons, run_cons]
    cases h : M.next s a with
    | none => rfl
    | some s' => exact ih s'

/-! ### Reachable states -/

/-- **The invariant rule.**  What holds at the start and is kept by every step
that meets `C` holds in every state reached by such steps. -/
theorem ReachableBy.invariant {C : σ → ι → Prop} {I : σ → Prop} (h0 : ∀ s, M.init s → I s)
    (hstep : ∀ s a s', I s → C s a → M.next s a = some s' → I s') {s : σ}
    (h : M.ReachableBy C s) : I s := by
  induction h with
  | init hi => exact h0 _ hi
  | step _ hc hn ih => exact hstep _ _ _ ih hc hn

theorem ReachableBy.mono {C D : σ → ι → Prop} (hCD : ∀ s a, C s a → D s a) {s : σ}
    (h : M.ReachableBy C s) : M.ReachableBy D s := by
  induction h with
  | init hi => exact .init hi
  | step _ hc hn ih => exact .step ih (hCD _ _ hc) hn

theorem ReachableBy.reachable {C : σ → ι → Prop} {s : σ} (h : M.ReachableBy C s) :
    M.Reachable s := h.mono fun _ _ _ => trivial

theorem Reachable.next {s s' : σ} {a : ι} (h : M.Reachable s) (hn : M.next s a = some s') :
    M.Reachable s' := .step h trivial hn

/-- A run keeps the state reachable. -/
theorem Reachable.run {as : List ι} : ∀ {s s' : σ}, M.Reachable s → M.run s as = some s' →
    M.Reachable s' := by
  induction as with
  | nil => intro s s' h hr; exact Option.some.inj hr ▸ h
  | cons a as ih =>
    intro s s' h hr
    obtain ⟨m, hm, hr'⟩ := Option.bind_eq_some_iff.mp hr
    exact ih (h.next hm) hr'

/-- The steps of a run that each meet `C` reach its last state. -/
theorem ReachableBy.run {C : σ → ι → Prop} {as : List ι} : ∀ {s s' : σ}, M.ReachableBy C s →
    M.AllSteps C s as → M.run s as = some s' → M.ReachableBy C s' := by
  induction as with
  | nil => intro s s' h _ hr; exact Option.some.inj hr ▸ h
  | cons a as ih =>
    intro s s' h hC hr
    obtain ⟨m, hm, hr'⟩ := Option.bind_eq_some_iff.mp hr
    exact ih (.step h hC.1 hm) (hC.2 m hm) hr'

/-! ### Exact conditions on a run -/

theorem AllStates.head {P : σ → Prop} {s : σ} {as : List ι} (h : M.AllStates P s as) : P s := by
  cases as with
  | nil => exact h
  | cons a as => exact h.1

theorem AllSteps.cons {C : σ → ι → Prop} {s s' : σ} {a : ι} {as : List ι}
    (hn : M.next s a = some s') (hC : C s a) (h : M.AllSteps C s' as) :
    M.AllSteps C s (a :: as) :=
  ⟨hC, fun _ hn' => Option.some.inj (hn.symm.trans hn') ▸ h⟩

/-- What holds at each step from a good state holds at all steps of a run that stays good. -/
theorem AllSteps.of_invariant {I : σ → Prop} {C D : σ → ι → Prop}
    (hgood : ∀ s a s', I s → C s a → M.next s a = some s' → I s')
    (hD : ∀ s a, I s → C s a → D s a) {as : List ι} :
    ∀ {s : σ}, I s → M.AllSteps C s as → M.AllSteps D s as := by
  induction as with
  | nil => intro s _ _; trivial
  | cons a as ih =>
    intro s hs hC
    exact ⟨hD s a hs hC.1, fun s' hn => ih (hgood s a s' hs hC.1 hn) (hC.2 s' hn)⟩

/-- **The exact condition of a run.**  `I` is the invariant of the good states.
If a step from a good state leads to a good state when it meets `C`, and to a
state without `P` when it does not, then `P` holds all along a run exactly when
all its steps meet `C`. -/
theorem allStates_iff_allSteps {P I : σ → Prop} {C : σ → ι → Prop} (hIP : ∀ s, I s → P s)
    (hgood : ∀ s a s', I s → C s a → M.next s a = some s' → I s')
    (hbad : ∀ s a, I s → ¬ C s a → ∃ s', M.next s a = some s' ∧ ¬ P s') (as : List ι) :
    ∀ s : σ, I s → (M.AllStates P s as ↔ M.AllSteps C s as) := by
  induction as with
  | nil => intro s hs; exact ⟨fun _ => trivial, fun _ => hIP s hs⟩
  | cons a as ih =>
    intro s hs
    constructor
    · rintro ⟨-, hall⟩
      have hC : C s a := by
        by_contra hc
        obtain ⟨s', hn, hP⟩ := hbad s a hs hc
        exact hP (hall s' hn).head
      exact ⟨hC, fun s' hn => (ih s' (hgood s a s' hs hC hn)).mp (hall s' hn)⟩
    · rintro ⟨hC, hall⟩
      exact ⟨hIP s hs, fun s' hn => (ih s' (hgood s a s' hs hC hn)).mpr (hall s' hn)⟩

end Machine

end Garbage.Foundation
