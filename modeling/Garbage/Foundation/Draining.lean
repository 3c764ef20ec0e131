import Garbage.Foundation.Machine

/-!
# Machines that come to rest

The actions of a machine are those of its environment, which may stop, and the
`inner` ones.  If every inner step makes a measure smaller, a run of inner steps is
no longer than the measure of its start, and every state leads by inner steps to one
that has none left (`Draining.rests`).  What no state at rest can be is over in every
run that goes on long enough.
-/

namespace Garbage.Foundation

universe u v

variable {σ : Type u} {ι : Type v}

/-- `I` is kept by the inner steps, and `measure` falls with each of them. -/
structure Draining (M : Machine σ ι) (inner : ι → Prop) (I : σ → Prop) where
  measure : σ → Nat
  keeps : ∀ s a s', I s → inner a → M.next s a = some s' → I s'
  falls : ∀ s a s', I s → inner a → M.next s a = some s' → measure s' < measure s

/-- No inner step can be taken. -/
def Machine.AtRest (M : Machine σ ι) (inner : ι → Prop) (s : σ) : Prop :=
  ∀ a, inner a → M.next s a = none

namespace Draining

variable {M : Machine σ ι} {inner : ι → Prop} {I : σ → Prop}

/-- **A run of inner steps is bounded by the measure of its start.** -/
theorem length_le (D : Draining M inner I) {as : List ι} : ∀ {s s' : σ}, I s → (∀ a ∈ as, inner a) →
    M.run s as = some s' → as.length + D.measure s' ≤ D.measure s := by
  induction as with
  | nil => intro s s' _ _ h; simp [Option.some.inj h]
  | cons a as ih =>
    intro s s' hs hinner h
    obtain ⟨m, hm, hrun⟩ := Option.bind_eq_some_iff.mp h
    have ha := hinner a List.mem_cons_self
    have hfall := D.falls s a m hs ha hm
    have hrest := ih (D.keeps s a m hs ha hm)
      (fun b hb => hinner b (List.mem_cons_of_mem a hb)) hrun
    rw [List.length_cons]
    omega

/-- Inner steps lead to a state at rest. -/
theorem rests (D : Draining M inner I) {s : σ} (hs : I s) : ∃ as s', (∀ a ∈ as, inner a) ∧
    M.run s as = some s' ∧ M.AtRest inner s' := by
  induction h : D.measure s using Nat.strongRecOn generalizing s with
  | ind n ih =>
    by_cases hrest : M.AtRest inner s
    · exact ⟨[], s, by simp, rfl, hrest⟩
    · obtain ⟨a, ha, m, hm⟩ : ∃ a, inner a ∧ ∃ m, M.next s a = some m := by
        simpa [Machine.AtRest, Option.ne_none_iff_exists'] using hrest
      have hfall := D.falls s a m hs ha hm
      obtain ⟨as, s', hinner, hrun, hrest'⟩ := ih _ (h ▸ hfall) (D.keeps s a m hs ha hm) rfl
      exact ⟨a :: as, s', by simpa using ⟨ha, hinner⟩, by simpa [hm] using hrun, hrest'⟩

end Draining

end Garbage.Foundation
