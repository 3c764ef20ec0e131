import Garbage.Foundation.Machine
import Mathlib.Data.List.Basic

/-!
# Conveyors

A `Conveyor` is a part of the state of a machine in which items wait in a row.
Each step puts some of them behind the row and takes some from its front.  Over a
whole run what was put in is what was taken out and then what still waits
(`Conveyor.run`), so that nothing is lost, doubled or overtaken.

`log` collects what the steps of a run say, one after the other.
-/

namespace Garbage.Foundation

universe u v w

variable {σ : Type u} {ι : Type v} {α : Type w}

/-- What the steps of a run say. -/
def Machine.log (M : Machine σ ι) (say : σ → ι → List α) : σ → List ι → List α
  | _, [] => []
  | s, a :: as => say s a ++ (M.next s a).elim [] fun s' => log M say s' as

/-- Items that wait in a row; `put` and `take` are what a step adds and removes. -/
structure Conveyor (M : Machine σ ι) (α : Type w) where
  items : σ → List α
  put : σ → ι → List α
  take : σ → ι → List α
  step : ∀ s a s', M.next s a = some s' → items s ++ put s a = take s a ++ items s'

namespace Machine

variable {M : Machine σ ι}

@[simp] theorem log_nil (say : σ → ι → List α) (s : σ) : M.log say s [] = [] := rfl

theorem log_cons {say : σ → ι → List α} {s s' : σ} {a : ι} (h : M.next s a = some s')
    (as : List ι) : M.log say s (a :: as) = say s a ++ M.log say s' as := by
  simp [log, h]

/-- A function of what is said, item by item. -/
theorem log_flatMap {β : Type*} (say : σ → ι → List α) (f : α → List β) (as : List ι) :
    ∀ s : σ, M.log (fun s a => (say s a).flatMap f) s as = (M.log say s as).flatMap f := by
  induction as with
  | nil => intro s; rfl
  | cons a as ih =>
    intro s
    cases h : M.next s a with
    | none => simp [log, h]
    | some s' => rw [log_cons h, log_cons h, ih, List.flatMap_append]

end Machine

namespace Conveyor

variable {M : Machine σ ι} (C : Conveyor M α)

/-- **What was put in is what was taken out, and behind it what waits.** -/
theorem run {as : List ι} : ∀ {s s' : σ}, M.run s as = some s' →
    C.items s ++ M.log C.put s as = M.log C.take s as ++ C.items s' := by
  induction as with
  | nil =>
    intro s s' h
    obtain rfl : s = s' := by simpa using h
    simp
  | cons a as ih =>
    intro s s' h
    obtain ⟨m, hm, hrun⟩ := Option.bind_eq_some_iff.mp h
    calc C.items s ++ M.log C.put s (a :: as)
        = (C.items s ++ C.put s a) ++ M.log C.put m as := by
          rw [Machine.log_cons hm, List.append_assoc]
      _ = C.take s a ++ (C.items m ++ M.log C.put m as) := by
          rw [C.step s a m hm, List.append_assoc]
      _ = C.take s a ++ (M.log C.take m as ++ C.items s') := by rw [ih hrun]
      _ = M.log C.take s (a :: as) ++ C.items s' := by
          rw [Machine.log_cons hm, List.append_assoc]

/-- Nothing waits at the start. -/
theorem run_empty {s s' : σ} {as : List ι} (hs : C.items s = []) (h : M.run s as = some s') :
    M.log C.put s as = M.log C.take s as ++ C.items s' := by
  simpa [hs] using C.run h

end Conveyor

end Garbage.Foundation
