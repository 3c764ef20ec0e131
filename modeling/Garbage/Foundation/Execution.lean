import Garbage.Foundation.Prog

/-!
# Programs that fail and clean up

An `Execution` is the data of a program, the number of exceptions that propagate
(`std::uncaught_exceptions()`), and when the next one is thrown: with
`failAt = some k` the operations that may throw succeed `k` times and the next
one throws, with `none` none of them does.  So a program is run once for each
point at which it can fail.

`scopeExit x handler` runs the handler however `x` is left, and a handler that
throws while `x` is unwound is `std::terminate`, which is `stuck`.  `whenUnwinding`
is the test `if(std::uncaught_exception())`, which cannot tell an exception of `x`
from one that was there before.  `onUnwind` is the destructor of a local object
that is moved from at the end of its scope.

`Continues t t'` and `Raised t t'` say what a run does to the exceptions if it
returns and if it throws.
-/

namespace Garbage.Foundation

universe u

/-- The data of a program, its propagating exceptions, and how many operations
succeed until one throws. -/
structure Execution (σ : Type u) where
  uncaught : Nat
  failAt : Option Nat
  data : σ

namespace Execution

open Prog

variable {σ τ ε β : Type u}

/-- The same execution with other data. -/
def withData (t : Execution τ) (d : σ) : Execution σ :=
  { uncaught := t.uncaught, failAt := t.failAt, data := d }

@[simp] theorem withData_uncaught (t : Execution τ) (d : σ) :
    (t.withData d).uncaught = t.uncaught := rfl

@[simp] theorem withData_failAt (t : Execution τ) (d : σ) :
    (t.withData d).failAt = t.failAt := rfl

@[simp] theorem withData_data (t : Execution τ) (d : σ) : (t.withData d).data = d := rfl

@[simp] theorem withData_withData {ρ : Type u} (t : Execution τ) (d : σ) (d' : ρ) :
    (t.withData d).withData d' = t.withData d' := rfl

@[simp] theorem withData_self (t : Execution σ) : t.withData t.data = t := rfl

/-- An operation that may throw `e`. -/
def mayThrow (e : ε) : Prog (Execution σ) ε PUnit := fun t =>
  match t.failAt with
  | none => some (.ok PUnit.unit, t)
  | some 0 => some (.error e, { t with uncaught := t.uncaught + 1, failAt := none })
  | some (k + 1) => some (.ok PUnit.unit, { t with failAt := some k })

/-- A program on the data, which throws nothing of its own. -/
def within (x : Prog σ ε β) : Prog (Execution σ) ε β := zoom data withData x

/-- Run the handler however `x` is left. -/
def scopeExit (x : Prog (Execution σ) ε β) (handler : Prog (Execution σ) ε PUnit) :
    Prog (Execution σ) ε β := fun t =>
  match x t with
  | none => none
  | some (.ok b, t') =>
    match handler t' with
    | none => none
    | some (.ok _, t'') => some (.ok b, t'')
    | some (.error e, t'') => some (.error e, t'')
  | some (.error e, t') =>
    match handler t' with
    | some (.ok _, t'') => some (.error e, t'')
    | _ => none

/-- Run the handler if `x` throws. -/
def onUnwind (x : Prog (Execution σ) ε β) (handler : Prog (Execution σ) ε PUnit) :
    Prog (Execution σ) ε β := fun t =>
  match x t with
  | some (.error e, t') =>
    match handler t' with
    | some (.ok _, t'') => some (.error e, t'')
    | _ => none
  | r => r

/-- `if(std::uncaught_exception())`. -/
def whenUnwinding (x : Prog (Execution σ) ε PUnit) : Prog (Execution σ) ε PUnit := fun t =>
  if 0 < t.uncaught then x t else some (.ok PUnit.unit, t)

/-! ### Local variables -/

/-- A program with a local variable. -/
def withLocal (init : τ) (x : Prog (Execution (σ × τ)) ε β) : Prog (Execution σ) ε β := fun t =>
  match x (t.withData (t.data, init)) with
  | none => none
  | some (r, t') => some (r, t'.withData t'.data.1)

/-- A program that does not use the local variable. -/
def outer (x : Prog (Execution σ) ε β) : Prog (Execution (σ × τ)) ε β :=
  zoom (fun t => t.withData t.data.1) (fun t t' => t'.withData (t'.data, t.data.2)) x

/-- The value of the local variable. -/
def getLocal : Prog (Execution (σ × τ)) ε τ := fun t => some (.ok t.data.2, t)

def setLocal (v : τ) : Prog (Execution (σ × τ)) ε PUnit := fun t =>
  some (.ok PUnit.unit, t.withData (t.data.1, v))

/-- The execution after `n` operations that may throw and did not. -/
def passed (t : Execution σ) (n : Nat) : Execution σ :=
  { t with failAt := t.failAt.map (· - n) }

/-- The execution after an operation that threw. -/
def thrown (t : Execution σ) : Execution σ :=
  { t with uncaught := t.uncaught + 1, failAt := none }

@[simp] theorem passed_uncaught (t : Execution σ) (n : Nat) :
    (t.passed n).uncaught = t.uncaught := rfl

@[simp] theorem passed_failAt (t : Execution σ) (n : Nat) :
    (t.passed n).failAt = t.failAt.map (· - n) := rfl

@[simp] theorem passed_data (t : Execution σ) (n : Nat) : (t.passed n).data = t.data := rfl

@[simp] theorem thrown_uncaught (t : Execution σ) : t.thrown.uncaught = t.uncaught + 1 := rfl

@[simp] theorem thrown_data (t : Execution σ) : t.thrown.data = t.data := rfl

/-- One program on the data after the other. -/
theorem within_bind {γ : Type u} (x : Prog σ ε β) (f : β → Prog σ ε γ) :
    within (x >>= f) = within x >>= fun b => within (f b) := by
  funext t
  show zoom data withData (Prog.andThen x f) t = Prog.andThen (zoom data withData x) _ t
  unfold zoom Prog.andThen
  dsimp only
  cases x t.data with
  | none => rfl
  | some r => obtain ⟨r | b, d⟩ := r <;> rfl

/-! ### What a run does to the exceptions -/

/-- The run returned: no exception came or went, and one that was to come still is. -/
structure Continues (t : Execution σ) (t' : Execution τ) : Prop where
  uncaught : t'.uncaught = t.uncaught
  failAt : t'.failAt = none ↔ t.failAt = none

structure Raised (t : Execution σ) (t' : Execution τ) : Prop where
  uncaught : t'.uncaught = t.uncaught + 1
  failAt : t.failAt ≠ none

/-- The run returned, after `n` operations that may throw and did not. -/
structure Passes (n : Nat) (t : Execution σ) (t' : Execution τ) : Prop where
  uncaught : t'.uncaught = t.uncaught
  failAt : t'.failAt = t.failAt.map (· - n)

section Exceptions

variable {ρ : Type u} {t : Execution σ} {t' : Execution τ} {t'' : Execution ρ}

theorem Continues.refl (t : Execution σ) : Continues t t := ⟨rfl, Iff.rfl⟩

theorem Continues.trans (h : Continues t t') (h' : Continues t' t'') : Continues t t'' :=
  ⟨h'.uncaught.trans h.uncaught, h'.failAt.trans h.failAt⟩

theorem Continues.raised (h : Continues t t') (h' : Raised t' t'') : Raised t t'' :=
  ⟨h'.uncaught.trans (congrArg (· + 1) h.uncaught), fun hn => h'.failAt (h.failAt.mpr hn)⟩

/-- A run that could not throw and left the data left everything. -/
theorem Continues.eq_of_data {t t' : Execution σ} (h : Continues t t') (hf : t.failAt = none)
    (hdata : t'.data = t.data) : t' = t := by
  obtain ⟨u, f, d⟩ := t
  obtain ⟨u', f', d'⟩ := t'
  obtain ⟨rfl, hfail⟩ := h
  obtain rfl : d' = d := hdata
  obtain rfl : f = none := hf
  obtain rfl : f' = none := hfail.mpr rfl
  rfl

theorem continues_passed (t : Execution σ) (n : Nat) : Continues t (t.passed n) :=
  ⟨rfl, Option.map_eq_none_iff⟩

theorem passes_passed (t : Execution σ) (n : Nat) : Passes n t (t.passed n) := ⟨rfl, rfl⟩

theorem Passes.trans {n m : Nat} (h : Passes n t t') (h' : Passes m t' t'') :
    Passes (n + m) t t'' := by
  refine ⟨h'.uncaught.trans h.uncaught, ?_⟩
  rw [h'.failAt, h.failAt, Option.map_map]
  congr 1
  funext k
  exact Nat.sub_sub k n m

theorem Passes.continues {n : Nat} (h : Passes n t t') : Continues t t' :=
  ⟨h.uncaught, by rw [h.failAt, Option.map_eq_none_iff]⟩

/-- Which operation throws, counted from after some that did not. -/
theorem Passes.failAt_iff {n : Nat} (h : Passes n t t') (hn : ∀ i < n, t.failAt ≠ some i)
    (k : Nat) : t'.failAt = some k ↔ t.failAt = some (k + n) := by
  rw [h.failAt]
  cases hf : t.failAt with
  | none => simp
  | some i =>
    have hi : n ≤ i := Nat.le_of_not_lt fun hlt => hn i hlt hf
    simp only [Option.map_some, Option.some.injEq]
    omega

theorem Passes.failAt_iff_one (h : Passes 1 t t') (h0 : t.failAt ≠ some 0) (k : Nat) :
    t'.failAt = some k ↔ t.failAt = some (k + 1) :=
  h.failAt_iff (fun _ hi => Nat.lt_one_iff.mp hi ▸ h0) k

theorem thrown_raised (h : t.failAt ≠ none) : Raised t t.thrown := ⟨rfl, h⟩

@[simp] theorem passes_withData_right {n : Nat} (d : ρ) :
    Passes n t (t'.withData d) ↔ Passes n t t' := ⟨fun h => ⟨h.1, h.2⟩, fun h => ⟨h.1, h.2⟩⟩

@[simp] theorem passes_withData_left {n : Nat} (d : ρ) :
    Passes n (t.withData d) t' ↔ Passes n t t' := ⟨fun h => ⟨h.1, h.2⟩, fun h => ⟨h.1, h.2⟩⟩

/-- The handler of an exception. -/
theorem Raised.continues (h : Raised t t') (h' : Continues t' t'') : Raised t t'' :=
  ⟨h'.uncaught.trans h.uncaught, h.failAt⟩

@[simp] theorem continues_withData_right (d : ρ) :
    Continues t (t'.withData d) ↔ Continues t t' := ⟨fun h => ⟨h.1, h.2⟩, fun h => ⟨h.1, h.2⟩⟩

@[simp] theorem continues_withData_left (d : ρ) :
    Continues (t.withData d) t' ↔ Continues t t' := ⟨fun h => ⟨h.1, h.2⟩, fun h => ⟨h.1, h.2⟩⟩

@[simp] theorem raised_withData_right (d : ρ) :
    Raised t (t'.withData d) ↔ Raised t t' := ⟨fun h => ⟨h.1, h.2⟩, fun h => ⟨h.1, h.2⟩⟩

@[simp] theorem raised_withData_left (d : ρ) :
    Raised (t.withData d) t' ↔ Raised t t' := ⟨fun h => ⟨h.1, h.2⟩, fun h => ⟨h.1, h.2⟩⟩

end Exceptions

/-! ### The weakest precondition -/

section Wp

variable {t : Execution σ} {Q : β → Execution σ → Prop} {E : ε → Execution σ → Prop}

/-- An operation that may throw throws where it is the next one to throw. -/
theorem wp_mayThrow_iff {e : ε} {Q : PUnit → Execution σ → Prop} :
    wp (mayThrow e) Q E t ↔ (t.failAt = some 0 → E e t.thrown) ∧
      (t.failAt ≠ some 0 → Q PUnit.unit (t.passed 1)) := by
  obtain ⟨u, f, d⟩ := t
  match f with
  | none => exact ⟨fun h => ⟨nofun, fun _ => h⟩, fun h => h.2 nofun⟩
  | some 0 => exact ⟨fun h => ⟨fun _ => h, fun hne => (hne rfl).elim⟩, fun h => h.1 rfl⟩
  | some (k + 1) => exact ⟨fun h => ⟨nofun, fun _ => h⟩, fun h => h.2 nofun⟩

theorem wp_mayThrow_of_none {e : ε} {Q : PUnit → Execution σ → Prop} (hf : t.failAt = none) :
    wp (mayThrow e) Q E t ↔ Q PUnit.unit t := by
  obtain ⟨u, f, d⟩ := t
  obtain rfl : f = none := hf
  exact Iff.rfl

/-- An operation that may throw returns or throws, and leaves the data. -/
theorem wp_mayThrow {e : ε} {Q : PUnit → Execution σ → Prop}
    (hQ : ∀ t', Continues t t' → t'.data = t.data → Q PUnit.unit t')
    (hE : ∀ t', Raised t t' → t'.data = t.data → E e t') : wp (mayThrow e) Q E t := by
  rw [wp_mayThrow_iff]
  refine ⟨fun hf => hE _ ⟨rfl, ?_⟩ rfl, fun _ => hQ _ (continues_passed t 1) rfl⟩
  rw [hf]
  exact nofun

@[simp] theorem wp_within (x : Prog σ ε β) :
    wp (within x) Q E t ↔
      wp x (fun b d => Q b (t.withData d)) (fun e d => E e (t.withData d)) t.data :=
  wp_zoom ..

/-- Two programs that go on alike from every result of a program on the data. -/
theorem within_bind_eq_of_wp {γ : Type u} {x : Prog σ ε β} {f g : β → Prog (Execution σ) ε γ}
    {Q : β → σ → Prop} {E : ε → σ → Prop} (hx : wp x Q E t.data)
    (hfg : ∀ b d, Q b d → f b (t.withData d) = g b (t.withData d)) :
    (within x >>= f) t = (within x >>= g) t := by
  refine bind_eq_of_wp (Q := fun b t' => ∃ d, t' = t.withData d ∧ Q b d) (E := fun _ _ => True)
    ((wp_within x).mpr (wp_mono (fun b d h => ⟨d, rfl, h⟩) (fun _ _ _ => trivial) hx)) ?_
  rintro b t' ⟨d, rfl, h⟩
  exact hfg b d h

@[simp] theorem wp_scopeExit (x : Prog (Execution σ) ε β) (handler : Prog (Execution σ) ε PUnit) :
    wp (scopeExit x handler) Q E t ↔
      wp x (fun b t' => wp handler (fun _ t'' => Q b t'') E t')
        (fun e t' => wp handler (fun _ t'' => E e t'') (fun _ _ => False) t') t := by
  unfold wp scopeExit
  cases x t with
  | none => exact Iff.rfl
  | some r =>
    obtain ⟨r | b, t'⟩ := r
    all_goals
      dsimp only
      cases handler t' with
      | none => exact Iff.rfl
      | some r' => obtain ⟨r' | b', t''⟩ := r' <;> exact Iff.rfl

@[simp] theorem wp_onUnwind (x : Prog (Execution σ) ε β) (handler : Prog (Execution σ) ε PUnit) :
    wp (onUnwind x handler) Q E t ↔
      wp x Q (fun e t' => wp handler (fun _ t'' => E e t'') (fun _ _ => False) t') t := by
  unfold wp onUnwind
  cases x t with
  | none => exact Iff.rfl
  | some r =>
    obtain ⟨r | b, t'⟩ := r
    · dsimp only
      cases handler t' with
      | none => exact Iff.rfl
      | some r' => obtain ⟨r' | b', t''⟩ := r' <;> exact Iff.rfl
    · exact Iff.rfl

@[simp] theorem wp_whenUnwinding (x : Prog (Execution σ) ε PUnit)
    {Q : PUnit → Execution σ → Prop} :
    wp (whenUnwinding x) Q E t ↔
      (0 < t.uncaught → wp x Q E t) ∧ (t.uncaught = 0 → Q PUnit.unit t) := by
  unfold wp whenUnwinding
  by_cases h : 0 < t.uncaught
  · simp [h, Nat.ne_of_gt h]
  · simp [Nat.eq_zero_of_not_pos h]

@[simp] theorem wp_withLocal (init : τ) (x : Prog (Execution (σ × τ)) ε β) :
    wp (withLocal init x) Q E t ↔
      wp x (fun b t' => Q b (t'.withData t'.data.1)) (fun e t' => E e (t'.withData t'.data.1))
        (t.withData (t.data, init)) := by
  unfold wp withLocal
  cases x (t.withData (t.data, init)) with
  | none => exact Iff.rfl
  | some r => obtain ⟨r | b, t'⟩ := r <;> exact Iff.rfl

end Wp

section Local

variable {t : Execution (σ × τ)} {Q : β → Execution (σ × τ) → Prop}
  {E : ε → Execution (σ × τ) → Prop}

@[simp] theorem wp_outer (x : Prog (Execution σ) ε β) :
    wp (outer x) Q E t ↔
      wp x (fun b t' => Q b (t'.withData (t'.data, t.data.2)))
        (fun e t' => E e (t'.withData (t'.data, t.data.2))) (t.withData t.data.1) :=
  wp_zoom ..

@[simp] theorem wp_getLocal {Q : τ → Execution (σ × τ) → Prop} :
    wp (getLocal : Prog (Execution (σ × τ)) ε τ) Q E t ↔ Q t.data.2 t := Iff.rfl

@[simp] theorem wp_setLocal (v : τ) {Q : PUnit → Execution (σ × τ) → Prop} :
    wp (setLocal v : Prog (Execution (σ × τ)) ε PUnit) Q E t ↔
      Q PUnit.unit (t.withData (t.data.1, v)) := Iff.rfl

end Local

end Execution

end Garbage.Foundation
