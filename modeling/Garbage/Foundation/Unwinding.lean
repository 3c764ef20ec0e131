import Mathlib.Order.Basic

/-!
# Exceptions and stack unwinding

`Code σ` is what a piece of a C++ program does to its thread: it ends normally
or leaves with an exception, and `none` is `std::terminate`.  `uncaught` is
`std::uncaught_exceptions()`, the number of exceptions that propagate: a throw
adds one, the entry of a handler takes one away, and a destructor that runs
while its scope is unwound runs in between.

`Ends x t Q` says how the code can end from `t`, if it does not terminate the
program.  Code is `Balanced` if it leaves the number as it was, and one more if
it leaves with an exception.  It is `Within R` if its data before and after are
in the relation `R`.  All combinators keep both, the second one for a relation
that is reflexive and transitive.
-/

namespace Garbage.Foundation.Unwinding

structure Thread (σ : Type) where
  uncaught : Nat
  data : σ
  deriving DecidableEq

inductive Exit
  | normal
  | raised
  deriving DecidableEq

/-- The exceptions that an exit adds to those that propagate. -/
def Exit.count : Exit → Nat
  | .normal => 0
  | .raised => 1

def Code (σ : Type) : Type := Thread σ → Option (Exit × Thread σ)

namespace Code

variable {σ : Type}

def skip : Code σ := fun t => some (.normal, t)

/-- The exception propagates from here. -/
def throw_ : Code σ := fun t => some (.raised, { t with uncaught := t.uncaught + 1 })

def effect (f : σ → σ) : Code σ := fun t => some (.normal, { t with data := f t.data })

def andThen (x y : Code σ) : Code σ := fun t =>
  match x t with
  | some (.normal, t') => y t'
  | r => r

/-- A handler for the exceptions that it catches.  Its entry ends the propagation. -/
def tryCatch (catches : σ → Bool) (x handler : Code σ) : Code σ := fun t =>
  match x t with
  | some (.raised, t') =>
    if catches t'.data then handler { t' with uncaught := t'.uncaught - 1 }
    else some (.raised, t')
  | r => r

/-- A function declared `noexcept`. -/
def nothrow (x : Code σ) : Code σ := fun t =>
  match x t with
  | some (.raised, _) => none
  | r => r

/-- The scope `x` of an object with a destructor, which must not throw while the
scope is unwound.  The destructor is given how the scope was left. -/
def scope (x : Code σ) (destructor : Exit → Code σ) : Code σ := fun t =>
  match x t with
  | some (.normal, t') => destructor .normal t'
  | some (.raised, t') =>
    match destructor .raised t' with
    | some (.normal, t'') => some (.raised, t'')
    | _ => none
  | none => none

/-- The code, and what an observer notes in the data about its end. -/
def observed (x : Code σ) (note : Exit → σ → σ) : Code σ := fun t =>
  match x t with
  | some (e, t') => some (e, { t' with data := note e t'.data })
  | none => none

/-! ### How code can end -/

/-- If the code does not terminate the program, it ends so. -/
def Ends (x : Code σ) (t : Thread σ) (Q : Exit → Thread σ → Prop) : Prop :=
  ∀ e t', x t = some (e, t') → Q e t'

variable {x y handler : Code σ} {destructor : Exit → Code σ} {catches : σ → Bool} {f : σ → σ}
  {t : Thread σ} {Q R : Exit → Thread σ → Prop}

theorem Ends.mono (h : Ends x t Q) (hQR : ∀ e t', Q e t' → R e t') : Ends x t R :=
  fun e t' he => hQR e t' (h e t' he)

theorem Ends.congr (h : Ends y t Q) (hxy : x t = y t) : Ends x t Q :=
  fun e t' he => h e t' (hxy.symm.trans he)

theorem ends_skip (h : Q .normal t) : Ends skip t Q := by
  intro e t' he
  cases he
  exact h

theorem ends_throw (h : Q .raised { t with uncaught := t.uncaught + 1 }) : Ends throw_ t Q := by
  intro e t' he
  cases he
  exact h

theorem ends_effect (h : Q .normal { t with data := f t.data }) : Ends (effect f) t Q := by
  intro e t' he
  cases he
  exact h

theorem ends_andThen (hx : Ends x t fun
    | .normal, t' => Ends y t' Q
    | .raised, t' => Q .raised t') : Ends (x.andThen y) t Q := by
  intro e t' he
  unfold andThen at he
  match hr : x t with
  | none => rw [hr] at he; exact nomatch he
  | some (.normal, t₁) => rw [hr] at he; exact hx _ _ hr _ _ he
  | some (.raised, t₁) => rw [hr] at he; cases he; exact hx _ _ hr

theorem ends_tryCatch (hx : Ends x t fun
    | .normal, t' => Q .normal t'
    | .raised, t' => if catches t'.data then Ends handler { t' with uncaught := t'.uncaught - 1 } Q
      else Q .raised t') : Ends (tryCatch catches x handler) t Q := by
  intro e t' he
  unfold tryCatch at he
  match hr : x t with
  | none => rw [hr] at he; exact nomatch he
  | some (.normal, t₁) => rw [hr] at he; cases he; exact hx _ _ hr
  | some (.raised, t₁) =>
    rw [hr] at he
    have hraised := hx _ _ hr
    dsimp only at he hraised
    by_cases hc : catches t₁.data = true
    · rw [if_pos hc] at he hraised
      exact hraised _ _ he
    · rw [if_neg hc] at he hraised
      cases he
      exact hraised

theorem ends_nothrow (hx : Ends x t fun
    | .normal, t' => Q .normal t'
    | .raised, _ => True) : Ends (nothrow x) t Q := by
  intro e t' he
  unfold nothrow at he
  match hr : x t with
  | none => rw [hr] at he; exact nomatch he
  | some (.normal, t₁) => rw [hr] at he; cases he; exact hx _ _ hr
  | some (.raised, t₁) => rw [hr] at he; exact nomatch he

theorem ends_scope (hx : Ends x t fun
    | .normal, t' => Ends (destructor .normal) t' Q
    | .raised, t' => Ends (destructor .raised) t' fun
      | .normal, t'' => Q .raised t''
      | .raised, _ => True) : Ends (scope x destructor) t Q := by
  intro e t' he
  unfold scope at he
  match hr : x t with
  | none => rw [hr] at he; exact nomatch he
  | some (.normal, t₁) => rw [hr] at he; exact hx _ _ hr _ _ he
  | some (.raised, t₁) =>
    rw [hr] at he
    dsimp only at he
    match hd : destructor .raised t₁ with
    | none => rw [hd] at he; exact nomatch he
    | some (.normal, t₂) => rw [hd] at he; cases he; exact hx _ _ hr _ _ hd
    | some (.raised, t₂) => rw [hd] at he; exact nomatch he

theorem ends_observed {note : Exit → σ → σ}
    (hx : Ends x t fun e t' => Q e { t' with data := note e t'.data }) :
    Ends (observed x note) t Q := by
  intro e t' he
  unfold observed at he
  match hr : x t with
  | none => rw [hr] at he; exact nomatch he
  | some (e₁, t₁) => rw [hr] at he; cases he; exact hx _ _ hr

/-! ### The number of propagating exceptions -/

/-- The code leaves the number as it was, plus one for its own exception. -/
def Balanced (x : Code σ) : Prop :=
  ∀ t, Ends x t fun e t' => t'.uncaught = t.uncaught + e.count

theorem balanced_skip : Balanced (skip : Code σ) := fun _ => ends_skip rfl

theorem balanced_throw : Balanced (throw_ : Code σ) := fun _ => ends_throw rfl

theorem balanced_effect : Balanced (effect f) := fun _ => ends_effect rfl

theorem Balanced.andThen (hx : Balanced x) (hy : Balanced y) : Balanced (x.andThen y) := by
  intro t
  refine ends_andThen ((hx t).mono fun e t' ht' => ?_)
  cases e with
  | normal => exact (hy t').mono fun e t'' ht'' => ht''.trans (congrArg (· + e.count) ht')
  | raised => exact ht'

theorem Balanced.tryCatch (hx : Balanced x) (hh : Balanced handler) :
    Balanced (tryCatch catches x handler) := by
  intro t
  refine ends_tryCatch ((hx t).mono fun e t' ht' => ?_)
  cases e with
  | normal => exact ht'
  | raised =>
    have hentry : t'.uncaught - 1 = t.uncaught := Nat.sub_eq_of_eq_add ht'
    dsimp only
    split
    · exact (hh _).mono fun e t'' ht'' => ht''.trans (congrArg (· + e.count) hentry)
    · exact ht'

theorem Balanced.nothrow (hx : Balanced x) : Balanced (nothrow x) := by
  intro t
  refine ends_nothrow ((hx t).mono fun e t' ht' => ?_)
  cases e with
  | normal => exact ht'
  | raised => trivial

theorem Balanced.scope (hx : Balanced x) (hd : ∀ e, Balanced (destructor e)) :
    Balanced (scope x destructor) := by
  intro t
  refine ends_scope ((hx t).mono fun e t' ht' => ?_)
  cases e with
  | normal => exact (hd _ t').mono fun e t'' ht'' => ht''.trans (congrArg (· + e.count) ht')
  | raised =>
    refine (hd _ t').mono fun e t'' ht'' => ?_
    cases e with
    | normal => exact ht''.trans ht'
    | raised => trivial

theorem Balanced.observed {note : Exit → σ → σ} (hx : Balanced x) : Balanced (observed x note) :=
  fun t => ends_observed (hx t)

/-! ### What the code does to the data -/

/-- The data after the code are related to the data before it. -/
def Within (R : σ → σ → Prop) (x : Code σ) : Prop := ∀ t, Ends x t fun _ t' => R t.data t'.data

section Within

variable {R : σ → σ → Prop}

theorem within_effect (hf : ∀ d, R d (f d)) : Within R (effect f) :=
  fun t => ends_effect (hf t.data)

theorem within_throw [Std.Refl R] : Within R (throw_ : Code σ) :=
  fun t => ends_throw (Std.Refl.refl t.data)

theorem Within.nothrow (hx : Within R x) : Within R (nothrow x) := by
  intro t
  refine ends_nothrow ((hx t).mono fun e t' ht' => ?_)
  cases e with
  | normal => exact ht'
  | raised => trivial

variable [IsTrans σ R]

theorem Within.andThen (hx : Within R x) (hy : Within R y) : Within R (x.andThen y) := by
  intro t
  refine ends_andThen ((hx t).mono fun e t' ht' => ?_)
  cases e with
  | normal => exact (hy t').mono fun _ t'' ht'' => IsTrans.trans _ _ _ ht' ht''
  | raised => exact ht'

theorem Within.tryCatch (hx : Within R x) (hh : Within R handler) :
    Within R (tryCatch catches x handler) := by
  intro t
  refine ends_tryCatch ((hx t).mono fun e t' ht' => ?_)
  cases e with
  | normal => exact ht'
  | raised =>
    dsimp only
    split
    · exact (hh _).mono fun _ t'' ht'' => IsTrans.trans _ _ _ ht' ht''
    · exact ht'

theorem Within.scope (hx : Within R x) (hd : ∀ e, Within R (destructor e)) :
    Within R (scope x destructor) := by
  intro t
  refine ends_scope ((hx t).mono fun e t' ht' => ?_)
  cases e with
  | normal => exact (hd _ t').mono fun _ t'' ht'' => IsTrans.trans _ _ _ ht' ht''
  | raised =>
    refine (hd _ t').mono fun e t'' ht'' => ?_
    cases e with
    | normal => exact IsTrans.trans (r := R) _ _ _ ht' ht''
    | raised => trivial

end Within

end Code

end Garbage.Foundation.Unwinding
