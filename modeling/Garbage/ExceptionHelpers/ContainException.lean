import Mathlib.Order.Basic

/-!
# Looking for an exception inside of others

`ContainException` looks for the exceptions whose run-time type is a given one: in
an exception, in its `InnerException` and so on, and in the `InnerExceptions` of an
`AggregateException`, the first of which is its `InnerException` too.

It filters the `InnerExceptions` with a test of its own result for null.  A sequence
is never null, so the filter keeps all of them, of whatever type, and looks at none.
The members agree with what they look for exactly where this does no harm: **the way
down the `InnerException`s comes first to the type, or to an aggregate all of whose
`InnerExceptions` have it, or to its end** (`containException_iff`).
-/

namespace Garbage.ExceptionHelpers

/-- An exception with its run-time type. -/
inductive Exn (τ : Type)
  | plain (type : τ) (innerException : Option (Exn τ))
  /-- `AggregateException`, or a class derived from it -/
  | aggregate (type : τ) (innerExceptions : List (Exn τ))

namespace Exn

variable {τ : Type}

/-- `GetType` -/
def type : Exn τ → τ
  | plain type _ => type
  | aggregate type _ => type

def innerExceptions : Exn τ → List (Exn τ)
  | plain _ _ => []
  | aggregate _ innerExceptions => innerExceptions

/-- `InnerException`; that of an aggregate is the first of its `InnerExceptions`. -/
def innerException : Exn τ → Option (Exn τ)
  | plain _ innerException => innerException
  | aggregate _ innerExceptions => innerExceptions.head?

inductive Occurs : Exn τ → Exn τ → Prop
  | here (e : Exn τ) : Occurs e e
  | inner {x e i : Exn τ} : e.innerException = some i → Occurs x i → Occurs x e
  | aggregated {x e i : Exn τ} : i ∈ e.innerExceptions → Occurs x i → Occurs x e

theorem inner_induction {P : Exn τ → Prop}
    (h : ∀ e, (∀ i, e.innerException = some i → P i) → P e) : ∀ e, P e
  | plain t none => h _ nofun
  | plain t (some i) => h _ fun j hj => by
    cases hj
    exact inner_induction h i
  | aggregate t [] => h _ nofun
  | aggregate t (i :: es) => h _ fun j hj => by
    cases hj
    exact inner_induction h i

end Exn

open Exn

variable {τ : Type}

/-! ### The search -/

/-- `sequence != null` -/
def notNull (_ : List (Exn τ)) : Bool := true

section Search

variable [DecidableEq τ] (type : τ)

mutual

def containException : Exn τ → List (Exn τ)
  | .plain t innerException =>
    if t = type then [.plain t innerException]
    else containInner innerException ++ []
  | .aggregate t innerExceptions =>
    if t = type then [.aggregate t innerExceptions]
    else containFirst innerExceptions ++ whereContain innerExceptions

/-- `ContainException(exception.InnerException, type)` -/
def containInner : Option (Exn τ) → List (Exn τ)
  | none => []
  | some e => containException e

/-- The same of an aggregate. -/
def containFirst : List (Exn τ) → List (Exn τ)
  | [] => []
  | e :: _ => containException e

/-- `InnerExceptions.Where(_ => ContainException(_, type) != null)` -/
def whereContain : List (Exn τ) → List (Exn τ)
  | [] => []
  | e :: es => if notNull (containException e) then e :: whereContain es else whereContain es

end

/-- `ContainException(Exception exception, Type type)` -/
def containExceptionOf (exception : Option (Exn τ)) : List (Exn τ) := containInner type exception

/-- `_ as TException`: null (`none`) where the type of `_` is another one and not
derived from it. -/
def asException (derived : τ → τ → Bool) (e : Exn τ) : Option (Exn τ) :=
  if e.type = type ∨ derived e.type type then some e else none

/-- `ContainException<TException>(Exception exception)` -/
def containExceptionList (derived : τ → τ → Bool) (exception : Option (Exn τ)) :
    List (Option (Exn τ)) :=
  (containExceptionOf type exception).map (asException type derived)

end Search

section Equations

variable [DecidableEq τ] {type : τ} {e : Exn τ}

theorem containException_of_type (h : e.type = type) : containException type e = [e] := by
  cases e with
  | plain t innerException => exact if_pos h
  | aggregate t innerExceptions => exact if_pos h

theorem containFirst_eq (es : List (Exn τ)) :
    containFirst type es = containInner type es.head? := by
  cases es <;> rfl

theorem whereContain_eq (es : List (Exn τ)) : whereContain type es = es := by
  induction es with
  | nil => rfl
  | cons e es ih =>
    rw [whereContain, ih]
    rfl

/-- An exception of another type gives what its `InnerException` gives, and its
`InnerExceptions`. -/
theorem containException_of_ne (h : e.type ≠ type) :
    containException type e = containInner type e.innerException ++ e.innerExceptions := by
  cases e with
  | plain t innerException => exact if_neg h
  | aggregate t innerExceptions =>
    have ht : t ≠ type := h
    rw [containException, if_neg ht, containFirst_eq, whereContain_eq]
    rfl

theorem mem_containException {x : Exn τ} :
    x ∈ containException type e ↔ e.type = type ∧ x = e ∨
      e.type ≠ type ∧ (x ∈ containInner type e.innerException ∨ x ∈ e.innerExceptions) := by
  by_cases h : e.type = type
  · simp [containException_of_type h, h]
  · simp [containException_of_ne h, h]

theorem mem_containInner {x : Exn τ} {exception : Option (Exn τ)} :
    x ∈ containInner type exception ↔ ∃ i, exception = some i ∧ x ∈ containException type i := by
  cases exception with
  | none => simp [containInner]
  | some i => simp [containInner]

end Equations

/-! ### What is found -/

/-- Down the `InnerException`s one comes first to the type, to an aggregate all of
whose `InnerExceptions` have it, or to the end. -/
inductive Fits (type : τ) : Exn τ → Prop
  | found {e : Exn τ} : e.type = type → Fits type e
  | aggregate {t : τ} {es : List (Exn τ)} : (∀ i ∈ es, i.type = type) → Fits type (.aggregate t es)
  | inner {t : τ} {i : Exn τ} : Fits type i → Fits type (.plain t (some i))
  | last {t : τ} : Fits type (.plain t none)

section Finds

variable [DecidableEq τ] {type : τ}

theorem occurs_of_mem (e : Exn τ) : ∀ x ∈ containException type e, Occurs x e := by
  induction e using inner_induction with
  | h e ih =>
    intro x hx
    rcases mem_containException.mp hx with ⟨-, rfl⟩ | ⟨-, hx | hx⟩
    · exact .here x
    · obtain ⟨i, hi, hx⟩ := mem_containInner.mp hx
      exact .inner hi (ih i hi x hx)
    · exact .aggregated hx (.here x)

/-- If only the type is found the way down was right. -/
theorem fits_of_type_eq (e : Exn τ) (h : ∀ x ∈ containException type e, x.type = type) :
    Fits type e := by
  induction e using inner_induction with
  | h e ih =>
    by_cases ht : e.type = type
    · exact .found ht
    rw [containException_of_ne ht] at h
    cases e with
    | plain t innerException =>
      cases innerException with
      | none => exact .last
      | some i =>
        refine .inner (ih i rfl fun x hx => h x ?_)
        exact List.mem_append_left _ hx
    | aggregate t es => exact .aggregate fun i hi => h i (List.mem_append_right _ hi)

namespace Fits

variable {e : Exn τ}

/-- On the right way down only the type is found. -/
theorem type_eq (h : Fits type e) : ∀ x ∈ containException type e, x.type = type := by
  induction h with
  | found ht =>
    intro x hx
    rw [containException_of_type ht, List.mem_singleton] at hx
    exact hx ▸ ht
  | @aggregate t es hes =>
    intro x hx
    rcases mem_containException.mp hx with ⟨ht, rfl⟩ | ⟨-, hx | hx⟩
    · exact ht
    · obtain ⟨i, hi, hx⟩ := mem_containInner.mp hx
      have htype : i.type = type := hes i (List.mem_of_head? hi)
      rw [containException_of_type htype, List.mem_singleton] at hx
      exact hx ▸ htype
    · exact hes x hx
  | @inner t i _ ih =>
    intro x hx
    rcases mem_containException.mp hx with ⟨ht, rfl⟩ | ⟨-, hx | hx⟩
    · exact ht
    · exact ih x hx
    · simp [innerExceptions] at hx
  | last =>
    intro x hx
    rcases mem_containException.mp hx with ⟨ht, rfl⟩ | ⟨-, hx | hx⟩
    · exact ht
    · simp [innerException, containInner] at hx
    · simp [innerExceptions] at hx

/-- On the right way down the type is found if the tree has it. -/
theorem ne_nil (h : Fits type e) {x : Exn τ} (hx : Occurs x e) (ht : x.type = type) :
    containException type e ≠ [] := by
  by_cases he : e.type = type
  · simp [containException_of_type he]
  induction h with
  | found he' => exact absurd he' he
  | @aggregate t es hes =>
    rw [containException_of_ne he]
    cases es with
    | nil =>
      cases hx with
      | here => exact absurd ht he
      | inner hi _ => simp [innerException] at hi
      | aggregated hi _ => simp [innerExceptions] at hi
    | cons i es => simp [innerExceptions]
  | @inner t i h ih =>
    rw [containException_of_ne he]
    cases hx with
    | here => exact absurd ht he
    | inner hi hx =>
      cases hi
      have hne : containException type i ≠ [] := by
        by_cases hit : i.type = type
        · simp [containException_of_type hit]
        · exact ih hx hit
      simpa [innerException, innerExceptions, containInner] using hne
    | aggregated hi _ => simp [innerExceptions] at hi
  | last =>
    cases hx with
    | here => exact absurd ht he
    | inner hi _ => simp [innerException] at hi
    | aggregated hi _ => simp [innerExceptions] at hi

end Fits

structure Finds (type : τ) (derived : τ → τ → Bool) (exception : Option (Exn τ)) : Prop where
  matching : ∀ x ∈ containExceptionOf type exception,
    x.type = type ∧ ∃ e, exception = some e ∧ Occurs x e
  found : containExceptionOf type exception ≠ [] ↔
    ∃ e, exception = some e ∧ ∃ x, Occurs x e ∧ x.type = type
  noNull : none ∉ containExceptionList type derived exception

/-- **The members find exactly what matches where the way down is right**, and nowhere
else. -/
theorem containException_iff (derived : τ → τ → Bool) (exception : Option (Exn τ)) :
    Finds type derived exception ↔ ∀ e, exception = some e → Fits type e := by
  constructor
  · intro h e he
    subst he
    exact fits_of_type_eq e fun x hx => (h.matching x hx).1
  intro h
  cases exception with
  | none => exact ⟨nofun, by simp [containExceptionOf, containInner], nofun⟩
  | some e =>
    have hfits : Fits type e := h e rfl
    refine ⟨?matching, ?found, ?noNull⟩
    case matching => exact fun x hx => ⟨hfits.type_eq x hx, e, rfl, occurs_of_mem e x hx⟩
    case found =>
      constructor
      · intro hne
        obtain ⟨x, hx⟩ := List.exists_mem_of_ne_nil _ hne
        exact ⟨e, rfl, x, occurs_of_mem e x hx, hfits.type_eq x hx⟩
      · intro ⟨e', he', x, hx, ht⟩
        cases he'
        exact hfits.ne_nil hx ht
    case noNull =>
      intro hnone
      obtain ⟨x, hx, hcast⟩ := List.mem_map.mp hnone
      simp [asException, hfits.type_eq x hx] at hcast

theorem containException_other_type :
    ¬ ∀ (type : Nat) (derived : Nat → Nat → Bool) (exception : Option (Exn Nat)),
      Finds type derived exception := by
  intro h
  have hnull := (h 1 (fun _ _ => false) (some (.aggregate 0 [.plain 2 none]))).noNull
  exact hnull (List.mem_singleton.mpr rfl)

end Finds

end Garbage.ExceptionHelpers
