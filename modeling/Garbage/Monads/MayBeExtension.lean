import Mathlib.Data.List.Basic

/-!
# The single element of a sequence

`SingleOrNull` has an overload for classes, whose elements may be null, and one
for structs.  Both remember the element that they have seen in `result` and leave
the loop with null when they meet another one: the struct overload asks whether
`result` has a value, the class overload whether it is null.  So the class overload
forgets the nulls it has seen.

A reference that may be null and a `T?` are an `Option`.
-/

namespace Garbage.Monads.MayBeExtension

variable {α β : Type*}

/-- The loop of both overloads, with what `result = value` assigns. -/
def singleLoop (assigned : β → Option α) : Option α → List β → Option α
  | result, [] => result
  | result, value :: values =>
    if result.isSome then none else singleLoop assigned (assigned value) values

/-- `SingleOrNull<T>(values, RequireClass<T>)` -/
def singleOrNullClass (values : List (Option α)) : Option α := singleLoop id none values

/-- `SingleOrNull<T>(values, RequireStruct<T>)` -/
def singleOrNullStruct (values : List β) : Option β := singleLoop some none values

/-- What the documentation says: the element if there is exactly one. -/
def single : List β → Option β
  | [value] => some value
  | _ => none

/-! ### The loop -/

section Loop

variable {assigned : β → Option α} {value : β} {values : List β}

@[simp] theorem singleLoop_some (a : α) (values : List β) :
    singleLoop assigned (some a) values = if values = [] then some a else none := by
  cases values with
  | nil => rfl
  | cons value values => simp [singleLoop]

/-- An element that leaves `result` null is forgotten. -/
theorem singleLoop_forgets (h : assigned value = none) :
    singleLoop assigned none (value :: values) = singleLoop assigned none values := by
  simp [singleLoop, h]

/-- An element that does not has to be the last. -/
theorem singleLoop_keeps {a : α} (h : assigned value = some a) :
    singleLoop assigned none (value :: values) = if values = [] then some a else none := by
  simp [singleLoop, h]

end Loop

/-! ### The overloads -/

theorem singleOrNullStruct_eq (values : List β) : singleOrNullStruct values = single values := by
  unfold singleOrNullStruct
  cases values with
  | nil => rfl
  | cons value values =>
    rw [singleLoop_keeps rfl]
    cases values <;> simp [single]

/-- The class overload answers with an element exactly where it is the last one and
all the others are null. -/
theorem singleOrNullClass_eq_some {values : List (Option α)} {a : α} :
    singleOrNullClass values = some a ↔ ∃ n, values = List.replicate n none ++ [some a] := by
  unfold singleOrNullClass
  induction values with
  | nil => simp [singleLoop]
  | cons value values ih =>
    cases value with
    | none =>
      rw [singleLoop_forgets rfl, ih]
      constructor
      · intro ⟨n, hn⟩
        exact ⟨n + 1, by simp [hn, List.replicate_succ]⟩
      · intro ⟨n, hn⟩
        cases n with
        | zero => simp at hn
        | succ n => exact ⟨n, by simpa [List.replicate_succ] using hn⟩
    | some b =>
      have hb : id (some b) = some b := rfl
      rw [singleLoop_keeps hb]
      constructor
      · intro h
        obtain ⟨rfl, hb⟩ := Option.ite_none_right_eq_some.mp h
        exact ⟨0, by simpa using hb⟩
      · intro ⟨n, hn⟩
        cases n with
        | zero =>
          obtain ⟨hb, rfl⟩ : some b = some a ∧ values = [] := by simpa using hn
          simpa using hb
        | succ n => simp [List.replicate_succ] at hn

theorem single_join_eq_some {values : List (Option α)} {a : α} :
    (single values).join = some a ↔ values = [some a] := by
  match values with
  | [] => simp [single]
  | [value] => simp [single]
  | _ :: _ :: _ => simp [single]

/-- Nulls, and behind them the one element that is not null. -/
def SingleBehindNulls (values : List (Option α)) : Prop :=
  ∃ n a, values = List.replicate (n + 1) none ++ [some a]

/-- **The struct overload does what it says; the class overload does on every sequence
but those of nulls and one element behind them.**  Only there it does not agree with
the struct overload either. -/
theorem singleOrNull_iff (elements : List β) (values : List (Option α)) :
    singleOrNullStruct elements = single elements ∧
      (singleOrNullClass values = (single values).join ∧
          singleOrNullClass values = (singleOrNullStruct values).join ↔
        ¬ SingleBehindNulls values) := by
  refine ⟨singleOrNullStruct_eq elements, ?_⟩
  rw [singleOrNullStruct_eq, and_self]
  constructor
  · intro h ⟨n, a, hvalues⟩
    have hclass : singleOrNullClass values = some a := singleOrNullClass_eq_some.mpr ⟨_, hvalues⟩
    rw [h, single_join_eq_some, hvalues] at hclass
    simp [List.replicate_succ] at hclass
  · intro h
    apply Option.ext
    intro a
    rw [singleOrNullClass_eq_some, single_join_eq_some]
    constructor
    · intro ⟨n, hn⟩
      cases n with
      | zero => exact hn
      | succ n => exact absurd ⟨n, a, hn⟩ h
    · intro hvalues
      exact ⟨0, hvalues⟩

/-- Two elements, and the answer is the second. -/
theorem singleOrNull_null_first :
    ¬ ∀ values : List (Option Nat), singleOrNullClass values = (single values).join :=
  fun h => absurd (h [none, some 7]) (by decide)

end Garbage.Monads.MayBeExtension
