import Mathlib.Data.List.Basic

/-!
# Expression trees

The trees that the visitor walks.  A parameter is a reference, and so are the
methods, types and constructors that a node holds beside its children: they are
numbers here.  The children of a node stand in the order in which the visitor
visits them; an object, a target or a conversion that is not there is `null`.
The bindings and the element initializers of an initialization are nodes too.

A constant holds null, a reference to an object, or an expression (`quoted`).
-/

namespace Garbage.LinqKit

/-- What is asked of a type: whether its name starts with `<>`, and `IsNestedPrivate`. -/
structure TypeInfo where
  startsWithBrackets : Bool
  isNestedPrivate : Bool
  deriving DecidableEq

/-- The type of an object that the compiler makes for captured variables. -/
def TypeInfo.isClosure (t : TypeInfo) : Bool := t.isNestedPrivate && t.startsWithBrackets

structure MemberInfo where
  isFieldInfo : Bool
  declaringType : TypeInfo
  reflectedType : TypeInfo
  id : ℕ
  deriving DecidableEq

inductive MethodName
  | invoke
  | compile
  | asExpandable
  | other
  deriving DecidableEq

structure MethodInfo where
  name : MethodName
  /-- `DeclaringType == typeof (Extensions)` -/
  ofExtensions : Bool
  id : ℕ
  deriving DecidableEq

inductive UnaryType
  | negate | negateChecked | not | convert | convertChecked | arrayLength | quote | typeAs
  deriving DecidableEq

inductive BinaryType
  | add | addChecked | subtract | subtractChecked | multiply | multiplyChecked | divide
  | modulo | and | andAlso | or | orElse | lessThan | lessThanOrEqual | greaterThan
  | greaterThanOrEqual | equal | notEqual | coalesce | arrayIndex | rightShift | leftShift
  | exclusiveOr
  deriving DecidableEq

/-- A node without its children. -/
inductive Head
  | unary (nodeType : UnaryType) (type method : ℕ)
  | binary (nodeType : BinaryType) (isLiftedToNull : Bool) (method : ℕ)
  | typeIs (typeOperand : ℕ)
  | conditional
  | memberAccess (member : MemberInfo)
  | call (method : MethodInfo)
  | invoke
  | new (constructor : ℕ)
  | newArrayInit (elementType : ℕ)
  | newArrayBounds (elementType : ℕ)
  | memberInit
  | listInit
  | memberAssignment (member : ℕ)
  | memberMemberBinding (member : ℕ)
  | memberListBinding (member : ℕ)
  | elementInit (addMethod : ℕ)
  /-- A node type that `Visit` does not know. -/
  | unhandled (nodeType : ℕ)
  deriving DecidableEq

inductive Expression
  | null
  | parameter (p : ℕ)
  | constant (value : Option ℕ)
  | quoted (value : Expression)
  | lambda (parameters : List ℕ) (body : Expression)
  | node (head : Head) (children : List Expression)

namespace Expression

/-- Induction over a tree, with the children of a node together. -/
@[elab_as_elim]
theorem tree_induction {motive : Expression → Prop} (null : motive null)
    (parameter : ∀ p, motive (parameter p)) (constant : ∀ value, motive (constant value))
    (quoted : ∀ value, motive value → motive (quoted value))
    (lambda : ∀ ps body, motive body → motive (lambda ps body))
    (node : ∀ head children, (∀ c ∈ children, motive c) → motive (node head children))
    (e : Expression) : motive e := by
  refine @Expression.rec motive (fun cs => ∀ c ∈ cs, motive c) null parameter constant quoted
    lambda node ?_ ?_ e
  · simp
  · intro c cs hc hcs
    simpa using ⟨hc, hcs⟩

end Expression
end Garbage.LinqKit
