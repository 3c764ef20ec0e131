import Garbage.LinqKit.Expression
import Mathlib.Logic.Function.Basic

/-!
# The expander

`ExpressionExpander` rebuilds a tree.  Where a lambda is invoked it goes on in the
body of the lambda, with an expander that replaces the parameters by the arguments,
and it puts what a captured variable holds in the place of the variable.  The
arguments of an invocation are not visited: the dictionary gets them as they are.

The recursion does not follow the tree, since a captured expression can mention
the variable that holds it.  `visit` has a bound on the depth, and `none` says
that it was met.
-/

namespace Garbage.LinqKit

inductive Error
  /-- `Unhandled expression type` -/
  | unhandledType
  | invalidCast
  | nullReference
  /-- `Invoke cannot be called recursively - try using a temporary variable.` -/
  | invokedRecursively
  deriving DecidableEq

/-- An object that a constant refers to. -/
structure Object where
  type : TypeInfo
  /-- What `GetValue` of the field finds, if it is an expression. -/
  field : MemberInfo → Option Expression

abbrev Heap := ℕ → Object

/-- `Dictionary<ParameterExpression, Expression>`; `null` is an empty one. -/
abbrev Dictionary := ℕ → Option Expression

def Dictionary.empty : Dictionary := fun _ => none

/-- `replaceVars.Add`, which refuses a key that is there. -/
def Dictionary.add (d : Dictionary) (p : ℕ) (e : Expression) : Option Dictionary :=
  if (d p).isSome then none else some (Function.update d p (some e))

/-- The loop that adds `arguments[i]` under `Parameters[i]`; `none` is an `ArgumentException`. -/
def Dictionary.addArguments : Dictionary → List ℕ → List Expression → Option Dictionary
  | d, [], _ => some d
  | _, _ :: _, [] => none
  | d, p :: ps, argument :: arguments =>
    (d.add p argument).bind fun d' => d'.addArguments ps arguments

/-- What the loop gives for the parameters of a lambda that are not in the dictionary. -/
theorem Dictionary.addArguments_eq {d : Dictionary} {ps : List ℕ} {arguments : List Expression}
    (hps : ps.Nodup) (hd : ∀ p ∈ ps, d p = none) (hlen : arguments.length = ps.length) :
    d.addArguments ps arguments = some fun p => ((ps.zip arguments).lookup p).or (d p) := by
  induction ps generalizing d arguments with
  | nil => simp [addArguments]
  | cons p ps ih =>
    cases arguments with
    | nil => simp at hlen
    | cons argument arguments =>
      obtain ⟨hp, hps⟩ := List.nodup_cons.mp hps
      have hadd : d.add p argument = some (Function.update d p (some argument)) := by
        simp [add, hd p (by simp)]
      have hrest : ∀ q ∈ ps, Function.update d p (some argument) q = none := by
        intro q hq
        rw [Function.update_of_ne (by rintro rfl; exact hp hq)]
        exact hd q (by simp [hq])
      rw [addArguments, hadd, Option.bind_some, ih hps hrest (by simpa using hlen)]
      congr 1
      funext q
      by_cases hq : q = p
      · subst hq
        have hnone : (ps.zip arguments).lookup q = none := by
          rw [List.lookup_eq_none_iff]
          intro x hx
          have := (List.of_mem_zip hx).1
          grind
        simp [hnone]
      · have hqp : (q == p) = false := by simpa using hq
        simp [List.lookup_cons, hqp, Function.update_of_ne hq]

abbrev Visited := ExceptT Error Option

def outOfDepth {α : Type} : Visited α := ExceptT.mk none

namespace ExpressionExpander

/-- The checks of `TransformExpr`: the expression in a captured variable. -/
def captured (heap : Heap) : Expression → Option Expression
  | .node (.memberAccess member) [.constant (some object)] =>
    if member.isFieldInfo && member.reflectedType.isClosure && (heap object).type.isClosure then
      (heap object).field member
    else none
  | _ => none

/-- `if (target is MemberExpression) target = TransformExpr (target)` -/
def transformExpr (heap : Heap) (visit : Expression → Visited Expression) (e : Expression) :
    Visited Expression :=
  match captured heap e with
  | some result => visit result
  | none => pure e

/-- `if (target is ConstantExpression) target = target.Value as Expression` -/
def constantValue : Expression → Expression
  | .quoted value => value
  | .constant _ => .null
  | target => target

/-- `(LambdaExpression)target`, and its `Parameters` and `Body`. -/
def toLambda : Expression → Visited (List ℕ × Expression)
  | .lambda parameters body => pure (parameters, body)
  | .null => throw .nullReference
  | _ => throw .invalidCast

/-- What `VisitInvocation` and the branch for `Invoke` of `VisitMethodCall` do. -/
def invokeLambda (heap : Heap) (visit : Dictionary → Expression → Visited Expression)
    (replaceVars : Dictionary) (target : Expression) (arguments : List Expression) :
    Visited Expression := do
  let target ← transformExpr heap (visit replaceVars) target
  let lambda ← toLambda (constantValue target)
  match replaceVars.addArguments lambda.1 arguments with
  | some replaceVars => visit replaceVars lambda.2
  | none => throw .invokedRecursively

/-- The visits of `base`, which rebuild the node. -/
def visitChildren (visit : Expression → Visited Expression) (head : Head)
    (children : List Expression) : Visited Expression :=
  .node head <$> children.mapM visit

/-- `newExpr != me` holds in the second branch wherever something was captured: what has
a `Compile` is a lambda, and so is the visited one. -/
def visitMethodCall (heap : Heap) (visit : Dictionary → Expression → Visited Expression)
    (replaceVars : Dictionary) (method : MethodInfo) (object : Expression)
    (arguments : List Expression) : Visited Expression :=
  if method.name = .invoke ∧ method.ofExtensions then
    invokeLambda heap visit replaceVars (arguments.headD .null) arguments.tail
  else if method.name = .compile ∧ (captured heap object).isSome then
    transformExpr heap (visit replaceVars) object
  else if method.name = .asExpandable ∧ method.ofExtensions then
    pure (arguments.headD .null)
  else
    visitChildren (visit replaceVars) (.call method) (object :: arguments)

def visitMemberAccess (heap : Heap) (visit : Expression → Visited Expression)
    (member : MemberInfo) (children : List Expression) : Visited Expression :=
  if member.declaringType.startsWithBrackets then
    transformExpr heap visit (.node (.memberAccess member) children)
  else
    visitChildren visit (.memberAccess member) children

/-- `Visit` of an expander with the given dictionary, to a bounded depth. -/
def visit (heap : Heap) : ℕ → Dictionary → Expression → Visited Expression
  | 0, _, _ => outOfDepth
  | _ + 1, _, .null => pure .null
  | _ + 1, replaceVars, .parameter p => pure ((replaceVars p).getD (.parameter p))
  | _ + 1, _, .constant value => pure (.constant value)
  | _ + 1, _, .quoted value => pure (.quoted value)
  | n + 1, replaceVars, .lambda ps body => .lambda ps <$> visit heap n replaceVars body
  | n + 1, replaceVars, .node head children =>
    match head with
    | .unhandled _ => throw .unhandledType
    | .memberAccess member => visitMemberAccess heap (visit heap n replaceVars) member children
    | .call method =>
      visitMethodCall heap (visit heap n) replaceVars method (children.headD .null) children.tail
    | .invoke =>
      invokeLambda heap (visit heap n) replaceVars (children.headD .null) children.tail
    | head => visitChildren (visit heap n replaceVars) head children

end ExpressionExpander

/-- `Extensions.Expand` -/
def expand (heap : Heap) (n : ℕ) (e : Expression) : Visited Expression :=
  ExpressionExpander.visit heap n Dictionary.empty e

end Garbage.LinqKit
