import Garbage.LinqKit.Meaning
import Mathlib.Data.List.Forall2

/-!
# Queries

The queries that a compiler makes: what is invoked is a captured variable that holds
a closed lambda, and the captured expressions do not mention each other in a cycle.
`Levels` gives the captured expressions a rank, and each parameter the rank of the
expression with its lambda.

`Query heap levels r k e` is a query whose captured expressions have ranks below `r`,
with invocations nested to the depth `k` in the arguments of invocations.  With
`k = 0` there is nothing to expand: the expander only replaces parameters.  The
arguments of an invocation mention parameters of the query itself only.  From a type
with a name in brackets, also an anonymous one, no member is taken of anything with a
parameter in it, because there the expander leaves the parameter as it is.

Only lambdas are captured, and in the body of one no invocation stands in the arguments
of another (`Levels.Fits`).  So a captured `f.Compose (g)` is left out: where that is
invoked, its parameter goes unreplaced into the argument of `g`.
-/

namespace Garbage.LinqKit

open ExpressionExpander

structure Levels where
  rank : Expression → ℕ
  owner : ℕ → ℕ

/-- A node that the expander rebuilds from its children. -/
def Inert (heap : Heap) : Head → List Expression → Prop
  | .unhandled _, _ => False
  | .invoke, _ => False
  | .memberAccess m, _ => ¬ m.declaringType.startsWithBrackets ∧ ¬ m.reflectedType.isClosure
  | .call _, [] => False
  | .call m, object :: _ =>
    ¬ (m.ofExtensions ∧ (m.name = .invoke ∨ m.name = .asExpandable)) ∧
      (m.name = .compile → captured heap object = none)
  | _, _ => True

/-- A captured lambda of a lower rank, and arguments for its parameters. -/
structure Invocable (heap : Heap) (levels : Levels) (r : ℕ) (target : Expression)
    (arguments : List Expression) : Prop where
  target : ∃ ps body, captured heap target = some (.lambda ps body) ∧
    levels.rank (.lambda ps body) < r ∧ arguments.length = ps.length
  free : ∀ argument ∈ arguments, ∀ q ∈ argument.free, r ≤ levels.owner q

inductive Query (heap : Heap) (levels : Levels) (r : ℕ) : ℕ → Expression → Prop
  | null {k} : Query heap levels r k .null
  | parameter {k p} : Query heap levels r k (.parameter p)
  | constant {k value} : Query heap levels r k (.constant value)
  | quoted {k value} : Query heap levels r k (.quoted value)
  | lambda {k ps body} : Query heap levels r k body → Query heap levels r k (.lambda ps body)
  | node {k head children} : Inert heap head children →
      (∀ c ∈ children, Query heap levels r k c) → Query heap levels r k (.node head children)
  /-- A member that is left as it is. -/
  | member {k m children} : m.declaringType.startsWithBrackets →
      captured heap (.node (.memberAccess m) children) = none →
      (∀ c ∈ children, c.free = [] ∧ c.bound = []) →
      (∀ c ∈ children, Query heap levels r 0 c) →
      Query heap levels r k (.node (.memberAccess m) children)
  | capturedVariable {k m children F} : m.declaringType.startsWithBrackets →
      captured heap (.node (.memberAccess m) children) = some F → levels.rank F < r →
      Query heap levels r (k + 1) (.node (.memberAccess m) children)
  | compile {k ofExtensions id object arguments F} : captured heap object = some F →
      levels.rank F < r →
      Query heap levels r (k + 1)
        (.node (.call ⟨.compile, ofExtensions, id⟩) (object :: arguments))
  | asExpandable {k id object query} : Query heap levels r k query →
      Query heap levels r (k + 1) (.node (.call (asExpandableMethod id)) [object, query])
  | invocation {k target arguments} : Invocable heap levels r target arguments →
      (∀ a ∈ arguments, Query heap levels r k a) →
      Query heap levels r (k + 1) (.node .invoke (target :: arguments))
  | invokeCall {k id object target arguments} : Invocable heap levels r target arguments →
      (∀ a ∈ arguments, Query heap levels r k a) →
      Query heap levels r (k + 1)
        (.node (.call (invokeMethod id)) (object :: target :: arguments))

/-- What is asked of a captured expression. -/
structure Levels.Fits (levels : Levels) (heap : Heap) (ps : List ℕ) (body : Expression) : Prop where
  nodup : ps.Nodup
  closed : ∀ q ∈ body.free, q ∈ ps
  owner : ∀ p ∈ ps, levels.owner p = levels.rank (.lambda ps body)
  owner_bound : ∀ q ∈ body.bound, levels.owner q ≤ levels.rank (.lambda ps body)
  distinct : ∀ p ∈ ps, p ∉ body.bound
  query : Query heap levels (levels.rank (.lambda ps body)) 1 body

def Levels.FitsAll (levels : Levels) (heap : Heap) : Prop :=
  ∀ e F, captured heap e = some F → ∃ ps body, F = .lambda ps body ∧ levels.Fits heap ps body

/-- A captured variable means what it holds. -/
def Provider.Faithful {V : Type*} (P : Provider V) (heap : Heap) : Prop :=
  ∀ e F, captured heap e = some F → ∀ env, e.meaning P env = F.meaning P fun _ => P.unbound

variable {heap : Heap} {levels : Levels} {r r' k : ℕ} {e : Expression} {d : Dictionary}

/-! ### Nodes -/

theorem captured_eq_some {F : Expression} (h : captured heap e = some F) :
    ∃ m object, e = .node (.memberAccess m) [.constant (some object)] ∧
      m.reflectedType.isClosure ∧ (heap object).field m = some F := by
  unfold captured at h
  split at h
  · rename_i m object
    exact ⟨m, object, rfl, by grind⟩
  · cases h

theorem free_of_captured {F : Expression} (h : captured heap e = some F) : e.free = [] := by
  obtain ⟨m, object, rfl, -⟩ := captured_eq_some h
  rfl

namespace Query

/-- An expression that a variable holds is found only at a level above 0. -/
theorem of_captured {F : Expression} (h : Query heap levels r k e) (hF : captured heap e = some F) :
    k ≠ 0 ∧ levels.rank F < r := by
  obtain ⟨m, object, rfl, hm, -⟩ := captured_eq_some hF
  cases h with
  | node hinert => exact absurd hm hinert.2
  | member _ hnone => simp [hnone] at hF
  | capturedVariable _ hF' hrank =>
    rw [hF'] at hF
    cases hF
    exact ⟨by omega, hrank⟩

/-- At the level 0 the ranks do not matter, and the level can be raised. -/
theorem of_settled {j : ℕ} (h : Query heap levels r j e) (hj : j = 0) (r' k : ℕ) :
    Query heap levels r' k e := by
  induction h generalizing k with
  | null => exact .null
  | parameter => exact .parameter
  | constant => exact .constant
  | quoted => exact .quoted
  | lambda _ ih => exact .lambda (ih hj k)
  | node hinert _ ih => exact .node hinert fun c hc => ih c hc hj k
  | member hm hnone hclosed _ ih => exact .member hm hnone hclosed fun c hc => ih c hc rfl 0
  | _ => omega

/-- A node that is inert with some children is a query with any other queries, as long as
there are as many. -/
theorem rebuild {head : Head} {children children' : List Expression}
    (h : Inert heap head children) (hlen : children'.length = children.length)
    (hc : ∀ c ∈ children', Query heap levels r k c) :
    Query heap levels r k (.node head children') := by
  cases head with
  | call m =>
    cases children with
    | nil => exact h.elim
    | cons object arguments =>
      obtain ⟨object', arguments', rfl⟩ : ∃ o as, children' = o :: as := by
        cases children' with
        | nil => simp at hlen
        | cons o as => exact ⟨o, as, rfl⟩
      -- what has become of the object may be captured, and then the node is expanded
      cases hF : captured heap object' with
      | none => exact .node ⟨h.1, fun _ => hF⟩ hc
      | some F =>
        obtain ⟨hk, hrank⟩ := (hc object' (by simp)).of_captured hF
        by_cases hm : m.name = .compile
        · obtain ⟨name, ofExtensions, id⟩ := m
          obtain ⟨k, rfl⟩ := Nat.exists_eq_succ_of_ne_zero hk
          have hm : name = .compile := hm
          subst hm
          exact .compile hF hrank
        · exact .node ⟨h.1, fun hm' => absurd hm' hm⟩ hc
  | unhandled | invoke => exact h.elim
  | _ => exact .node h hc

theorem replace (h : Query heap levels r 0 e)
    (hd : ∀ p x, d p = some x → Query heap levels r' k x) :
    Query heap levels r' k (e.replace d) := by
  generalize hj : 0 = j at h
  induction h with
  | null => exact .null
  | @parameter _ p =>
    cases hp : d p with
    | none => simpa [Expression.replace, hp] using .parameter
    | some x => simpa [Expression.replace, hp] using hd p x hp
  | constant => exact .constant
  | quoted => exact .quoted
  | lambda _ ih => exact .lambda (ih hj)
  | @node _ head children hinert _ ih =>
    rw [Expression.replace, Expression.replaceList_eq]
    refine rebuild hinert (by simp) ?_
    intro c' hc'
    obtain ⟨c, hc, rfl⟩ := List.mem_map.mp hc'
    exact ih c hc hj
  | @member _ m children hm hnone hclosed hc _ =>
    rw [Expression.replace, Expression.replaceList_eq, Expression.map_replace_of_closed hclosed]
    exact .member hm hnone hclosed fun c hc' => (hc c hc').of_settled rfl r' 0
  | _ => omega

end Query

/-! ### What the visitor returns -/

/-- The visitor returns `e'`, and raises nothing, if the depth is large enough. -/
def Visits (heap : Heap) (d : Dictionary) (e e' : Expression) : Prop :=
  ∃ N, ∀ n, N ≤ n → visit heap n d e = pure e'

/-- A visit of one level more. -/
theorem Visits.succ {e' : Expression} (h : ∃ N, ∀ n, N ≤ n → visit heap (n + 1) d e = pure e') :
    Visits heap d e e' := by
  obtain ⟨N, h⟩ := h
  refine ⟨N + 1, fun n hn => ?_⟩
  obtain ⟨n, rfl⟩ := Nat.exists_eq_add_of_le' hn
  exact h (n + N) (by omega)

theorem Visits.lambda {ps : List ℕ} {body body' : Expression} (h : Visits heap d body body') :
    Visits heap d (.lambda ps body) (.lambda ps body') := by
  obtain ⟨N, h⟩ := h
  exact .succ ⟨N, fun n hn => by rw [visit, h n hn]; rfl⟩

/-- The children are visited one after the other. -/
theorem Visits.mapM {children children' : List Expression}
    (h : List.Forall₂ (Visits heap d) children children') :
    ∃ N, ∀ n, N ≤ n → children.mapM (visit heap n d) = pure children' := by
  induction h with
  | nil => exact ⟨0, fun _ _ => by simp⟩
  | cons hc _ ih =>
    obtain ⟨N₁, h₁⟩ := hc
    obtain ⟨N₂, h₂⟩ := ih
    refine ⟨max N₁ N₂, fun n hn => ?_⟩
    rw [List.mapM_cons, h₁ n (by omega), pure_bind, h₂ n (by omega), pure_bind]

theorem exists_forall₂ {R : Expression → Expression → Prop} {children : List Expression}
    (h : ∀ c ∈ children, ∃ c', R c c') : ∃ children', List.Forall₂ R children children' := by
  induction children with
  | nil => exact ⟨[], .nil⟩
  | cons c children ih =>
    obtain ⟨c', hc⟩ := h c (by simp)
    obtain ⟨children', hs⟩ := ih fun x hx => h x (by simp [hx])
    exact ⟨c' :: children', .cons hc hs⟩

theorem visit_inert {head : Head} {children : List Expression} (h : Inert heap head children)
    (n : ℕ) : visit heap (n + 1) d (.node head children) =
      visitChildren (visit heap n d) head children := by
  cases head with
  | call m =>
    cases children with
    | nil => exact h.elim
    | cons object arguments =>
      obtain ⟨hext, hcompile⟩ := h
      have h₁ : ¬ (m.name = .invoke ∧ m.ofExtensions) := fun h => hext ⟨h.2, .inl h.1⟩
      have h₂ : ¬ (m.name = .compile ∧ (captured heap object).isSome) := by
        intro h
        simp [hcompile h.1] at h
      have h₃ : ¬ (m.name = .asExpandable ∧ m.ofExtensions) := fun h => hext ⟨h.2, .inr h.1⟩
      simp only [visit, List.headD_cons, List.tail_cons, visitMethodCall, if_neg h₁, if_neg h₂,
        if_neg h₃]
  | memberAccess m => simp [visit, visitMemberAccess, h.1]
  | unhandled | invoke => exact h.elim
  | _ => rfl

theorem Visits.node {head : Head} {children children' : List Expression}
    (hinert : Inert heap head children)
    (h : List.Forall₂ (Visits heap d) children children') :
    Visits heap d (.node head children) (.node head children') := by
  obtain ⟨N, h⟩ := Visits.mapM h
  exact .succ ⟨N, fun n hn => by rw [visit_inert hinert, visitChildren, h n hn]; rfl⟩

/-- In a settled query the expander replaces parameters, and does nothing else. -/
theorem Query.visits_replace (h : Query heap levels r 0 e) : Visits heap d e (e.replace d) := by
  generalize hj : 0 = j at h
  induction h with
  | null | parameter | constant | quoted => exact .succ ⟨0, fun _ _ => rfl⟩
  | lambda _ ih => exact (ih hj).lambda
  | @node _ head children hinert _ ih =>
    rw [Expression.replace, Expression.replaceList_eq]
    refine .node hinert (List.forall₂_map_right_iff.mpr ?_)
    exact List.forall₂_same.mpr fun c hc => ih c hc hj
  | @member _ m children hm hnone hclosed _ _ =>
    rw [Expression.replace, Expression.replaceList_eq, Expression.map_replace_of_closed hclosed]
    exact .succ ⟨0, fun n _ => by simp [visit, visitMemberAccess, hm, transformExpr, hnone]⟩
  | _ => omega

end Garbage.LinqKit
