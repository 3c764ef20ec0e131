import Garbage.LinqKit.Query

/-!
# Predicates

`And` and `Or` keep the body of the left predicate and invoke the right one with the
parameter of the left one.  `Expand` takes that parameter over as it is.  So where the
right operand is itself made by `And` or `Or`, what is invoked in it gets a parameter
that has been replaced around it, and the result mentions a parameter of which there
is no lambda any more.

A `Plan` says how the calls nest.  It is `Sound` if nothing but predicates that ignore
their parameter stands to the right within a right operand.

The predicates of a plan have different parameters, since `Expand` throws where a
parameter is replaced twice, as in `a.And (b.Or (b))`.  They are closed, with nothing to
expand in them (`Proper`).
-/

namespace Garbage.LinqKit

open ExpressionExpander

/-- `Expression<Func<T, bool>>` -/
structure Predicate where
  parameter : ℕ
  body : Expression

def Predicate.toExpression (q : Predicate) : Expression := .lambda [q.parameter] q.body

namespace PredicateBuilder

/-- The lambda that both functions make, with `OrElse` or with `AndAlso`. -/
def combine (nodeType : BinaryType) (expr1 expr2 : Predicate) : Predicate where
  parameter := expr1.parameter
  body := .node (.binary nodeType false 0)
    [expr1.body, .node .invoke [expr2.toExpression, .parameter expr1.parameter], .null]

def or (expr1 expr2 : Predicate) : Predicate := combine .orElse expr1 expr2

def and (expr1 expr2 : Predicate) : Predicate := combine .andAlso expr1 expr2

end PredicateBuilder

/-- Which predicates are combined, and how.  `nodeType` is `orElse` or `andAlso`. -/
inductive Plan
  | leaf (q : Predicate)
  | combine (nodeType : BinaryType) (left right : Plan)

namespace Plan

def and (left right : Plan) : Plan := combine .andAlso left right

def or (left right : Plan) : Plan := combine .orElse left right

def build : Plan → Predicate
  | leaf q => q
  | combine nodeType left right => PredicateBuilder.combine nodeType left.build right.build

/-- The parameters of the predicates; the first one is that of the result. -/
def parameters : Plan → List ℕ
  | leaf q => [q.parameter]
  | combine _ left right => left.parameters ++ right.parameters

def leaves : Plan → List Predicate
  | leaf q => [q]
  | combine _ left right => left.leaves ++ right.leaves

/-- The value of the plan for an element. -/
def eval {V : Type*} (P : Provider V) (element : V) : Plan → V
  | leaf q => q.body.meaning P (P.bind (fun _ => P.unbound) [q.parameter] [element])
  | combine nodeType left right =>
    P.node (.binary nodeType false 0) [left.eval P element, right.eval P element, P.null]

/-- No predicate looks at its parameter. -/
def Ignored : Plan → Prop
  | leaf q => q.parameter ∉ q.body.free
  | combine _ left right => left.Ignored ∧ right.Ignored

/-- A right operand that `Expand` can deal with. -/
def Operand : Plan → Prop
  | leaf _ => True
  | combine _ left right => left.Operand ∧ right.Ignored

def Sound : Plan → Prop
  | leaf _ => True
  | combine _ left right => left.Sound ∧ right.Operand

def expanded (d : Dictionary) : Plan → Expression
  | leaf q => q.body.replace d
  | combine nodeType left right => .node (.binary nodeType false 0)
      [left.expanded d, right.expanded
        (Function.update d right.build.parameter (some (.parameter left.build.parameter))), .null]

/-- The predicates are closed and settled, and no lambda in them binds one of `ps`. -/
structure Proper (heap : Heap) (ps : List ℕ) (plan : Plan) : Prop where
  settled : ∀ q ∈ plan.leaves, ∀ levels, Query heap levels 0 0 q.body
  closed : ∀ q ∈ plan.leaves, ∀ p ∈ q.body.free, p = q.parameter
  fresh : ∀ q ∈ plan.leaves, ∀ p ∈ q.body.bound, p ∉ ps

variable {heap : Heap} {plan left right : Plan} {ps : List ℕ} {d : Dictionary}
  {nodeType : BinaryType}

theorem Proper.of_left (h : Proper heap ps (combine nodeType left right)) : Proper heap ps left :=
  ⟨fun q hq => h.settled q (by simp [leaves, hq]), fun q hq => h.closed q (by simp [leaves, hq]),
    fun q hq => h.fresh q (by simp [leaves, hq])⟩

theorem Proper.of_right (h : Proper heap ps (combine nodeType left right)) : Proper heap ps right :=
  ⟨fun q hq => h.settled q (by simp [leaves, hq]), fun q hq => h.closed q (by simp [leaves, hq]),
    fun q hq => h.fresh q (by simp [leaves, hq])⟩

@[simp] theorem build_combine_parameter :
    (combine nodeType left right).build.parameter = left.build.parameter := rfl

@[simp] theorem build_parameter_mem (plan : Plan) : plan.build.parameter ∈ plan.parameters := by
  induction plan with
  | leaf q => simp [build, parameters]
  | combine _ left right ihl _ =>
    simpa [parameters] using .inl ihl

/-- What the dictionary holds while a part of the plan is visited: parameters of the plan for
parameters of the plan, and nothing for the parameters still to come. -/
structure Fits (ps : List ℕ) (plan : Plan) (d : Dictionary) : Prop where
  key : ∀ p x, d p = some x → p ∈ ps ∧ ∃ q ∈ ps, x = .parameter q
  new : ∀ p ∈ plan.parameters, p ≠ plan.build.parameter → d p = none
  nodup : plan.parameters.Nodup
  subset : ∀ p ∈ plan.parameters, p ∈ ps

theorem Fits.of_left (h : Fits ps (combine nodeType left right) d) : Fits ps left d where
  key := h.key
  new p hp hne := h.new p (by simp [parameters, hp]) hne
  nodup := (List.nodup_append.mp h.nodup).1
  subset p hp := h.subset p (by simp [parameters, hp])

theorem Fits.ne (h : Fits ps (combine nodeType left right) d) {p : ℕ} (hp : p ∈ right.parameters) :
    p ≠ left.build.parameter := by
  rintro rfl
  exact (List.nodup_append.mp h.nodup).2.2 _ (build_parameter_mem left) _ hp rfl

theorem Fits.of_right (h : Fits ps (combine nodeType left right) d) : Fits ps right
    (Function.update d right.build.parameter (some (.parameter left.build.parameter))) where
  key p x hx := by
    by_cases hp : p = right.build.parameter
    · subst hp
      rw [Function.update_self] at hx
      cases hx
      exact ⟨h.subset _ (by simp [parameters]), _, h.subset _ (by simp [parameters]), rfl⟩
    · rw [Function.update_of_ne hp] at hx
      exact h.key p x hx
  new p hp hne := by
    rw [Function.update_of_ne hne]
    exact h.new p (by simp [parameters, hp]) (h.ne hp)
  nodup := (List.nodup_append.mp h.nodup).2.1
  subset p hp := h.subset p (by simp [parameters, hp])

/-- The invocation of a lambda that is there, with the parameter as it is. -/
theorem visits_invoke {q : Predicate} {v : ℕ} {body' : Expression} (hd : d q.parameter = none)
    (h : Visits heap (Function.update d q.parameter (some (.parameter v))) q.body body') :
    Visits heap d (.node .invoke [q.toExpression, .parameter v]) body' := by
  obtain ⟨N, h⟩ := h
  refine .succ ⟨N, fun n hn => ?_⟩
  have hadd : d.addArguments [q.parameter] [.parameter v] =
      some (Function.update d q.parameter (some (.parameter v))) := by
    simp [Dictionary.addArguments, Dictionary.add, hd]
  simp only [visit, invokeLambda, List.headD_cons, List.tail_cons, Predicate.toExpression,
    transformExpr, captured, pure_bind, constantValue, toLambda, hadd, h n hn]

theorem visits_build (hproper : Proper heap ps plan) (hd : Fits ps plan d) :
    Visits heap d plan.build.body (plan.expanded d) := by
  induction plan generalizing d with
  | leaf q => exact (hproper.settled q (by simp [leaves]) ⟨fun _ => 0, fun _ => 0⟩).visits_replace
  | combine nodeType left right ihl ihr =>
    have hleft := ihl hproper.of_left hd.of_left
    have hright := ihr hproper.of_right hd.of_right
    have hnone : d right.build.parameter = none := by
      refine hd.new _ (by simp [parameters]) ?_
      exact hd.ne (build_parameter_mem right)
    refine .node trivial (.cons hleft (.cons (visits_invoke hnone hright) (.cons ?_ .nil)))
    exact .succ ⟨0, fun _ _ => rfl⟩

/-! ### The parameters of the result -/

theorem Fits.noCapture {q : Predicate} (h : Fits ps plan d) (hproper : Proper heap ps plan)
    (hq : q ∈ plan.leaves) : q.body.NoCapture d := by
  intro p hp
  have hps := hproper.fresh q hq p hp
  constructor
  · cases hd : d p with
    | none => rfl
    | some x => exact absurd (h.key p x hd).1 hps
  · intro p' x hx hpx
    obtain ⟨-, v, hv, rfl⟩ := h.key p' x hx
    obtain rfl : p = v := by simpa [Expression.free] using hpx
    exact hps hv

/-- What is left of a predicate whose parameter has become `v`. -/
theorem free_replace_leaf {q : Predicate} {v : ℕ} (hc : q.body.NoCapture d)
    (hclosed : ∀ p ∈ q.body.free, p = q.parameter)
    (hv : (d q.parameter).getD (.parameter q.parameter) = .parameter v) (p : ℕ) :
    p ∈ (q.body.replace d).free ↔ p = v ∧ q.parameter ∈ q.body.free := by
  constructor
  · intro hp
    obtain ⟨p', hp', hpv⟩ := Expression.mem_free_replace hc hp
    obtain rfl := hclosed p' hp'
    exact ⟨by simpa [hv, Expression.free] using hpv, hp'⟩
  · rintro ⟨rfl, hmem⟩
    exact Expression.mem_free_replace_of hc hmem (by simp [hv, Expression.free])

theorem mem_free_expanded {p : ℕ} :
    p ∈ ((combine nodeType left right).expanded d).free ↔ p ∈ (left.expanded d).free ∨
      p ∈ (right.expanded (Function.update d right.build.parameter
        (some (.parameter left.build.parameter)))).free := by
  simp [expanded, Expression.free]

/-- An operand with a parameter that stands for another one than `t` has to ignore it. -/
theorem ignored_iff {t v : ℕ} (hproper : Proper heap ps plan) (hd : Fits ps plan d)
    (ht : t ∉ plan.parameters) (hv : d plan.build.parameter = some (.parameter v)) (hvt : v ≠ t) :
    (∀ p ∈ (plan.expanded d).free, p = t) ↔ plan.Ignored := by
  induction plan generalizing d v with
  | leaf q =>
    have hleaf := free_replace_leaf (hd.noCapture hproper (by simp [leaves]))
      (hproper.closed q (by simp [leaves])) (show (d q.parameter).getD _ = .parameter v from
        by rw [show d q.parameter = _ from hv]; rfl)
    simp only [expanded, hleaf, Ignored, and_imp, forall_eq]
    exact ⟨fun h hq => hvt (h hq), fun h hq => absurd hq h⟩
  | combine nodeType left right ihl ihr =>
    obtain ⟨htl, htr⟩ : t ∉ left.parameters ∧ t ∉ right.parameters := by
      simpa [parameters] using ht
    have hne : left.build.parameter ≠ t := fun h => htl (h ▸ build_parameter_mem left)
    have hl := ihl hproper.of_left hd.of_left htl hv hvt
    have hr := ihr hproper.of_right hd.of_right htr (Function.update_self ..) hne
    simp only [mem_free_expanded, or_imp, forall_and, hl, hr, Ignored]

/-- An operand of which the parameter stands for `t`. -/
theorem operand_iff {t : ℕ} (hproper : Proper heap ps plan) (hd : Fits ps plan d)
    (ht : t ∉ plan.parameters) (hv : d plan.build.parameter = some (.parameter t)) :
    (∀ p ∈ (plan.expanded d).free, p = t) ↔ plan.Operand := by
  induction plan with
  | leaf q =>
    have hleaf := free_replace_leaf (hd.noCapture hproper (by simp [leaves]))
      (hproper.closed q (by simp [leaves])) (show (d q.parameter).getD _ = .parameter t from
        by rw [show d q.parameter = _ from hv]; rfl)
    simp [expanded, hleaf, Operand]
  | combine nodeType left right ihl _ =>
    obtain ⟨htl, htr⟩ : t ∉ left.parameters ∧ t ∉ right.parameters := by
      simpa [parameters] using ht
    have hne : left.build.parameter ≠ t := fun h => htl (h ▸ build_parameter_mem left)
    have hl := ihl hproper.of_left hd.of_left htl hv
    have hr := ignored_iff hproper.of_right hd.of_right htr (Function.update_self ..) hne
    simp only [mem_free_expanded, or_imp, forall_and, hl, hr, Operand]

theorem sound_iff (hproper : Proper heap ps plan) (hd : Fits ps plan d)
    (hnone : d plan.build.parameter = none) :
    (∀ p ∈ (plan.expanded d).free, p = plan.build.parameter) ↔ plan.Sound := by
  induction plan with
  | leaf q =>
    have hleaf := free_replace_leaf (hd.noCapture hproper (by simp [leaves]))
      (hproper.closed q (by simp [leaves])) (show (d q.parameter).getD _ = _ from
        by rw [show d q.parameter = _ from hnone]; rfl)
    simp [expanded, hleaf, Sound, build]
  | combine nodeType left right ihl _ =>
    have ht : left.build.parameter ∉ right.parameters := fun h => hd.ne h rfl
    have hl := ihl hproper.of_left hd.of_left hnone
    have hr := operand_iff hproper.of_right hd.of_right ht (Function.update_self ..)
    simp only [mem_free_expanded, or_imp, forall_and, build_combine_parameter, hl, hr, Sound]

/-! ### The meaning of the result -/

section Meaning

variable {V : Type*} (P : Provider V) (env : Env V)

theorem meaning_replace_leaf {q : Predicate} {x : V} (hc : q.body.NoCapture d)
    (hclosed : ∀ p ∈ q.body.free, p = q.parameter)
    (hx : q.parameter ∈ q.body.free → P.under env d q.parameter = x) :
    (q.body.replace d).meaning P env = (leaf q).eval P x := by
  rw [Expression.meaning_replace hc, eval]
  apply Expression.meaning_congr
  intro p hp
  obtain rfl := hclosed p hp
  simp [hx hp, Provider.bind]

theorem meaning_of_ignored {x : V} (hproper : Proper heap ps plan) (hd : Fits ps plan d)
    (h : plan.Ignored) : (plan.expanded d).meaning P env = plan.eval P x := by
  induction plan generalizing d with
  | leaf q =>
    exact meaning_replace_leaf P env (hd.noCapture hproper (by simp [leaves]))
      (hproper.closed q (by simp [leaves])) fun hq => absurd hq h
  | combine nodeType left right ihl ihr =>
    simp only [expanded, eval, Expression.meaning, Expression.meaningList_eq, List.map_cons,
      List.map_nil, ihl hproper.of_left hd.of_left h.1, ihr hproper.of_right hd.of_right h.2]

theorem meaning_of_operand {t : ℕ} (hproper : Proper heap ps plan) (hd : Fits ps plan d)
    (hv : d plan.build.parameter = some (.parameter t)) (h : plan.Operand) :
    (plan.expanded d).meaning P env = plan.eval P (env t) := by
  induction plan with
  | leaf q =>
    have hv : d q.parameter = some (.parameter t) := hv
    exact meaning_replace_leaf P env (hd.noCapture hproper (by simp [leaves]))
      (hproper.closed q (by simp [leaves])) fun _ => by
        simp [Provider.under, hv, Expression.meaning]
  | combine nodeType left right ihl _ =>
    simp only [expanded, eval, Expression.meaning, Expression.meaningList_eq, List.map_cons,
      List.map_nil, ihl hproper.of_left hd.of_left hv h.1,
      meaning_of_ignored P env (x := env t) hproper.of_right hd.of_right h.2]

theorem meaning_of_sound (hproper : Proper heap ps plan) (hd : Fits ps plan d)
    (hnone : d plan.build.parameter = none) (h : plan.Sound) :
    (plan.expanded d).meaning P env = plan.eval P (env plan.build.parameter) := by
  induction plan with
  | leaf q =>
    have hnone : d q.parameter = none := hnone
    exact meaning_replace_leaf P env (hd.noCapture hproper (by simp [leaves]))
      (hproper.closed q (by simp [leaves])) fun _ => by
        simp [Provider.under, hnone, Expression.meaning, build]
  | combine nodeType left right ihl _ =>
    simp only [expanded, eval, Expression.meaning, Expression.meaningList_eq, List.map_cons,
      List.map_nil, ihl hproper.of_left hd.of_left hnone h.1, build_combine_parameter,
      meaning_of_operand P env hproper.of_right hd.of_right (Function.update_self ..) h.2]

/-- What `And` and `Or` make means the plan, before it is expanded. -/
theorem meaning_build (hclosed : ∀ q ∈ plan.leaves, ∀ p ∈ q.body.free, p = q.parameter) :
    plan.build.body.meaning P env = plan.eval P (env plan.build.parameter) := by
  induction plan generalizing env with
  | leaf q =>
    rw [eval, build]
    apply Expression.meaning_congr
    intro p hp
    obtain rfl := hclosed q (by simp [leaves]) p hp
    simp [Provider.bind]
  | combine nodeType left right ihl ihr =>
    have hl := ihl env fun q hq => hclosed q (by simp [leaves, hq])
    have hr := fun env => ihr env fun q hq => hclosed q (by simp [leaves, hq])
    simp only [build, PredicateBuilder.combine, Predicate.toExpression, eval, Expression.meaning,
      Expression.meaningList_eq, List.map_cons, List.map_nil, List.length_singleton, hl, hr]
    rw [P.invoke_lambda 1 _ [_] rfl]
    simp [Provider.bind]

end Meaning

/-! ### Expanding the result -/

theorem fits_empty (hnodup : plan.parameters.Nodup) : Fits plan.parameters plan .empty where
  key p x hx := by simp [Dictionary.empty] at hx
  new _ _ _ := rfl
  nodup := hnodup
  subset _ hp := hp

theorem query_expanded (levels : Levels) (hproper : Proper heap ps plan) (hd : Fits ps plan d) :
    Query heap levels 0 0 (plan.expanded d) := by
  induction plan generalizing d with
  | leaf q =>
    refine (hproper.settled q (by simp [leaves]) levels).replace fun p x hx => ?_
    obtain ⟨-, v, -, rfl⟩ := hd.key p x hx
    exact .parameter
  | combine nodeType left right ihl ihr =>
    have hl := ihl hproper.of_left hd.of_left
    have hr := ihr hproper.of_right hd.of_right
    refine .node trivial fun c hc => ?_
    obtain rfl | rfl | rfl : c = _ ∨ c = _ ∨ c = _ := by simpa using hc
    · exact hl
    · exact hr
    · exact .null

/-- Predicates combined one after the other, as in a loop. -/
theorem sound_foldl (nodeType : BinaryType) (first : Plan) (hfirst : first.Sound)
    (qs : List Predicate) :
    (qs.foldl (fun plan q => combine nodeType plan (leaf q)) first).Sound := by
  induction qs generalizing first with
  | nil => exact hfirst
  | cons q qs ih => exact ih _ ⟨hfirst, trivial⟩

/-- `x => !x`, with the parameter `p`. -/
def notPredicate (p : ℕ) : Predicate := ⟨p, .node (.unary .not 0 0) [.parameter p]⟩

/-- `a.And (b.Or (c))` -/
def rightNested : Plan :=
  and (leaf (notPredicate 0)) (or (leaf (notPredicate 1)) (leaf (notPredicate 2)))

theorem proper_rightNested (heap : Heap) : rightNested.Proper heap rightNested.parameters := by
  have hleaf : ∀ q ∈ rightNested.leaves, ∃ p, q = notPredicate p := by
    intro q hq
    obtain rfl | rfl | rfl : q = _ ∨ q = _ ∨ q = _ := by
      simpa [rightNested, leaves, and, or] using hq
    all_goals exact ⟨_, rfl⟩
  constructor
  · intro q hq levels
    obtain ⟨p, rfl⟩ := hleaf q hq
    refine .node trivial fun c hc => ?_
    obtain rfl : c = .parameter p := by simpa using hc
    exact .parameter
  · intro q hq p hp
    obtain ⟨p', rfl⟩ := hleaf q hq
    simpa [notPredicate, Expression.free] using hp
  · intro q hq p hp
    obtain ⟨p', rfl⟩ := hleaf q hq
    simp [notPredicate, Expression.bound] at hp

def emptyHeap : Heap := fun _ => ⟨⟨false, false⟩, fun _ => none⟩

end Plan
end Garbage.LinqKit
