import Garbage.LinqKit.ExpressionExpander

/-!
# What a query means

`Provider V` is a reading of expressions in the values `V`: what the constants, the
nodes and the lambdas mean, where an invoked lambda means its body at the arguments.
An expression object is read as what it means, so `Compile` and `AsExpandable` do
nothing.  A provider is `Faithful` to a heap if a captured variable means what it
holds.

The meaning depends on the free parameters only, and replacing parameters in an
expression is the same as changing the environment, if no lambda in the expression
binds what is replaced or what comes in.
-/

namespace Garbage.LinqKit

abbrev Env (V : Type*) := ℕ → V

def invokeMethod (id : ℕ) : MethodInfo := ⟨.invoke, true, id⟩

def asExpandableMethod (id : ℕ) : MethodInfo := ⟨.asExpandable, true, id⟩

structure Provider (V : Type*) where
  null : V
  /-- A parameter of which there is no lambda. -/
  unbound : V
  constant : Option ℕ → V
  lambda : ℕ → (List V → V) → V
  node : Head → List V → V
  invoke_lambda : ∀ n f arguments, arguments.length = n →
    node .invoke (lambda n f :: arguments) = f arguments
  call_invoke : ∀ id object target arguments,
    node (.call (invokeMethod id)) (object :: target :: arguments) =
      node .invoke (target :: arguments)
  call_compile : ∀ ofExtensions id n f arguments,
    node (.call ⟨.compile, ofExtensions, id⟩) (lambda n f :: arguments) = lambda n f
  call_asExpandable : ∀ id object query arguments,
    node (.call (asExpandableMethod id)) (object :: query :: arguments) = query

/-- The environment in the body of a lambda. -/
def Provider.bind {V : Type*} (P : Provider V) (env : Env V) (ps : List ℕ)
    (arguments : List V) : Env V :=
  fun p => if p ∈ ps then ((ps.zip arguments).lookup p).getD P.unbound else env p

namespace Expression

mutual

def free : Expression → List ℕ
  | .null => []
  | .parameter p => [p]
  | .constant _ => []
  | .quoted _ => []
  | .lambda ps body => body.free.filter (· ∉ ps)
  | .node _ children => freeList children

def freeList : List Expression → List ℕ
  | [] => []
  | e :: es => e.free ++ freeList es

end

mutual

/-- The parameters of the lambdas. -/
def bound : Expression → List ℕ
  | .null => []
  | .parameter _ => []
  | .constant _ => []
  | .quoted _ => []
  | .lambda ps body => ps ++ body.bound
  | .node _ children => boundList children

def boundList : List Expression → List ℕ
  | [] => []
  | e :: es => e.bound ++ boundList es

end

mutual

/-- The tree with the parameters replaced, also under the lambdas that bind them. -/
def replace (d : Dictionary) : Expression → Expression
  | .null => .null
  | .parameter p => (d p).getD (.parameter p)
  | .constant value => .constant value
  | .quoted value => .quoted value
  | .lambda ps body => .lambda ps (body.replace d)
  | .node head children => .node head (replaceList d children)

def replaceList (d : Dictionary) : List Expression → List Expression
  | [] => []
  | e :: es => e.replace d :: replaceList d es

end

mutual

def meaning {V : Type*} (P : Provider V) : Expression → Env V → V
  | .null, _ => P.null
  | .parameter p, env => env p
  | .constant value, _ => P.constant value
  | .quoted value, _ => value.meaning P fun _ => P.unbound
  | .lambda ps body, env =>
    P.lambda ps.length fun arguments => body.meaning P (P.bind env ps arguments)
  | .node head children, env => P.node head (meaningList P children env)

def meaningList {V : Type*} (P : Provider V) : List Expression → Env V → List V
  | [], _ => []
  | e :: es, env => e.meaning P env :: meaningList P es env

end

/-! ### Lists of children -/

@[simp] theorem freeList_eq (es : List Expression) : freeList es = es.flatMap free := by
  induction es with
  | nil => rfl
  | cons e es ih => simp [freeList, ih]

@[simp] theorem boundList_eq (es : List Expression) : boundList es = es.flatMap bound := by
  induction es with
  | nil => rfl
  | cons e es ih => simp [boundList, ih]

@[simp] theorem replaceList_eq (d : Dictionary) (es : List Expression) :
    replaceList d es = es.map (replace d) := by
  induction es with
  | nil => rfl
  | cons e es ih => simp [replaceList, ih]

@[simp] theorem meaningList_eq {V : Type*} (P : Provider V) (es : List Expression) (env : Env V) :
    meaningList P es env = es.map fun e => e.meaning P env := by
  induction es with
  | nil => rfl
  | cons e es ih => simp [meaningList, ih]

end Expression

/-! ### The environment -/

section Env

variable {V : Type*} (P : Provider V) (env : Env V) {ps : List ℕ} {p : ℕ}

theorem Provider.bind_of_notMem (arguments : List V) (h : p ∉ ps) :
    P.bind env ps arguments p = env p := if_neg h

theorem Provider.bind_of_mem (arguments : List V) (env' : Env V) (h : p ∈ ps) :
    P.bind env ps arguments p = P.bind env' ps arguments p := by
  simp [bind, h]

/-- The environment before the parameters are replaced. -/
def Provider.under (env : Env V) (d : Dictionary) : Env V :=
  fun p => ((d p).getD (.parameter p)).meaning P env

end Env

namespace Expression

variable {V : Type*} {P : Provider V} {env env' : Env V} {d : Dictionary} {e : Expression}

theorem meaning_congr (h : ∀ p ∈ e.free, env p = env' p) : e.meaning P env = e.meaning P env' := by
  induction e using tree_induction generalizing env env' with
  | null | constant | quoted => rfl
  | parameter p => exact h p (by simp [free])
  | lambda ps body ih =>
    simp only [meaning]
    congr 1
    funext arguments
    apply ih
    intro p hp
    by_cases hps : p ∈ ps
    · exact P.bind_of_mem env arguments env' hps
    · rw [P.bind_of_notMem _ _ hps, P.bind_of_notMem _ _ hps]
      exact h p (by simp [free, hp, hps])
  | node head children ih =>
    simp only [meaning, meaningList_eq]
    congr 1
    apply List.map_congr_left
    intro c hc
    refine ih c hc fun p hp => h p ?_
    simpa [free] using ⟨c, hc, hp⟩

/-- The lambdas of `e` bind no parameter that is replaced, and none that comes in. -/
def NoCapture (d : Dictionary) (e : Expression) : Prop :=
  ∀ q ∈ e.bound, d q = none ∧ ∀ p x, d p = some x → q ∉ x.free

theorem NoCapture.body {ps : List ℕ} {body : Expression} (h : NoCapture d (.lambda ps body)) :
    NoCapture d body :=
  fun q hq => h q (by simp [bound, hq])

theorem NoCapture.child {head : Head} {children : List Expression} {c : Expression}
    (h : NoCapture d (.node head children)) (hc : c ∈ children) : NoCapture d c :=
  fun q hq => h q (by simpa [bound] using ⟨c, hc, hq⟩)

/-- Replacing is the same as changing the environment. -/
theorem meaning_replace (h : NoCapture d e) :
    (e.replace d).meaning P env = e.meaning P (P.under env d) := by
  induction e using tree_induction generalizing env with
  | null | constant | quoted => rfl
  | parameter p => rfl
  | lambda ps body ih =>
    simp only [replace, meaning]
    congr 1
    funext arguments
    rw [ih h.body]
    apply meaning_congr
    intro p hp
    by_cases hps : p ∈ ps
    · have hnone := (h p (by simp [bound, hps])).1
      simp [Provider.under, hnone, meaning, Provider.bind, hps]
    · rw [P.bind_of_notMem _ _ hps]
      apply meaning_congr
      intro q hq
      apply P.bind_of_notMem
      intro hqs
      cases hd : d p with
      | none =>
        have : q = p := by simpa [hd, free] using hq
        exact hps (this ▸ hqs)
      | some x =>
        rw [hd] at hq
        exact (h q (by simp [bound, hqs])).2 p x hd hq
  | node head children ih =>
    simp only [replace, replaceList_eq, meaning, meaningList_eq, List.map_map]
    congr 1
    apply List.map_congr_left
    intro c hc
    exact ih c hc (h.child hc)

theorem mem_free_replace {q : ℕ} (hc : NoCapture d e) (h : q ∈ (e.replace d).free) :
    ∃ p ∈ e.free, q ∈ ((d p).getD (.parameter p)).free := by
  induction e using tree_induction with
  | null | constant | quoted => simp [replace, free] at h
  | parameter p => exact ⟨p, by simp [free], h⟩
  | lambda ps body ih =>
    obtain ⟨hq, hps⟩ : q ∈ (body.replace d).free ∧ q ∉ ps := by simpa [replace, free] using h
    obtain ⟨p, hp, hpq⟩ := ih hc.body hq
    refine ⟨p, ?_, hpq⟩
    have : p ∉ ps := by
      intro hp'
      have hnone := (hc p (by simp [bound, hp'])).1
      have : q = p := by simpa [hnone, free] using hpq
      exact hps (this ▸ hp')
    simp [free, hp, this]
  | node head children ih =>
    obtain ⟨c, hcc, hq⟩ : ∃ c ∈ children, q ∈ (c.replace d).free := by
      simpa [replace, free] using h
    obtain ⟨p, hp, hpq⟩ := ih c hcc (hc.child hcc) hq
    exact ⟨p, by simpa [free] using ⟨c, hcc, hp⟩, hpq⟩

/-- Where nothing is captured, what comes in is free. -/
theorem mem_free_replace_of {p q : ℕ} (hc : NoCapture d e) (hp : p ∈ e.free)
    (hq : q ∈ ((d p).getD (.parameter p)).free) : q ∈ (e.replace d).free := by
  induction e using tree_induction with
  | null | constant | quoted => simp [free] at hp
  | parameter p' =>
    obtain rfl : p = p' := by simpa [free] using hp
    exact hq
  | lambda ps body ih =>
    obtain ⟨hp, hps⟩ : p ∈ body.free ∧ p ∉ ps := by simpa [free] using hp
    have hqs : q ∉ ps := by
      intro hqs
      cases hd : d p with
      | none =>
        obtain rfl : q = p := by simpa [hd, free] using hq
        exact hps hqs
      | some x =>
        rw [hd] at hq
        exact (hc q (by simp [bound, hqs])).2 p x hd hq
    simpa [replace, free, hqs] using ih hc.body hp
  | node head children ih =>
    obtain ⟨c, hcc, hp⟩ : ∃ c ∈ children, p ∈ c.free := by simpa [free] using hp
    simpa [replace, free] using ⟨c, hcc, ih c hcc (hc.child hcc) hp⟩

theorem mem_bound_replace {q : ℕ} (h : q ∈ (e.replace d).bound) :
    q ∈ e.bound ∨ ∃ p x, d p = some x ∧ q ∈ x.bound := by
  induction e using tree_induction with
  | null | constant | quoted => simp [replace, bound] at h
  | parameter p =>
    cases hd : d p with
    | none => simp [replace, hd, bound] at h
    | some x => exact .inr ⟨p, x, hd, by simpa [replace, hd] using h⟩
  | lambda ps body ih =>
    obtain hq | hq : q ∈ ps ∨ q ∈ (body.replace d).bound := by simpa [replace, bound] using h
    · exact .inl (by simp [bound, hq])
    · exact (ih hq).imp (fun hb => by simp [bound, hb]) id
  | node head children ih =>
    obtain ⟨c, hcc, hq⟩ : ∃ c ∈ children, q ∈ (c.replace d).bound := by
      simpa [replace, bound] using h
    exact (ih c hcc hq).imp (fun hb => by simpa [bound] using ⟨c, hcc, hb⟩) id

theorem map_eq_self {f : Expression → Expression} {es : List Expression}
    (h : ∀ e ∈ es, f e = e) : es.map f = es := by
  rw [List.map_congr_left (g := id) h, List.map_id]

@[simp] theorem replace_empty : e.replace .empty = e := by
  induction e using tree_induction with
  | null | parameter | constant | quoted => rfl
  | lambda ps body ih => rw [replace, ih]
  | node head children ih => rw [replace, replaceList_eq, map_eq_self ih]

/-- Nothing changes in an expression that mentions no parameter. -/
theorem replace_of_closed (hf : e.free = []) (hb : e.bound = []) : e.replace d = e := by
  induction e using tree_induction with
  | null | constant | quoted => rfl
  | parameter p => simp [free] at hf
  | lambda ps body ih =>
    obtain ⟨rfl, hbody⟩ : ps = [] ∧ body.bound = [] := by simpa [bound] using hb
    simp only [replace]
    rw [ih (by simpa [free] using hf) hbody]
  | node head children ih =>
    simp only [replace, replaceList_eq]
    congr 1
    exact map_eq_self fun c hc => ih c hc (by simp_all [free]) (by simp_all [bound])

theorem map_replace_of_closed {es : List Expression} (h : ∀ e ∈ es, e.free = [] ∧ e.bound = []) :
    es.map (Expression.replace d) = es :=
  map_eq_self fun e he => replace_of_closed (h e he).1 (h e he).2

end Expression
end Garbage.LinqKit
