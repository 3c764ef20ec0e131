import Garbage.LinqKit.Query

/-!
# Expanding a query

The induction is on the rank below which the captured expressions lie, and in it on
the query.  Where a captured lambda is invoked, the expander has already expanded it,
with an empty dictionary, so that its body is settled when the arguments come in.
They come in as they are: an invocation in an argument is left for another `Expand`.
-/

namespace Garbage.LinqKit

open ExpressionExpander

universe u

variable {heap : Heap} {levels : Levels} {r k : ℕ} {e e' : Expression} {d : Dictionary}

/-- What `Expand` makes of a query with invocations nested to the depth `k + 1`. -/
structure Expansion (heap : Heap) (levels : Levels) (r k : ℕ) (e e' : Expression) : Prop where
  query : Query heap levels r k e'
  free : ∀ q ∈ e'.free, q ∈ e.free
  bound : ∀ q ∈ e'.bound, q ∈ e.bound ∨ levels.owner q < r
  meaning : ∀ {V : Type u} (P : Provider V), P.Faithful heap →
    ∀ env, e'.meaning P env = e.meaning P env

namespace Expansion

theorem lambda {ps : List ℕ} {body body' : Expression}
    (h : Expansion.{u} heap levels r k body body') :
    Expansion.{u} heap levels r k (.lambda ps body) (.lambda ps body') where
  query := .lambda h.query
  free q hq := by
    have : q ∈ body'.free ∧ q ∉ ps := by simpa [Expression.free] using hq
    simpa [Expression.free, this.2] using h.free q this.1
  bound q hq := by
    obtain hps | hq : q ∈ ps ∨ q ∈ body'.bound := by simpa [Expression.bound] using hq
    · exact .inl (by simp [Expression.bound, hps])
    · exact (h.bound q hq).imp (fun hb => by simp [Expression.bound, hb]) id
  meaning P hP env := by
    simp only [Expression.meaning, h.meaning P hP]

theorem exists_of_forall₂ {R : Expression → Expression → Prop}
    {children children' : List Expression} {c' : Expression}
    (h : List.Forall₂ R children children') (hc : c' ∈ children') : ∃ c ∈ children, R c c' := by
  induction h with
  | nil => simp at hc
  | @cons c _ _ _ hR _ ih =>
    obtain rfl | hc := List.mem_cons.mp hc
    · exact ⟨c, by simp, hR⟩
    · obtain ⟨c, hc, hR⟩ := ih hc
      exact ⟨c, by simp [hc], hR⟩

theorem node {head : Head} {children children' : List Expression}
    (hinert : Inert heap head children)
    (h : List.Forall₂ (Expansion.{u} heap levels r k) children children') :
    Expansion.{u} heap levels r k (.node head children) (.node head children') where
  query := by
    refine .rebuild hinert h.length_eq.symm fun c' hc' => ?_
    obtain ⟨c, _, hc⟩ := exists_of_forall₂ h hc'
    exact hc.query
  free q hq := by
    obtain ⟨c', hc', hq⟩ : ∃ c' ∈ children', q ∈ c'.free := by simpa [Expression.free] using hq
    obtain ⟨c, hc, hR⟩ := exists_of_forall₂ h hc'
    simpa [Expression.free] using ⟨c, hc, hR.free q hq⟩
  bound q hq := by
    obtain ⟨c', hc', hq⟩ : ∃ c' ∈ children', q ∈ c'.bound := by simpa [Expression.bound] using hq
    obtain ⟨c, hc, hR⟩ := exists_of_forall₂ h hc'
    exact (hR.bound q hq).imp (fun hb => by simpa [Expression.bound] using ⟨c, hc, hb⟩) id
  meaning P hP env := by
    simp only [Expression.meaning, Expression.meaningList_eq]
    congr 1
    clear hinert
    induction h with
    | nil => rfl
    | cons hc _ ih => rw [List.map_cons, List.map_cons, hc.meaning P hP, ih]

/-- The captured expression itself, in the place of the variable. -/
theorem capturedVariable {F F' : Expression} (hF : captured heap e = some F)
    (hclosed : F.free = []) (hbound : ∀ q ∈ F.bound, levels.owner q ≤ levels.rank F)
    (hrank : levels.rank F < r) (h : Expansion.{u} heap levels (levels.rank F) 0 F F') :
    Expansion.{u} heap levels r k e F' where
  query := h.query.of_settled rfl r k
  free q hq := by simpa [hclosed] using h.free q hq
  bound q hq := by
    obtain hq | hq := h.bound q hq
    · have := hbound q hq
      exact .inr (by omega)
    · exact .inr (by omega)
  meaning P hP env := by
    rw [h.meaning P hP, hP e F hF]
    exact Expression.meaning_congr (by simp [hclosed])

/-- Another node with the same meaning that mentions as much. -/
theorem of_child {c : Expression} (h : Expansion.{u} heap levels r k c e')
    (hfree : ∀ q ∈ c.free, q ∈ e.free) (hbound : ∀ q ∈ c.bound, q ∈ e.bound)
    (hmeaning : ∀ {V : Type u} (P : Provider V), P.Faithful heap →
      ∀ env, c.meaning P env = e.meaning P env) : Expansion.{u} heap levels r k e e' where
  query := h.query
  free q hq := hfree q (h.free q hq)
  bound q hq := (h.bound q hq).imp (hbound q) id
  meaning P hP env := (h.meaning P hP env).trans (hmeaning P hP env)

end Expansion

/-! ### Invocations -/

def Dictionary.ofArguments (ps : List ℕ) (arguments : List Expression) : Dictionary :=
  fun p => (ps.zip arguments).lookup p

section Invocation

variable {ps : List ℕ} {body body' target : Expression} {arguments : List Expression}

theorem Dictionary.addArguments_empty (hps : ps.Nodup) (hlen : arguments.length = ps.length) :
    Dictionary.empty.addArguments ps arguments = some (.ofArguments ps arguments) := by
  rw [addArguments_eq (d := empty) hps (fun _ _ => rfl) hlen]
  congr 1
  funext p
  simp [empty, ofArguments]

theorem Dictionary.ofArguments_eq_some {p : ℕ} {x : Expression}
    (h : Dictionary.ofArguments ps arguments p = some x) : p ∈ ps ∧ x ∈ arguments := by
  have : (p, x) ∈ ps.zip arguments := by
    obtain ⟨l₁, l₂, hl, -⟩ := List.lookup_eq_some_iff.mp h
    simp [hl]
  exact List.of_mem_zip this

theorem Dictionary.ofArguments_isSome {p : ℕ} (hlen : arguments.length = ps.length) (h : p ∈ ps) :
    ∃ x, Dictionary.ofArguments ps arguments p = some x := by
  rw [← Option.isSome_iff_exists, ofArguments, List.lookup_isSome_iff]
  obtain ⟨i, hi, rfl⟩ := List.getElem_of_mem h
  refine ⟨(ps[i], arguments[i]), ?_, by simp⟩
  rw [← List.getElem_zip (h := by simp; omega)]
  exact List.getElem_mem _

theorem lookup_zip_map {V : Type u} (f : Expression → V) (p : ℕ) :
    (ps.zip (arguments.map f)).lookup p = ((ps.zip arguments).lookup p).map f := by
  induction ps generalizing arguments with
  | nil => simp
  | cons q ps ih =>
    cases arguments with
    | nil => simp
    | cons a arguments =>
      simp only [List.map_cons, List.zip_cons_cons, List.lookup_cons, ih]
      split <;> rfl

/-- The replaced parameters have in the body the values of the arguments. -/
theorem under_ofArguments {V : Type u} (P : Provider V) (env : Env V) {p : ℕ}
    (hlen : arguments.length = ps.length) (h : p ∈ ps) :
    P.under env (.ofArguments ps arguments) p =
      P.bind env ps (arguments.map fun a => a.meaning P env) p := by
  obtain ⟨x, hx⟩ := Dictionary.ofArguments_isSome hlen h
  have hlookup : (ps.zip arguments).lookup p = some x := hx
  simp [Provider.under, hx, Provider.bind, h, lookup_zip_map, hlookup]

/-- The body of an expanded lambda binds nothing that an argument mentions. -/
theorem noCapture (hfit : levels.Fits heap ps body)
    (h : Expansion.{u} heap levels (levels.rank (.lambda ps body)) 0 body body')
    (hinv : Invocable heap levels r target arguments)
    (hrank : levels.rank (.lambda ps body) < r) :
    body'.NoCapture (.ofArguments ps arguments) := by
  intro q hq
  have howner : levels.owner q ≤ levels.rank (.lambda ps body) := by
    obtain hq | hq := h.bound q hq
    · exact hfit.owner_bound q hq
    · omega
  constructor
  · cases hd : Dictionary.ofArguments ps arguments q with
    | none => rfl
    | some x =>
      exfalso
      have hps := (Dictionary.ofArguments_eq_some hd).1
      obtain hq | hq := h.bound q hq
      · exact hfit.distinct q hps hq
      · have := hfit.owner q hps
        omega
  · intro p x hx hqx
    have := hinv.free x (Dictionary.ofArguments_eq_some hx).2 q hqx
    omega

/-- **An invocation is expanded to the body of the lambda at the arguments.** -/
theorem Expansion.invocation (hfit : levels.Fits heap ps body)
    (h : Expansion.{u} heap levels (levels.rank (.lambda ps body)) 0 body body')
    (hF : captured heap target = some (.lambda ps body))
    (hinv : Invocable heap levels r target arguments)
    (hrank : levels.rank (.lambda ps body) < r) (hlen : arguments.length = ps.length)
    (hquery : ∀ a ∈ arguments, Query heap levels r k a) :
    Expansion.{u} heap levels r k (.node .invoke (target :: arguments))
      (body'.replace (.ofArguments ps arguments)) := by
  have hcapture := noCapture hfit h hinv hrank
  have hclosed : ∀ q ∈ body'.free, q ∈ ps := fun q hq => hfit.closed q (h.free q hq)
  constructor
  case query =>
    exact h.query.replace fun p x hx => hquery x (Dictionary.ofArguments_eq_some hx).2
  case free =>
    intro q hq
    obtain ⟨p, hp, hq⟩ := Expression.mem_free_replace hcapture hq
    obtain ⟨x, hx⟩ := Dictionary.ofArguments_isSome hlen (hclosed p hp)
    have hxa := (Dictionary.ofArguments_eq_some hx).2
    rw [hx, Option.getD_some] at hq
    simpa [Expression.free] using .inr ⟨x, hxa, hq⟩
  case bound =>
    intro q hq
    obtain hq | ⟨p, x, hx, hq⟩ := Expression.mem_bound_replace hq
    · obtain hq | hq := h.bound q hq
      · have := hfit.owner_bound q hq
        exact .inr (by omega)
      · exact .inr (by omega)
    · have hxa := (Dictionary.ofArguments_eq_some hx).2
      exact .inl (by simpa [Expression.bound] using .inr ⟨x, hxa, hq⟩)
  case meaning =>
    intro V P hP env
    calc (body'.replace (.ofArguments ps arguments)).meaning P env
        = body'.meaning P (P.under env (.ofArguments ps arguments)) :=
          Expression.meaning_replace hcapture
      _ = body'.meaning P (P.bind (fun _ => P.unbound) ps
            (arguments.map fun a => a.meaning P env)) := by
          apply Expression.meaning_congr
          intro p hp
          rw [under_ofArguments P env hlen (hclosed p hp)]
          exact P.bind_of_mem env _ _ (hclosed p hp)
      _ = body.meaning P (P.bind (fun _ => P.unbound) ps
            (arguments.map fun a => a.meaning P env)) := h.meaning P hP _
      _ = P.node .invoke ((Expression.lambda ps body).meaning P (fun _ => P.unbound) ::
            arguments.map fun a => a.meaning P env) := by
          rw [Expression.meaning, P.invoke_lambda _ _ _ (by simpa using hlen)]
      _ = (Expression.node .invoke (target :: arguments)).meaning P env := by
          simp [Expression.meaning, hP target _ hF env]

/-- The visitor meets the invocation of a captured lambda. -/
theorem visits_invocation (hfit : levels.Fits heap ps body)
    (hF : captured heap target = some (.lambda ps body)) (hlen : arguments.length = ps.length)
    (hbody : Visits heap .empty body body')
    (hresult : Visits heap (.ofArguments ps arguments) body' e') :
    ∃ N, ∀ n, N ≤ n → invokeLambda heap (visit heap n) .empty target arguments = pure e' := by
  have hlambda : Visits heap .empty (.lambda ps body) (.lambda ps body') := hbody.lambda
  obtain ⟨N₁, h₁⟩ := hlambda
  obtain ⟨N₂, h₂⟩ := hresult
  refine ⟨max N₁ N₂, fun n hn => ?_⟩
  have htarget : transformExpr heap (visit heap n .empty) target = pure (.lambda ps body') := by
    rw [transformExpr, hF]
    exact h₁ n (by omega)
  simp only [invokeLambda, htarget, pure_bind, constantValue, toLambda,
    Dictionary.addArguments_empty hfit.nodup hlen, h₂ n (by omega)]

end Invocation

/-! ### Queries -/

theorem Levels.Fits.lambda_closed {ps : List ℕ} {body : Expression}
    (hfit : levels.Fits heap ps body) : (Expression.lambda ps body).free = [] := by
  simpa [Expression.free] using hfit.closed

theorem Levels.Fits.lambda_bound {ps : List ℕ} {body : Expression}
    (hfit : levels.Fits heap ps body) :
    ∀ q ∈ (Expression.lambda ps body).bound, levels.owner q ≤ levels.rank (.lambda ps body) := by
  intro q hq
  obtain hq | hq : q ∈ ps ∨ q ∈ body.bound := by simpa [Expression.bound] using hq
  · exact Nat.le_of_eq (hfit.owner q hq)
  · exact hfit.owner_bound q hq

/-- The induction hypothesis on the rank: what `Expand` makes of the captured lambdas. -/
def Expanded (heap : Heap) (levels : Levels) (r : ℕ) : Prop :=
  ∀ ps body, levels.Fits heap ps body → levels.rank (.lambda ps body) < r →
    ∃ body', Visits heap .empty body body' ∧
      Expansion.{u} heap levels (levels.rank (.lambda ps body)) 0 body body'

/-- A variable in a place where it is not invoked. -/
theorem Expanded.variable (hr : Expanded.{u} heap levels r) (hfit : levels.FitsAll heap)
    {F : Expression} (hF : captured heap e = some F) (hrank : levels.rank F < r) (k : ℕ) :
    ∃ e', Visits heap .empty F e' ∧ Expansion.{u} heap levels r k e e' := by
  obtain ⟨ps, body, rfl, hbody⟩ := hfit e F hF
  obtain ⟨body', hvisit, hexp⟩ := hr ps body hbody hrank
  exact ⟨_, hvisit.lambda, .capturedVariable hF hbody.lambda_closed hbody.lambda_bound hrank
    hexp.lambda⟩

/-- A variable that is invoked. -/
theorem Expanded.invocation (hr : Expanded.{u} heap levels r) (hfit : levels.FitsAll heap)
    {target : Expression} {arguments : List Expression}
    (hinv : Invocable heap levels r target arguments)
    (hquery : ∀ a ∈ arguments, Query heap levels r k a) :
    ∃ e', (∃ N, ∀ n, N ≤ n →
        invokeLambda heap (visit heap n) .empty target arguments = pure e') ∧
      Expansion.{u} heap levels r k (.node .invoke (target :: arguments)) e' := by
  obtain ⟨ps, body, hF, hrank, hlen⟩ := hinv.target
  obtain ⟨ps', body', hlambda, hbody⟩ := hfit target _ hF
  cases hlambda
  obtain ⟨body', hvisit, hexp⟩ := hr ps body hbody hrank
  exact ⟨_, visits_invocation hbody hF hlen hvisit hexp.query.visits_replace,
    .invocation hbody hexp hF hinv hrank hlen hquery⟩

theorem Expansion.refl (h : Query heap levels r k e) : Expansion.{u} heap levels r k e e :=
  ⟨h, fun _ hq => hq, fun _ hq => .inl hq, fun _ _ _ => rfl⟩

/-- The step of the induction on the rank. -/
theorem Expanded.query (hr : Expanded.{u} heap levels r) (hfit : levels.FitsAll heap) {j : ℕ}
    (h : Query heap levels r j e) (hj : j = k + 1) :
    ∃ e', Visits heap .empty e e' ∧ Expansion.{u} heap levels r k e e' := by
  induction h with
  | null => exact ⟨_, .succ ⟨0, fun _ _ => rfl⟩, .refl .null⟩
  | parameter => exact ⟨_, .succ ⟨0, fun _ _ => rfl⟩, .refl .parameter⟩
  | constant => exact ⟨_, .succ ⟨0, fun _ _ => rfl⟩, .refl .constant⟩
  | quoted => exact ⟨_, .succ ⟨0, fun _ _ => rfl⟩, .refl .quoted⟩
  | lambda _ ih =>
    obtain ⟨body', hvisit, hexp⟩ := ih hj
    exact ⟨_, hvisit.lambda, hexp.lambda⟩
  | node hinert _ ih =>
    obtain ⟨children', hall⟩ := exists_forall₂ fun c hc => ih c hc hj
    exact ⟨_, .node hinert (hall.imp fun _ _ => And.left),
      .node hinert (hall.imp fun _ _ => And.right)⟩
  | member hm hnone hclosed hc _ =>
    refine ⟨_, .succ ⟨0, fun n _ => ?_⟩, .refl (.member hm hnone hclosed hc)⟩
    simp [visit, visitMemberAccess, hm, transformExpr, hnone]
  | capturedVariable hm hF hrank =>
    obtain ⟨e', ⟨N, hvisit⟩, hexp⟩ := hr.variable hfit hF hrank k
    refine ⟨e', .succ ⟨N, fun n hn => ?_⟩, hexp⟩
    rw [← hvisit n hn]
    simp [visit, visitMemberAccess, hm, transformExpr, hF]
  | @compile _ _ _ object arguments F hF hrank =>
    obtain ⟨e', ⟨N, hvisit⟩, hexp⟩ := hr.variable hfit hF hrank k
    refine ⟨e', .succ ⟨N, fun n hn => ?_⟩, hexp.of_child ?_ ?_ ?_⟩
    · rw [← hvisit n hn]
      simp [visit, visitMethodCall, transformExpr, hF]
    · exact fun q hq => by simp [Expression.free, hq]
    · exact fun q hq => by simp [Expression.bound, hq]
    · intro V P hP env
      obtain ⟨ps, body, rfl, -⟩ := hfit _ F hF
      simp [Expression.meaning, hP _ _ hF, P.call_compile]
  | @asExpandable j _ _ query hquery _ =>
    obtain rfl : j = k := by omega
    refine ⟨query, .succ ⟨0, fun n _ => ?_⟩, (Expansion.refl hquery).of_child ?_ ?_ ?_⟩
    · simp [visit, visitMethodCall, asExpandableMethod]
    · exact fun q hq => by simp [Expression.free, hq]
    · exact fun q hq => by simp [Expression.bound, hq]
    · intro V P hP env
      simp [Expression.meaning, P.call_asExpandable]
  | @invocation j _ _ hinv hquery _ =>
    obtain rfl : j = k := by omega
    obtain ⟨e', ⟨N, hvisit⟩, hexp⟩ := hr.invocation hfit hinv hquery
    exact ⟨e', .succ ⟨N, fun n hn => hvisit n hn⟩, hexp⟩
  | @invokeCall j _ _ target arguments hinv hquery _ =>
    obtain rfl : j = k := by omega
    obtain ⟨e', ⟨N, hvisit⟩, hexp⟩ := hr.invocation hfit hinv hquery
    refine ⟨e', .succ ⟨N, fun n hn => ?_⟩, hexp.of_child ?_ ?_ ?_⟩
    · rw [← hvisit n hn]
      simp [visit, visitMethodCall, invokeMethod]
    · exact fun q hq => by simp_all [Expression.free]
    · exact fun q hq => by simp_all [Expression.bound]
    · intro V P hP env
      simp [Expression.meaning, P.call_invoke]

theorem expanded (hfit : levels.FitsAll heap) (r : ℕ) : Expanded.{u} heap levels r := by
  induction r using Nat.strongRecOn with
  | ind r ih => exact fun ps body hbody hrank => (ih _ hrank).query hfit hbody.query rfl

/-! ### Repeated expansion -/

/-- `Expand` applied `k` times returns `e'`. -/
inductive ExpandsTo (heap : Heap) : ℕ → Expression → Expression → Prop
  | zero {e : Expression} : ExpandsTo heap 0 e e
  | succ {k : ℕ} {e e' e'' : Expression} : (∃ N, ∀ n, N ≤ n → expand heap n e = pure e') →
      ExpandsTo heap k e' e'' → ExpandsTo heap (k + 1) e e''

/-- `f.Compose (g)`, which is `_ => g.Invoke (f.Invoke (_))` with the captured `f` and `g`. -/
def compose (f g : Expression) (p id₁ id₂ : ℕ) : Expression :=
  .lambda [p] (.node (.call (invokeMethod id₁))
    [.null, g, .node (.call (invokeMethod id₂)) [.null, f, .parameter p]])

/-- It has to be expanded twice. -/
theorem query_compose {f g F G : Expression} {p : ℕ} (hfit : levels.FitsAll heap)
    (hf : captured heap f = some F) (hg : captured heap g = some G)
    (hlenf : ∀ ps body, F = .lambda ps body → ps.length = 1)
    (hleng : ∀ ps body, G = .lambda ps body → ps.length = 1)
    (hF : levels.rank F < r) (hG : levels.rank G < r) (hp : r ≤ levels.owner p) (id₁ id₂ : ℕ) :
    Query heap levels r 2 (compose f g p id₁ id₂) := by
  have invocable : ∀ {h H argument : Expression}, captured heap h = some H →
      (∀ ps body, H = .lambda ps body → ps.length = 1) → levels.rank H < r →
      (∀ q ∈ argument.free, q = p) → Invocable heap levels r h [argument] := by
    intro h H argument hh hlen hrank hfree
    obtain ⟨ps, body, rfl, -⟩ := hfit h H hh
    refine ⟨⟨ps, body, hh, hrank, (hlen ps body rfl).symm⟩, fun a ha q hq => ?_⟩
    obtain rfl : a = argument := by simpa using ha
    exact hfree q hq ▸ hp
  have hffree : f.free = [] := free_of_captured hf
  refine .lambda (.invokeCall (invocable hg hleng hG (by simp [Expression.free, hffree])) ?_)
  intro a ha
  obtain rfl : a = _ := by simpa using ha
  refine .invokeCall (invocable hf hlenf hF (by simp [Expression.free])) ?_
  intro a ha
  obtain rfl : a = .parameter p := by simpa using ha
  exact .parameter

/-- `IsNestedPrivate` and a name in brackets. -/
def closureType : TypeInfo := ⟨true, true⟩

/-- The variable with the number `id` that the object `0` holds. -/
def capturedVariable (id : ℕ) : Expression :=
  .node (.memberAccess ⟨true, closureType, closureType, id⟩) [.constant (some 0)]

def negateLambda : Expression := .lambda [0] (.node (.unary .negate 0 0) [.parameter 0])

/-- `y => f.Invoke (y) + y`, where `f` is the variable 0. -/
def addLambda : Expression :=
  .lambda [1] (.node (.binary .add false 0)
    [.node (.call (invokeMethod 0)) [.null, capturedVariable 0, .parameter 1], .parameter 1, .null])

def composedHeap : Heap := fun _ => ⟨closureType, fun m =>
  if m.id = 0 then some negateLambda else if m.id = 1 then some addLambda else none⟩

def composedLevels : Levels where
  rank F := F.bound.headD 0
  owner p := p

theorem fits_negate :
    composedLevels.Fits composedHeap [0] (.node (.unary .negate 0 0) [.parameter 0]) := by
  refine ⟨by decide, by decide, by decide, by decide, by decide, .node trivial fun c hc => ?_⟩
  obtain rfl : c = .parameter 0 := by simpa using hc
  exact .parameter

theorem fits_add : composedLevels.Fits composedHeap [1] (.node (.binary .add false 0)
    [.node (.call (invokeMethod 0)) [.null, capturedVariable 0, .parameter 1], .parameter 1,
      .null]) := by
  refine ⟨by decide, by decide, by decide, by decide, by decide, .node trivial fun c hc => ?_⟩
  obtain rfl | rfl | rfl : c = _ ∨ c = _ ∨ c = _ := by simpa using hc
  · have htarget : Invocable composedHeap composedLevels 1 (capturedVariable 0) [.parameter 1] :=
      ⟨⟨[0], _, rfl, by decide, rfl⟩, by simp [Expression.free, composedLevels]⟩
    refine .invokeCall htarget fun a ha => ?_
    obtain rfl : a = .parameter 1 := by simpa using ha
    exact .parameter
  · exact .parameter
  · exact .null

theorem fitsAll_composed : composedLevels.FitsAll composedHeap := by
  intro e F hF
  obtain ⟨m, object, -, -, hF⟩ := captured_eq_some hF
  by_cases h₀ : m.id = 0
  · obtain rfl : negateLambda = F := by simpa [composedHeap, h₀] using hF
    exact ⟨_, _, rfl, fits_negate⟩
  · by_cases h₁ : m.id = 1
    · obtain rfl : addLambda = F := by simpa [composedHeap, h₁] using hF
      exact ⟨_, _, rfl, fits_add⟩
    · simp [composedHeap, h₀, h₁] at hF

end Garbage.LinqKit
