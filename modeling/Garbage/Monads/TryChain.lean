import Garbage.Foundation.FirstAccepted
import Mathlib.Data.List.ReduceOption

/-!
# Trying functions until one does not throw

`TryChain` calls the functions of a list until one of them returns.  The overloads
for an `IEnumerable` remember the last exception and throw it behind the loop; those
for `params` count the functions that remain down to the last one, whose exception
they throw at once.  `TryWhileNotPredicate` also wants a predicate to accept what a
function returns.

A function reads and changes the world outside, `σ`, and returns or throws, and an
entry of a list may be null.  The model records which functions are called and what
is logged; logging does not throw.

Both kinds of loops follow one law, `FirstAccepted`: **the functions are called up to
the first whose value is accepted** (`try_follows`).
-/

namespace Garbage.Monads.TryChain

open Foundation

abbrev Func (σ ε α : Type) := σ → Except ε α × σ

abbrev Predicate (σ ε α : Type) := α → σ → Except ε Bool × σ

/-- What flies out: an exception of a function or of the predicate, or one of
`TryChain`'s own. -/
inductive Thrown (ε : Type)
  | own (ex : ε)
  | nullReference (message : String)
  | argumentNull (paramName : String)
  | argument (message : String)
  | exception (message : String)
  deriving DecidableEq

inductive LogEntry (ε : Type)
  /-- `CurrentLogger.WriteLog(.., Warning)` -/
  | warning (message : String)
  /-- `CurrentLogger.LogEx` -/
  | logEx (operation : String) (ex : Thrown ε)

structure World (σ ε α : Type) where
  outside : σ
  invoked : List (Func σ ε α)
  log : List (LogEntry ε)

variable {σ ε α : Type}

def World.write (w : World σ ε α) (entry : LogEntry ε) : World σ ε α :=
  { w with log := w.log ++ [entry] }

@[simp] theorem World.write_outside (w : World σ ε α) (entry : LogEntry ε) :
    (w.write entry).outside = w.outside := rfl

@[simp] theorem World.write_invoked (w : World σ ε α) (entry : LogEntry ε) :
    (w.write entry).invoked = w.invoked := rfl

/-! ### One round -/

/-- `func ?? throw new NullReferenceException(nameof(func))`, and the call. -/
def call (func : Option (Func σ ε α)) (w : World σ ε α) : Except (Thrown ε) α × World σ ε α :=
  match func with
  | none => (.error (.nullReference "func"), w)
  | some func =>
    ((func w.outside).1.mapError Thrown.own,
      { w with outside := (func w.outside).2, invoked := w.invoked ++ [func] })

/-- `return func()` -/
def returned (func : Option (Func σ ε α)) (w : World σ ε α) :
    Except (Thrown ε) (Option α) × World σ ε α :=
  ((call func w).1.map some, (call func w).2)

/-- `if(IsSuitValue(result)) return result` -/
def suitable (isSuitValue : Predicate σ ε α) (func : Option (Func σ ε α)) (w : World σ ε α) :
    Except (Thrown ε) (Option α) × World σ ε α :=
  match call func w with
  | (.error ex, w) => (.error ex, w)
  | (.ok result, w) =>
    match isSuitValue result w.outside with
    | (.error ex, s) => (.error (.own ex), { w with outside := s })
    | (.ok suits, s) => (.ok (if suits then some result else none), { w with outside := s })

/-! ### The loops -/

section Loops

-- `CurrentLogger.ExtractExceptionMessage`
variable (extractExceptionMessage : Thrown ε → String) (operation : String)

def iterationName (iteration : Nat) : String :=
  "TryChain for operation " ++ operation ++ " on iteration " ++ toString iteration

/-- The loop of the `IEnumerable` overloads, and the throws behind it. -/
def enumerableLoop : List (Option (Func σ ε α)) → Option (Thrown ε) → Nat → World σ ε α →
    Except (Thrown ε) α × World σ ε α
  | [], some lastIterationException, iteration, w =>
    (.error lastIterationException,
      w.write (.logEx (iterationName operation iteration) lastIterationException))
  | [], none, _, w => (.error (.argument "funcs for TryChain with empty list"), w)
  | func :: funcs, _, iteration, w =>
    match call func w with
    | (.ok result, w) => (.ok result, w)
    | (.error ex, w) =>
      enumerableLoop funcs (some ex) (iteration + 1) (w.write (.warning
        (iterationName operation (iteration + 1) ++ ": " ++ extractExceptionMessage ex)))

/-- `Try<T>(string operation, IEnumerable<Func<T>> funcs)` -/
def tryEnumerable (funcs : Option (List (Option (Func σ ε α)))) (w : World σ ε α) :
    Except (Thrown ε) α × World σ ε α :=
  match funcs with
  | none => (.error (.argumentNull "funcs"), w)
  | some funcs => enumerableLoop extractExceptionMessage operation funcs none 0 w

/-- `Try(string operation, IEnumerable<Action> funcs)`: an `Action` returns nothing. -/
def tryActions (funcs : Option (List (Option (Func σ ε Unit)))) (w : World σ ε Unit) :
    Except (Thrown ε) Unit × World σ ε Unit :=
  tryEnumerable extractExceptionMessage operation funcs w

def functionName (number : Int) : String :=
  "TryChain with function number " ++ toString number ++ " for operation " ++ operation

/-- The loop of the `params` members, with the body of its `try` and what is thrown
behind it. -/
def paramsLoop (body : Option (Func σ ε α) → World σ ε α →
      Except (Thrown ε) (Option α) × World σ ε α) (exceeded : Thrown ε) (count : Nat) :
    List (Option (Func σ ε α)) → Int → World σ ε α → Except (Thrown ε) α × World σ ε α
  | [], _, w => (.error exceeded, w)
  | func :: funcs, remainFuncAmount, w =>
    let remainFuncAmount := remainFuncAmount - 1
    match body func w with
    | (.ok (some result), w) => (.ok result, w)
    | (.ok none, w) => paramsLoop body exceeded count funcs remainFuncAmount w
    | (.error ex, w) =>
      let opName := functionName operation (count - remainFuncAmount)
      if remainFuncAmount ≤ 0 then (.error ex, w.write (.logEx opName ex))
      else paramsLoop body exceeded count funcs remainFuncAmount
        (w.write (.warning (opName ++ ": " ++ extractExceptionMessage ex)))

/-- `Try<T>(string operation, params Func<T>[] funcs)` -/
def tryParams (funcs : Option (List (Option (Func σ ε α)))) (w : World σ ε α) :
    Except (Thrown ε) α × World σ ε α :=
  match funcs with
  | none => (.error (.argumentNull "funcs"), w)
  | some funcs =>
    paramsLoop extractExceptionMessage operation returned
      (.argument "funcs for TryChain with empty list") funcs.length funcs funcs.length w

/-- `result => !Object.Equals(result, default(T))` -/
def notDefault [BEq α] [Inhabited α] : Predicate σ ε α := fun result s =>
  (.ok (!(result == default)), s)

def tryWhileNotPredicate [BEq α] [Inhabited α] (isSuitValue : Option (Predicate σ ε α))
    (funcs : Option (List (Option (Func σ ε α)))) (w : World σ ε α) :
    Except (Thrown ε) α × World σ ε α :=
  match funcs with
  | none => (.error (.argumentNull "funcs"), w)
  | some funcs =>
    paramsLoop extractExceptionMessage operation (suitable (isSuitValue.getD notDefault))
      (.exception "funcs for TryChain list is exceeded") funcs.length funcs funcs.length w

end Loops

/-! ### The law -/

/-- A function as a trial of the world outside. -/
def returnedTrial (func : Option (Func σ ε α)) (s : σ) : Except (Thrown ε) (Option α) × σ :=
  match func with
  | none => (.error (.nullReference "func"), s)
  | some func => (((func s).1.mapError Thrown.own).map some, (func s).2)

/-- A function whose value the predicate has to accept. -/
def suitableTrial (isSuitValue : Predicate σ ε α) (func : Option (Func σ ε α)) (s : σ) :
    Except (Thrown ε) (Option α) × σ :=
  match func with
  | none => (.error (.nullReference "func"), s)
  | some func =>
    match func s with
    | (.error ex, s) => (.error (.own ex), s)
    | (.ok result, s) =>
      match isSuitValue result s with
      | (.error ex, s) => (.error (.own ex), s)
      | (.ok suits, s) => (.ok (if suits then some result else none), s)

/-- The functions up to the first that is accepted are invoked, in order and each once. -/
def Follows (trial : Option (Func σ ε α) → σ → Except (Thrown ε) (Option α) × σ)
    (exceeded : Thrown ε) (funcs : List (Option (Func σ ε α))) (w : World σ ε α)
    (r : Except (Thrown ε) α × World σ ε α) : Prop :=
  ∃ tried, FirstAccepted trial exceeded w.outside funcs tried r.1 ∧
    r.2.outside = afterTrials trial tried w.outside ∧
    r.2.invoked = w.invoked ++ tried.reduceOption

/-- What a body of the loop does on a world is what the trial does outside. -/
def Runs (body : Option (Func σ ε α) → World σ ε α → Except (Thrown ε) (Option α) × World σ ε α)
    (trial : Option (Func σ ε α) → σ → Except (Thrown ε) (Option α) × σ) : Prop :=
  ∀ func w, body func w = ((trial func w.outside).1,
    { w with
      outside := (trial func w.outside).2
      invoked := w.invoked ++ [func].reduceOption })

theorem returned_runs : Runs (returned (σ := σ) (ε := ε) (α := α)) returnedTrial := by
  intro func w
  cases func with
  | none => simp [returned, call, returnedTrial, Except.map]
  | some func => rfl

theorem suitable_runs (isSuitValue : Predicate σ ε α) :
    Runs (suitable isSuitValue) (suitableTrial isSuitValue) := by
  intro func w
  cases func with
  | none => simp [suitable, call, suitableTrial]
  | some func =>
    simp only [suitable, call, suitableTrial]
    obtain ⟨r, s⟩ := func w.outside
    cases r with
    | error ex => rfl
    | ok result =>
      simp only [Except.mapError]
      obtain ⟨r, s⟩ := isSuitValue result s
      cases r <;> rfl

section Follows

variable {trial : Option (Func σ ε α) → σ → Except (Thrown ε) (Option α) × σ}
  {body : Option (Func σ ε α) → World σ ε α → Except (Thrown ε) (Option α) × World σ ε α}
  {exceeded : Thrown ε} {func : Option (Func σ ε α)} {funcs : List (Option (Func σ ε α))}
  {w w' : World σ ε α} {r : Except (Thrown ε) α}

theorem Follows.stop (hbody : Runs body trial)
    (h : FirstAccepted trial exceeded w.outside (func :: funcs) [func] r)
    (houtside : w'.outside = (body func w).2.outside)
    (hinvoked : w'.invoked = (body func w).2.invoked) :
    Follows trial exceeded (func :: funcs) w (r, w') := by
  rw [hbody] at houtside hinvoked
  exact ⟨[func], h, houtside, hinvoked⟩

theorem Follows.goOn {result : Except (Thrown ε) α × World σ ε α} (hbody : Runs body trial)
    (hfunc : ∀ a, (body func w).1 ≠ .ok (some a)) (hne : funcs ≠ [])
    (houtside : w'.outside = (body func w).2.outside)
    (hinvoked : w'.invoked = (body func w).2.invoked)
    (h : Follows trial exceeded funcs w' result) :
    Follows trial exceeded (func :: funcs) w result := by
  rw [hbody] at hfunc houtside hinvoked
  obtain ⟨tried, htried, hout, hinv⟩ := h
  rw [houtside] at htried hout
  refine ⟨func :: tried, htried.cons hfunc hne, hout, ?_⟩
  rw [hinv, hinvoked, List.append_assoc, ← List.reduceOption_append]
  rfl

end Follows

section Loops

variable {extractExceptionMessage : Thrown ε → String} {operation : String}

theorem paramsLoop_follows {body : Option (Func σ ε α) → World σ ε α →
      Except (Thrown ε) (Option α) × World σ ε α}
    {trial : Option (Func σ ε α) → σ → Except (Thrown ε) (Option α) × σ} {exceeded : Thrown ε}
    {count : Nat} (hbody : Runs body trial) (funcs : List (Option (Func σ ε α)))
    (w : World σ ε α) :
    Follows trial exceeded funcs w
      (paramsLoop extractExceptionMessage operation body exceeded count funcs funcs.length w) := by
  induction funcs generalizing w with
  | nil => exact ⟨[], .empty, rfl, (List.append_nil _).symm⟩
  | cons func funcs ih =>
    have hremain : ((func :: funcs).length : Int) - 1 = funcs.length := by simp
    have hanswer : (trial func w.outside).1 = (body func w).1 := by rw [hbody]
    simp only [paramsLoop, hremain]
    rcases hr : body func w with ⟨(ex | (_ | result)), w'⟩ <;> rw [hr] at hanswer
    · rcases eq_or_ne funcs [] with rfl | hne
      · -- the exception of the last function is thrown
        exact Follows.stop hbody (.single_thrown hanswer) (by rw [hr]; rfl) (by rw [hr]; rfl)
      · have hpos : ¬ (funcs.length : Int) ≤ 0 := by
          have := List.length_pos_iff.mpr hne
          omega
        simp only [hpos, if_false]
        exact Follows.goOn hbody (by simp [hr]) hne (by rw [hr]; rfl) (by rw [hr]; rfl) (ih _)
    · rcases eq_or_ne funcs [] with rfl | hne
      · exact Follows.stop hbody (.single_unsuitable hanswer) (by rw [hr]) (by rw [hr])
      · exact Follows.goOn hbody (by simp [hr]) hne (by rw [hr]) (by rw [hr]) (ih w')
    · exact Follows.stop hbody (.head hanswer) (by rw [hr]) (by rw [hr])

theorem enumerableLoop_follows (funcs : List (Option (Func σ ε α)))
    (lastIterationException : Option (Thrown ε)) (iteration : Nat) (w : World σ ε α)
    (h : funcs = [] → lastIterationException = none) :
    Follows returnedTrial (.argument "funcs for TryChain with empty list") funcs w
      (enumerableLoop extractExceptionMessage operation funcs lastIterationException iteration
        w) := by
  induction funcs generalizing lastIterationException iteration w with
  | nil =>
    rw [h rfl]
    exact ⟨[], .empty, rfl, (List.append_nil _).symm⟩
  | cons func funcs ih =>
    have hbody : returned func w = ((call func w).1.map some, (call func w).2) := rfl
    have hanswer : (returnedTrial func w.outside).1 = (returned func w).1 := by
      rw [returned_runs]
    simp only [enumerableLoop]
    rcases hr : call func w with ⟨(ex | result), w'⟩ <;> rw [hr] at hbody <;> rw [hbody] at hanswer
    · rcases eq_or_ne funcs [] with rfl | hne
      · exact Follows.stop returned_runs (.single_thrown hanswer) (by rw [hbody]; rfl)
          (by rw [hbody]; rfl)
      · refine Follows.goOn returned_runs (by simp [hbody, Except.map]) hne (by rw [hbody]; rfl)
          (by rw [hbody]; rfl) (ih _ _ _ fun he => absurd he hne)
    · exact Follows.stop returned_runs (.head hanswer) (by rw [hbody]) (by rw [hbody])

/-- A law of what is called and what flies out leaves no choice. -/
theorem Follows.unique {trial : Option (Func σ ε α) → σ → Except (Thrown ε) (Option α) × σ}
    {exceeded : Thrown ε} {funcs : List (Option (Func σ ε α))} {w : World σ ε α}
    {r r' : Except (Thrown ε) α × World σ ε α} (h : Follows trial exceeded funcs w r)
    (h' : Follows trial exceeded funcs w r') :
    r.1 = r'.1 ∧ r.2.outside = r'.2.outside ∧ r.2.invoked = r'.2.invoked := by
  obtain ⟨tried, htried, hout, hinv⟩ := h
  obtain ⟨tried', htried', hout', hinv'⟩ := h'
  obtain ⟨rfl, hr⟩ := htried.unique htried'
  exact ⟨hr, hout.trans hout'.symm, hinv.trans hinv'.symm⟩

/-- The two ways of bookkeeping differ in what they log only. -/
theorem tryEnumerable_agrees_tryParams (funcs : Option (List (Option (Func σ ε α))))
    (w : World σ ε α) :
    let r := tryEnumerable extractExceptionMessage operation funcs w
    let r' := tryParams extractExceptionMessage operation funcs w
    r.1 = r'.1 ∧ r.2.outside = r'.2.outside ∧ r.2.invoked = r'.2.invoked := by
  cases funcs with
  | none => exact ⟨rfl, rfl, rfl⟩
  | some funcs =>
    exact (enumerableLoop_follows funcs none 0 w fun _ => rfl).unique
      (paramsLoop_follows returned_runs funcs w)

/-- **All members follow one law.**  The functions are called in order up to the first
that returns, or returns what the predicate accepts; if there is none, the exception
of the last one flies out, or the one for an empty or an exceeded list. -/
theorem try_follows [BEq α] [Inhabited α] (funcs : List (Option (Func σ ε α)))
    (actions : List (Option (Func σ ε Unit))) (isSuitValue : Option (Predicate σ ε α))
    (w : World σ ε α) (v : World σ ε Unit) :
    Follows returnedTrial (.argument "funcs for TryChain with empty list") funcs w
        (tryEnumerable extractExceptionMessage operation (some funcs) w) ∧
      Follows returnedTrial (.argument "funcs for TryChain with empty list") funcs w
        (tryParams extractExceptionMessage operation (some funcs) w) ∧
      Follows returnedTrial (.argument "funcs for TryChain with empty list") actions v
        (tryActions extractExceptionMessage operation (some actions) v) ∧
      Follows (suitableTrial (isSuitValue.getD notDefault))
        (.exception "funcs for TryChain list is exceeded") funcs w
        (tryWhileNotPredicate extractExceptionMessage operation isSuitValue (some funcs) w) := by
  refine ⟨?enumerable, ?params, ?actions, ?predicate⟩
  case enumerable => exact enumerableLoop_follows funcs none 0 w fun _ => rfl
  case params => exact paramsLoop_follows returned_runs funcs w
  case actions => exact enumerableLoop_follows actions none 0 v fun _ => rfl
  case predicate => exact paramsLoop_follows (suitable_runs _) funcs w

end Loops

end Garbage.Monads.TryChain
