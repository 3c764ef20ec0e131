import Garbage.Foundation.Completion
import Garbage.ScopeGuards.Cleanup

/-!
# The exception tracker

The system calls `VectoredHandler` in the place where an exception is raised, before it
looks for a handler, so that an exception in one of the operations of `trackerHandler`
calls it again on top of itself.  `_enterCount` ends this: the second call only writes a
line, and the third one does nothing.

An operation may raise any number of exceptions while it runs, handled inside or not,
and it may change the last error (`Response`).  What it does may depend on all that was
done before, of which `clock` is the number of operations.  An exception that leaves an
operation is caught by `catch (...)`.

`_LdrLockLoaderLock` waits for the lock, which a thread can take more than once.

`_enterCount` is an `int` in the code.  The handler does not count beyond three by itself,
so a number does as well.
-/

namespace Garbage.ExceptionTracker

open Foundation.Unwinding (Thread Exit Code)
open ScopeGuards (World guarded onMemory)

inductive Operation
  | logInfo
  | logString (text : String)
  | logStringLine (text : String)
  | logHexUnsigned (n : ℕ)
  | logEndLine
  | logError (text : String)
  | formatMessage (exceptionCode : ℕ)
  /-- `logStringLine` of the message that was found -/
  | logMessage
  | showCallstack
  deriving DecidableEq

/-- What an operation does besides its work. -/
structure Response where
  /-- the codes of the exceptions that are raised in it -/
  raises : List ℕ
  /-- an exception leaves it -/
  leaves : Bool
  lastError : ℕ

structure Tracker where
  enterCount : ℕ
  lastError : ℕ
  /-- `_Locked` of the lock -/
  locked : Bool
  /-- how often the thread has the lock of the loader -/
  lockDepth : ℕ
  clock : ℕ
  log : List Operation

structure Environment where
  /-- both functions of NTDLL for the lock were found -/
  canLock : Bool
  ntdll : Bool
  dontFilterCPPException : Bool
  respond : ℕ → Operation → Response

def CPP_EXCEPTION_CODE : ℕ := 0xE06D7363

def severity (exceptionCode : ℕ) : String :=
  if exceptionCode ≤ 0x3FFFFFFF then "SUCCESS_EXCEPTION_STATUS"
  else if 0x40000000 ≤ exceptionCode ∧ exceptionCode ≤ 0x7FFFFFFF then
    "INFORMATION_EXCEPTION_STATUS"
  else if 0x80000000 ≤ exceptionCode ∧ exceptionCode ≤ 0xBFFFFFFF then
    "WARNING_EXCEPTION_STATUS"
  else "ERROR_EXCEPTION_STATUS"

def logSeverity (exceptionCode : ℕ) : List Operation :=
  [.logString "[", .logString (severity exceptionCode), .logString "]"]

def logExceptionInfo (ntdll : Bool) (exceptionCode : ℕ) : List Operation :=
  if ntdll then
    [.logString "Probably diagnostic message: ", .formatMessage exceptionCode, .logMessage]
  else []

/-- The operations of a call that is not within another one. -/
def report (ntdll : Bool) (exceptionCode : ℕ) (isUnhandled : Bool) : List Operation :=
  [.logInfo, .logString " "] ++ logSeverity exceptionCode ++
  (if exceptionCode = CPP_EXCEPTION_CODE then [.logString " C++"] else []) ++
  [.logString (if isUnhandled then " Unhandled exception code: " else " Exception code: 0x"),
    .logHexUnsigned exceptionCode, .logEndLine] ++
  logExceptionInfo ntdll exceptionCode ++
  [.logStringLine "Symbols loading...", .showCallstack, .logStringLine "End stack trace."]

def errorLine : Operation := .logError "Exception while stack trace logging!"

section Handler

variable (env : Environment)

def Tracker.lock (m : Tracker) : Tracker :=
  { m with locked := env.canLock, lockDepth := m.lockDepth + if env.canLock then 1 else 0 }

def Tracker.unlock (m : Tracker) : Tracker :=
  { m with locked := false, lockDepth := m.lockDepth - if env.canLock then 1 else 0 }

/-- `++_enterCount` -/
def Tracker.enter (m : Tracker) : Tracker := { m with enterCount := m.enterCount + 1 }

/-- `if(_enterCount>0) --_enterCount` -/
def Tracker.leave (m : Tracker) : Tracker := { m with enterCount := m.enterCount - 1 }

/-- The system calls the handler for each exception that is raised. -/
def raiseAll (handler : ℕ → Code (World Tracker)) (codes : List ℕ) : Code (World Tracker) :=
  codes.foldr (fun code rest => (handler code).andThen rest) Code.skip

/-- An operation of which the environment makes `response`. -/
def performed (handler : ℕ → Code (World Tracker)) (op : Operation) (response : Response) :
    Code (World Tracker) :=
  (onMemory fun m => { m with clock := m.clock + 1, log := m.log ++ [op] }).andThen
    ((raiseAll handler response.raises).andThen
      ((onMemory fun m => { m with lastError := response.lastError }).andThen
        (if response.leaves then Code.throw_ else Code.skip)))

def operation (handler : ℕ → Code (World Tracker)) (op : Operation) : Code (World Tracker) :=
  fun t => performed handler op (env.respond t.data.memory.clock op) t

def operations (handler : ℕ → Code (World Tracker)) (ops : List Operation) :
    Code (World Tracker) :=
  ops.foldr (fun op rest => (operation env handler op).andThen rest) Code.skip

/-- `StackWalker::Locker` and the rest of its scope. -/
def withLocker (rest : Code (World Tracker)) : Code (World Tracker) :=
  (onMemory (Tracker.lock env)).andThen (Code.scope rest fun _ => onMemory (Tracker.unlock env))

/-- What the call does depends on how many calls there are. -/
def branch (handler : ℕ → Code (World Tracker)) (exceptionCode : ℕ) (isUnhandled : Bool) :
    Code (World Tracker) := fun t =>
  if t.data.memory.enterCount ≥ 3 then Code.skip t
  else if t.data.memory.enterCount ≥ 2 then operation env handler errorLine t
  else operations env handler (report env.ntdll exceptionCode isUnhandled) t

/-- What the call does with the lock. -/
def underLock (handler : ℕ → Code (World Tracker)) (exceptionCode : ℕ) (isUnhandled : Bool) :
    Code (World Tracker) := fun t =>
  if t.data.memory.locked then
    ((onMemory Tracker.enter).andThen
      (guarded .exit (onMemory Tracker.leave) (branch env handler exceptionCode isUnhandled))) t
  else Code.skip t

def vectoredHandler (trackerHandler : ℕ → Bool → Code (World Tracker)) (exceptionCode : ℕ) :
    Code (World Tracker) :=
  if exceptionCode = CPP_EXCEPTION_CODE ∧ ¬ env.dontFilterCPPException then Code.skip
  else trackerHandler exceptionCode false

/-- `trackerHandler`, with a bound on how deep it is called within itself. -/
def trackerHandler : ℕ → ℕ → Bool → Code (World Tracker)
  | 0, _, _ => fun _ => none
  | n + 1, exceptionCode, isUnhandled =>
    Code.tryCatch (fun _ => true) (fun t =>
      guarded .exit (onMemory fun m => { m with lastError := t.data.memory.lastError })
        (withLocker env (underLock env (vectoredHandler env (trackerHandler n)) exceptionCode
          isUnhandled)) t) Code.skip

end Handler

/-! ### What is written -/

/-- The counts are as before, and the log has grown by lines with `N`. -/
structure Grows (N : Operation → Prop) (d d' : World Tracker) : Prop where
  enterCount : d'.memory.enterCount = d.memory.enterCount
  lockDepth : d'.memory.lockDepth = d.memory.lockDepth
  log : ∃ lines, d'.memory.log = d.memory.log ++ lines ∧ ∀ op ∈ lines, N op

theorem Grows.refl (N : Operation → Prop) (d : World Tracker) : Grows N d d :=
  ⟨rfl, rfl, [], by simp, by simp⟩

theorem Grows.trans {N : Operation → Prop} {d₁ d₂ d₃ : World Tracker} (h : Grows N d₁ d₂)
    (h' : Grows N d₂ d₃) : Grows N d₁ d₃ := by
  obtain ⟨lines, hlog, hN⟩ := h.log
  obtain ⟨lines', hlog', hN'⟩ := h'.log
  refine ⟨h'.enterCount.trans h.enterCount, h'.lockDepth.trans h.lockDepth, lines ++ lines', ?_, ?_⟩
  · rw [hlog', hlog, List.append_assoc]
  · intro op hop
    exact (List.mem_append.mp hop).elim (hN op) (hN' op)

/-- A handler that can be called when `_enterCount` is `c`. -/
def Nests (c : ℕ) (N : Operation → Prop) (handler : ℕ → Code (World Tracker)) : Prop :=
  ∀ code t, t.data.memory.enterCount = c → Code.Completes (handler code) t fun e t' =>
    e = .normal ∧ t'.uncaught = t.uncaught ∧ Grows N t.data t'.data

section Written

variable {env : Environment} {handler : ℕ → Code (World Tracker)} {c : ℕ} {N : Operation → Prop}
  {t : Thread (World Tracker)}

theorem completes_raiseAll (hh : Nests c N handler) (codes : List ℕ)
    (ht : t.data.memory.enterCount = c) : Code.Completes (raiseAll handler codes) t fun e t' =>
      e = .normal ∧ t'.uncaught = t.uncaught ∧ Grows N t.data t'.data := by
  induction codes generalizing t with
  | nil => exact Code.completes_skip ⟨rfl, rfl, .refl N _⟩
  | cons code codes ih =>
    obtain ⟨e, t₁, hx, rfl, hcount, hgrows⟩ := hh code t ht
    obtain ⟨e, t₂, hy, rfl, hcount', hgrows'⟩ := ih (hgrows.enterCount.trans ht)
    exact Code.completes_andThen_normal hx
      ⟨.normal, t₂, hy, rfl, hcount'.trans hcount, hgrows.trans hgrows'⟩

def Environment.Calm (env : Environment) : Prop := ∀ k op, (env.respond k op).leaves = false

/-- How an operation ends: with its own line, and behind it those of the nested calls. -/
def OperationEnds (env : Environment) (N : Operation → Prop) (op : Operation)
    (t : Thread (World Tracker)) (e : Exit) (t' : Thread (World Tracker)) : Prop :=
  t'.uncaught = t.uncaught + e.count ∧
    t'.data.memory.enterCount = t.data.memory.enterCount ∧
    t'.data.memory.lockDepth = t.data.memory.lockDepth ∧
    (∃ lines, t'.data.memory.log = t.data.memory.log ++ op :: lines ∧ ∀ x ∈ lines, N x) ∧
    (env.Calm → e = .normal)

theorem completes_operation (env : Environment) (hh : Nests c N handler) (op : Operation)
    (ht : t.data.memory.enterCount = c) :
    Code.Completes (operation env handler op) t (OperationEnds env N op t) := by
  obtain ⟨e, t₁, hx, rfl, hcount, hgrows⟩ := completes_raiseAll hh
    (env.respond t.data.memory.clock op).raises (t := ⟨t.uncaught, { t.data with memory :=
      { t.data.memory with clock := t.data.memory.clock + 1, log := t.data.memory.log ++ [op] } }⟩)
    ht
  obtain ⟨lines, hlog, hN⟩ := hgrows.log
  have hlines : ∃ lines, t₁.data.memory.log = t.data.memory.log ++ op :: lines ∧ ∀ x ∈ lines, N x :=
    ⟨lines, by simpa using hlog, hN⟩
  show Code.Completes (performed handler op _) t _
  refine Code.completes_andThen_normal rfl (Code.completes_andThen_normal hx
    (Code.completes_andThen_normal rfl ?_))
  cases hleaves : (env.respond t.data.memory.clock op).leaves with
  | false =>
    exact Code.completes_skip ⟨hcount, hgrows.enterCount, hgrows.lockDepth, hlines, fun _ => rfl⟩
  | true =>
    refine Code.completes_throw ⟨congrArg (· + 1) hcount, hgrows.enterCount, hgrows.lockDepth,
      hlines, fun hcalm => ?_⟩
    rw [hcalm] at hleaves
    cases hleaves

/-- The lines that are not from nested calls. -/
def own (lines : List Operation) : List Operation := lines.filter (· ≠ errorLine)

theorem own_cons {op : Operation} {lines rest : List Operation} (hop : op ≠ errorLine)
    (hlines : ∀ x ∈ lines, x = errorLine) : own (op :: lines ++ rest) = op :: own rest := by
  simpa [own, hop] using hlines

/-- How a row of operations ends: with their own lines in order, up to the one that an exception
left. -/
def OperationsEnd (env : Environment) (ops : List Operation) (t : Thread (World Tracker))
    (e : Exit) (t' : Thread (World Tracker)) : Prop :=
  t'.uncaught = t.uncaught + e.count ∧
    t'.data.memory.enterCount = t.data.memory.enterCount ∧
    t'.data.memory.lockDepth = t.data.memory.lockDepth ∧
    (∃ lines, t'.data.memory.log = t.data.memory.log ++ lines ∧ own lines <+: ops ∧
      (env.Calm → own lines = ops))

theorem completes_operations (hh : Nests c (· = errorLine) handler) {ops : List Operation}
    (hops : ∀ op ∈ ops, op ≠ errorLine) (ht : t.data.memory.enterCount = c) :
    Code.Completes (operations env handler ops) t (OperationsEnd env ops t) := by
  induction ops generalizing t with
  | nil => exact Code.completes_skip ⟨rfl, rfl, rfl, [], by simp, by simp [own], fun _ => rfl⟩
  | cons op ops ih =>
    have hop := hops op List.mem_cons_self
    obtain ⟨e, t₁, hx, hcount, hc, hdepth, ⟨lines, hlog, hlines⟩, hcalm⟩ :=
      completes_operation env hh op ht
    cases e with
    | raised =>
      refine Code.completes_andThen_raised hx ⟨hcount, hc, hdepth, op :: lines, hlog, ?_, ?_⟩
      · rw [← List.append_nil (op :: lines), own_cons hop hlines]
        simp [own]
      · exact fun h => absurd (hcalm h) (by simp)
    | normal =>
      obtain ⟨e, t₂, hy, hcount', hc', hdepth', lines', hlog', hprefix, hall⟩ :=
        ih (fun op hop => hops op (List.mem_cons_of_mem _ hop)) (hc.trans ht)
      refine Code.completes_andThen_normal hx ⟨e, t₂, hy, ?_, hc'.trans hc, hdepth'.trans hdepth,
        op :: lines ++ lines', ?_, ?_, ?_⟩
      · rw [hcount', hcount]
        rfl
      · rw [hlog', hlog, List.append_assoc]
      · rw [own_cons hop hlines]
        exact (List.prefix_cons_inj op).mpr hprefix
      · intro h
        rw [own_cons hop hlines, hall h]

/-! ### The handler -/

/-- The lines of a call that finds the count `c`. -/
def Reports (env : Environment) (exceptionCode : ℕ) (isUnhandled : Bool) :
    ℕ → List Operation → Prop
  | 0, lines => own lines <+: report env.ntdll exceptionCode isUnhandled ∧
      (env.Calm → own lines = report env.ntdll exceptionCode isUnhandled)
  | 1, lines => lines = [errorLine]
  | _, lines => lines = []

theorem report_ne_errorLine (ntdll : Bool) (exceptionCode : ℕ) (isUnhandled : Bool) :
    ∀ op ∈ report ntdll exceptionCode isUnhandled, op ≠ errorLine := by
  intro op hop
  rintro rfl
  cases ntdll <;> by_cases hcode : exceptionCode = CPP_EXCEPTION_CODE <;>
    simp [report, errorLine, logSeverity, logExceptionInfo, hcode] at hop

def HandlerEnds (env : Environment) (exceptionCode : ℕ) (isUnhandled : Bool)
    (t t' : Thread (World Tracker)) : Prop :=
  t'.uncaught = t.uncaught ∧
    t'.data.memory.enterCount = t.data.memory.enterCount ∧
    t'.data.memory.lockDepth = t.data.memory.lockDepth ∧
    t'.data.memory.lastError = t.data.memory.lastError ∧
    ∃ lines, t'.data.memory.log = t.data.memory.log ++ lines ∧
      if env.canLock then Reports env exceptionCode isUnhandled t.data.memory.enterCount lines
      else lines = []

/-- The calls that the operations of a call that found the count `c` may lead to. -/
def NestedAt (c : ℕ) (handler : ℕ → Code (World Tracker)) : Prop :=
  c < 2 → Nests (c + 1) (fun op => c = 0 ∧ op = errorLine) handler

/-- How the rest of a call ends, before `_enterCount` goes down again. -/
def EnteredEnds (env : Environment) (exceptionCode : ℕ) (isUnhandled : Bool) (c : ℕ)
    (t : Thread (World Tracker)) (e : Exit) (t' : Thread (World Tracker)) : Prop :=
  t'.uncaught = t.uncaught + e.count ∧
    t'.data.memory.enterCount = t.data.memory.enterCount ∧
    t'.data.memory.lockDepth = t.data.memory.lockDepth ∧
    ∃ lines, t'.data.memory.log = t.data.memory.log ++ lines ∧
      Reports env exceptionCode isUnhandled c lines

variable (env)

theorem completes_branch (hh : NestedAt c handler) (ht : t.data.memory.enterCount = c + 1)
    (exceptionCode : ℕ) (isUnhandled : Bool) :
    Code.Completes (branch env handler exceptionCode isUnhandled) t
      (EnteredEnds env exceptionCode isUnhandled c t) := by
  unfold Code.Completes
  simp only [branch, ht]
  obtain rfl | rfl | ⟨c, rfl⟩ : c = 0 ∨ c = 1 ∨ ∃ k, c = k + 2 := by
    obtain _ | _ | k := c
    · exact .inl rfl
    · exact .inr (.inl rfl)
    · exact .inr (.inr ⟨k, rfl⟩)
  · have hnests : Nests 1 (· = errorLine) handler := by
      intro code t ht
      refine (hh (by omega) code t ht).mono fun e t' h => ⟨h.1, h.2.1, ?_⟩
      obtain ⟨hc, hdepth, lines, hlog, hlines⟩ := h.2.2
      exact ⟨hc, hdepth, lines, hlog, fun op hop => (hlines op hop).2⟩
    exact completes_operations hnests (report_ne_errorLine _ _ _) ht
  · refine (completes_operation _ (hh (by omega)) errorLine ht).mono fun e t' h => ?_
    obtain ⟨hcount, hc, hdepth, ⟨lines, hlog, hlines⟩, -⟩ := h
    have hnil : lines = [] := List.eq_nil_iff_forall_not_mem.mpr fun op hop =>
      absurd (hlines op hop).1 (by decide)
    subst hnil
    exact ⟨hcount, hc, hdepth, [errorLine], hlog, rfl⟩
  · have h₃ : c + 2 + 1 ≥ 3 := by omega
    simp only [if_pos h₃]
    exact Code.completes_skip ⟨rfl, rfl, rfl, [], by simp, rfl⟩

/-- How the part of a call that has the lock ends. -/
def LockedEnds (exceptionCode : ℕ) (isUnhandled : Bool) (t : Thread (World Tracker)) (e : Exit)
    (t' : Thread (World Tracker)) : Prop :=
  t'.uncaught = t.uncaught + e.count ∧
    t'.data.memory.enterCount = t.data.memory.enterCount ∧
    t'.data.memory.lockDepth = t.data.memory.lockDepth ∧
    ∃ lines, t'.data.memory.log = t.data.memory.log ++ lines ∧
      if t.data.memory.locked then
        Reports env exceptionCode isUnhandled t.data.memory.enterCount lines
      else lines = []

theorem completes_underLock (hh : NestedAt c handler) (ht : t.data.memory.enterCount = c)
    (exceptionCode : ℕ) (isUnhandled : Bool) :
    Code.Completes (underLock env handler exceptionCode isUnhandled) t
      (LockedEnds env exceptionCode isUnhandled t) := by
  cases hlocked : t.data.memory.locked with
  | false =>
    refine ⟨.normal, t, by simp only [underLock, hlocked]; rfl, rfl, rfl, rfl, [], by simp, ?_⟩
    rw [hlocked]
    rfl
  | true =>
    have hentered := ScopeGuards.completes_guarded_exit (f := Tracker.leave)
      (completes_branch env (t := ScopeGuards.opened ⟨t.uncaught, { t.data with
        memory := t.data.memory.enter }⟩) hh (congrArg (· + 1) ht) exceptionCode isUnhandled)
    obtain ⟨e, t₂, hx, t₁, ⟨hcount, hc, hdepth, lines, hlog, hlines⟩, huncaught, hmemory⟩ :=
      Code.completes_andThen_normal (x := onMemory Tracker.enter) (t := t) rfl hentered
    refine ⟨e, t₂, by simp only [underLock, hlocked, if_true, hx], ?_, ?_, ?_, lines, ?_, ?_⟩
    · rw [huncaught, hcount]
      rfl
    · rw [hmemory]
      exact congrArg (· - 1) hc
    · rw [hmemory]
      exact hdepth
    · rw [hmemory]
      exact hlog
    · rw [hlocked, ht]
      exact hlines

/-- The call that `VectoredHandler` makes, if it makes one. -/
theorem nestedAt_of_handler {tracker : ℕ → Bool → Code (World Tracker)}
    (h : c < 2 → ∀ code t, t.data.memory.enterCount = c + 1 →
      Code.Completes (tracker code false) t fun e t' =>
        e = .normal ∧ HandlerEnds env code false t t') :
    NestedAt c (vectoredHandler env tracker) := by
  intro hlt code t ht
  unfold vectoredHandler
  split
  · exact Code.completes_skip ⟨rfl, rfl, .refl _ _⟩
  · refine (h hlt code t ht).mono fun e t' h => ?_
    obtain ⟨he, hcount, hc, hdepth, -, lines, hlog, hlines⟩ := h
    refine ⟨he, hcount, hc, hdepth, lines, hlog, ?_⟩
    rw [ht] at hlines
    split at hlines
    · cases c with
      | zero =>
        have hlines : lines = [errorLine] := hlines
        simp [hlines]
      | succ c =>
        have hlines : lines = [] := hlines
        simp [hlines]
    · simp [hlines]

theorem completes_withLocker (hh : NestedAt c handler) (ht : t.data.memory.enterCount = c)
    (exceptionCode : ℕ) (isUnhandled : Bool) :
    Code.Completes (withLocker env (underLock env handler exceptionCode isUnhandled)) t
      fun e t' => t'.uncaught = t.uncaught + e.count ∧
        t'.data.memory.enterCount = t.data.memory.enterCount ∧
        t'.data.memory.lockDepth = t.data.memory.lockDepth ∧
        ∃ lines, t'.data.memory.log = t.data.memory.log ++ lines ∧
          if env.canLock then
            Reports env exceptionCode isUnhandled t.data.memory.enterCount lines
          else lines = [] := by
  have hlocked := ScopeGuards.completes_scope_onMemory (f := Tracker.unlock env)
    (completes_underLock env (t := ⟨t.uncaught, { t.data with memory := t.data.memory.lock env }⟩)
      hh ht exceptionCode isUnhandled)
  refine Code.completes_andThen_normal rfl (hlocked.mono fun e t' h => ?_)
  obtain ⟨t₁, ⟨hcount, hc, hdepth, hlines⟩, huncaught, hmemory⟩ := h
  rw [hmemory, huncaught]
  refine ⟨hcount, hc, ?_, hlines⟩
  simp only [Tracker.unlock, hdepth, Tracker.lock]
  omega

end Written

/-- Each operation raises an access violation, and half of them do not get over it. -/
def faulty : Environment where
  canLock := true
  ntdll := true
  dontFilterCPPException := false
  respond k _ := ⟨[0xC0000005], k % 2 = 1, 5⟩

end Garbage.ExceptionTracker
