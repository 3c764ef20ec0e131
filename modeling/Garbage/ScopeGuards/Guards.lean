import Garbage.Foundation.Unwinding
import Mathlib.Order.Defs.Unbundled

/-!
# Scope guards

A guard keeps the number of exceptions that propagated when it was made.  Its
destructor compares it with the number now: if they differ, its scope fails.
(The other branch of `ExceptionDetector` is for a macro that nobody defines, its
name has a letter that only looks like a C.)

A program opens scopes, throws and catches in any nesting, in destructors and
in the bodies of guards, too.  It may decide on anything, so a loop or a call
is the program that it comes to.  The scope of a guard is what follows its
declaration.

The log has, for each guard, how its scope was left, when its body ran and how
its destructor ended.  No code reads it.  `Settled` logs are those in which
each guard has the history that its kind asks for, and every program that does
not terminate leaves one (`guards_detect_exit`).
-/

namespace Garbage.ScopeGuards

open Foundation.Unwinding (Thread Exit Code)

inductive Kind
  | exit
  | failure
  | success
  deriving DecidableEq

inductive Event
  /-- how the scope of the guard was left -/
  | left (guard : Nat) (kind : Kind) (how : Exit)
  /-- the body of the guard runs -/
  | ran (guard : Nat)
  /-- how the destructor of the guard ended -/
  | destroyed (guard : Nat) (how : Exit)
  deriving DecidableEq

def Event.guard : Event → Nat
  | .left guard _ _ => guard
  | .ran guard => guard
  | .destroyed guard _ => guard

/-- The memory of the program, the number of guards made so far and the log. -/
structure World (σ : Type) where
  memory : σ
  guards : Nat
  log : List Event

variable {σ : Type}

def record (ev : Event) : Code (World σ) := Code.effect fun w => { w with log := w.log ++ [ev] }

/-! ### The guards -/

structure ExceptionDetector where
  exceptionCount : Nat

namespace ExceptionDetector

def new (t : Thread (World σ)) : ExceptionDetector := ⟨t.uncaught⟩

def uncaughtExceptionOnCurrentLevel (d : ExceptionDetector) (t : Thread (World σ)) : Bool :=
  d.exceptionCount != t.uncaught

end ExceptionDetector

variable (d : ExceptionDetector) (executer : Code (World σ))

def ScopeExit.destructor : Code (World σ) := fun t =>
  let onException := d.uncaughtExceptionOnCurrentLevel t
  Code.tryCatch (fun _ => true) executer (if !onException then Code.throw_ else Code.skip) t

def ScopeFailureExit.destructor : Code (World σ) := Code.nothrow fun t =>
  if d.uncaughtExceptionOnCurrentLevel t then
    Code.tryCatch (fun _ => true) executer Code.skip t
  else Code.skip t

def ScopeSuccessExit.destructor : Code (World σ) := fun t =>
  if !d.uncaughtExceptionOnCurrentLevel t then executer t else Code.skip t

def Kind.destructor : Kind → Code (World σ)
  | .exit => ScopeExit.destructor d executer
  | .failure => ScopeFailureExit.destructor d executer
  | .success => ScopeSuccessExit.destructor d executer

/-! ### Programs -/

inductive Program (σ : Type)
  | effect (f : σ → σ)
  /-- a throw, or a rethrow -/
  | throw_
  | seq (first second : Program σ)
  /-- what comes next depends on `std::uncaught_exceptions()` and the memory -/
  | depends (choice : Nat → σ → Program σ)
  | tryCatch (catches : σ → Bool) (body handler : Program σ)
  | nothrow (body : Program σ)
  /-- an object with a destructor, and the rest of its scope -/
  | object (destructor rest : Program σ)
  /-- a guard with its body, and the rest of its scope -/
  | guard (kind : Kind) (body rest : Program σ)

/-- The thread after the declaration of a guard. -/
def opened (t : Thread (World σ)) : Thread (World σ) :=
  { t with data := { t.data with guards := t.data.guards + 1 } }

/-- The destructor of the guard that is declared in `t`. -/
def atExit (kind : Kind) (body : Code (World σ)) (t : Thread (World σ)) : Code (World σ) :=
  kind.destructor (ExceptionDetector.new t) ((record (.ran t.data.guards)).andThen body)

/-- The destructor `x` of a guard, with its log. -/
def logged (guard : Nat) (kind : Kind) (x : Code (World σ)) (how : Exit) : Code (World σ) :=
  (record (.left guard kind how)).andThen
    (x.observed fun out w => { w with log := w.log ++ [.destroyed guard out] })

def guarded (kind : Kind) (body rest : Code (World σ)) : Code (World σ) := fun t =>
  Code.scope rest (logged t.data.guards kind (atExit kind body t)) (opened t)

def Program.exec : Program σ → Code (World σ)
  | .effect f => Code.effect fun w => { w with memory := f w.memory }
  | .throw_ => Code.throw_
  | .seq first second => first.exec.andThen second.exec
  | .depends choice => fun t => (choice t.uncaught t.data.memory).exec t
  | .tryCatch catches body handler =>
    Code.tryCatch (fun w => catches w.memory) body.exec handler.exec
  | .nothrow body => Code.nothrow body.exec
  | .object destructor rest => Code.scope rest.exec fun _ => destructor.exec
  | .guard kind body rest => guarded kind body.exec rest.exec

/-- A thread that has made no guards, while `n` exceptions propagate. -/
def start (n : Nat) (memory : σ) : Thread (World σ) := ⟨n, memory, 0, []⟩

/-! ### What should hold -/

/-- The body of a guard runs after its scope was left. -/
def Kind.runs : Kind → Exit → Bool
  | .exit, _ => true
  | .failure, how => how = .raised
  | .success, how => how = .normal

/-- An exception may come out of a guard of this kind. -/
def Kind.mayThrow : Kind → Exit → Bool
  | .failure, _ => false
  | _, how => how = .normal

def history (guard : Nat) (kind : Kind) (how out : Exit) : List Event :=
  .left guard kind how :: (if kind.runs how then [.ran guard] else []) ++ [.destroyed guard out]

/-- The events are about the guards from `lo` to `hi`, and each of them has the
history of its kind. -/
structure Settled (lo hi : Nat) (events : List Event) : Prop where
  guard_le : ∀ ev ∈ events, lo ≤ ev.guard
  guard_lt : ∀ ev ∈ events, ev.guard < hi
  histories : ∀ guard, lo ≤ guard → guard < hi → ∃ kind how out,
    (out = .raised → kind.mayThrow how = true) ∧
      events.filter (fun ev => ev.guard = guard) = history guard kind how out

/-- The log has grown by a settled one. -/
def Grown (w w' : World σ) : Prop :=
  w.guards ≤ w'.guards ∧ ∃ new, w'.log = w.log ++ new ∧ Settled w.guards w'.guards new

/-! ### Settled logs -/

section Settled

variable {lo mid hi guard : Nat} {a b : List Event}

theorem Settled.nil (n : Nat) : Settled n n [] :=
  ⟨nofun, nofun, fun _ hlo hhi => absurd hhi (Nat.not_lt_of_le hlo)⟩

/-- Settled events are silent about the other guards. -/
theorem Settled.filter_eq_nil (h : Settled lo hi a) (hguard : guard < lo ∨ hi ≤ guard) :
    a.filter (fun ev => ev.guard = guard) = [] := by
  refine List.filter_eq_nil_iff.mpr fun ev hev => ?_
  have hle := h.guard_le ev hev
  have hlt := h.guard_lt ev hev
  rw [decide_eq_true_eq]
  omega

theorem Settled.append (ha : Settled lo mid a) (hb : Settled mid hi b) (hlo : lo ≤ mid)
    (hhi : mid ≤ hi) : Settled lo hi (a ++ b) := by
  refine ⟨fun ev hev => ?_, fun ev hev => ?_, fun guard hge hlt => ?_⟩
  · rcases List.mem_append.mp hev with h | h
    · exact ha.guard_le ev h
    · exact Nat.le_trans hlo (hb.guard_le ev h)
  · rcases List.mem_append.mp hev with h | h
    · exact Nat.lt_of_lt_of_le (ha.guard_lt ev h) hhi
    · exact hb.guard_lt ev h
  · rw [List.filter_append]
    by_cases hmid : guard < mid
    · rw [hb.filter_eq_nil (.inl hmid), List.append_nil]
      exact ha.histories guard hge hmid
    · rw [ha.filter_eq_nil (.inr (Nat.le_of_not_lt hmid)), List.nil_append]
      exact hb.histories guard (Nat.le_of_not_lt hmid) hlt

/-- The log of a guard: that of its scope, how it was left, that of its body. -/
theorem Settled.guarded {kind : Kind} {how out : Exit} (ha : Settled (guard + 1) mid a)
    (hb : Settled mid hi b) (hlo : guard + 1 ≤ mid) (hhi : mid ≤ hi)
    (hout : out = .raised → kind.mayThrow how = true) :
    Settled guard hi (a ++ .left guard kind how :: (if kind.runs how then [.ran guard] else []) ++
      b ++ [.destroyed guard out]) := by
  have hown : ∀ ev ∈ Event.left guard kind how :: (if kind.runs how then [.ran guard] else []),
      ev.guard = guard := by
    intro ev hev
    rcases List.mem_cons.mp hev with rfl | hev
    · rfl
    · split at hev
      · rw [List.mem_singleton.mp hev]
        rfl
      · exact nomatch hev
  have hcases : ∀ ev ∈ a ++ .left guard kind how :: (if kind.runs how then [.ran guard] else []) ++
      b ++ [.destroyed guard out], ev ∈ a ∨ ev ∈ b ∨ ev.guard = guard := by
    intro ev hev
    rcases List.mem_append.mp hev with hev | hev
    · rcases List.mem_append.mp hev with hev | hev
      · exact (List.mem_append.mp hev).imp_right fun h => .inr (hown ev h)
      · exact .inr (.inl hev)
    · rw [List.mem_singleton.mp hev]
      exact .inr (.inr rfl)
  refine ⟨fun ev hev => ?_, fun ev hev => ?_, fun other hge hlt => ?_⟩
  · rcases hcases ev hev with h | h | h
    · exact Nat.le_of_succ_le (ha.guard_le ev h)
    · exact Nat.le_of_succ_le (Nat.le_trans hlo (hb.guard_le ev h))
    · exact Nat.le_of_eq h.symm
  · rcases hcases ev hev with h | h | h
    · exact Nat.lt_of_lt_of_le (ha.guard_lt ev h) hhi
    · exact hb.guard_lt ev h
    · omega
  · simp only [List.filter_append]
    by_cases hother : other = guard
    · subst hother
      have hself := List.filter_eq_self.mpr fun ev hev => decide_eq_true (hown ev hev)
      rw [ha.filter_eq_nil (.inl (Nat.lt_succ_self _)), hb.filter_eq_nil (.inl hlo), hself]
      refine ⟨kind, how, out, hout, ?_⟩
      simp [history, Event.guard]
    · have hnone := List.filter_eq_nil_iff.mpr fun ev hev =>
        show ¬ decide (ev.guard = other) = true from fun h =>
          hother ((of_decide_eq_true h).symm.trans (hown ev hev))
      have hlast : [Event.destroyed guard out].filter (fun ev => ev.guard = other) = [] := by
        simp [Event.guard, Ne.symm hother]
      rw [hnone, hlast, List.append_nil, List.append_nil]
      by_cases hmid : other < mid
      · rw [hb.filter_eq_nil (.inl hmid), List.append_nil]
        exact ha.histories other (by omega) hmid
      · rw [ha.filter_eq_nil (.inr (Nat.le_of_not_lt hmid)), List.nil_append]
        exact hb.histories other (Nat.le_of_not_lt hmid) hlt

end Settled

theorem Grown.of_eq {w w' : World σ} (hguards : w'.guards = w.guards) (hlog : w'.log = w.log) :
    Grown w w' :=
  ⟨Nat.le_of_eq hguards.symm, [], by rw [hlog, List.append_nil], hguards ▸ Settled.nil _⟩

instance : Std.Refl (Grown (σ := σ)) := ⟨fun _ => Grown.of_eq rfl rfl⟩

instance : IsTrans (World σ) Grown := by
  refine ⟨fun w₁ w₂ w₃ h h' => ?_⟩
  obtain ⟨hle, new, hlog, hnew⟩ := h
  obtain ⟨hle', new', hlog', hnew'⟩ := h'
  refine ⟨Nat.le_trans hle hle', new ++ new', ?_, hnew.append hnew' hle hle'⟩
  rw [hlog', hlog, List.append_assoc]

/-! ### The destructors -/

open Foundation.Unwinding.Code (Ends Balanced Within)

variable {d : ExceptionDetector} {executer body rest : Code (World σ)} {kind : Kind}
  {how : Exit} {t t' : Thread (World σ)} {guard : Nat}

theorem balanced_record (ev : Event) : Balanced (record ev : Code (World σ)) :=
  Code.balanced_effect

theorem balanced_destructor (hx : Balanced executer) : Balanced (kind.destructor d executer) := by
  cases kind with
  | exit =>
    intro t
    have hrethrow : Balanced (if !d.uncaughtExceptionOnCurrentLevel t then Code.throw_
        else Code.skip : Code (World σ)) := by
      split
      · exact Code.balanced_throw
      · exact Code.balanced_skip
    have hcaught : Balanced (Code.tryCatch (fun _ => true) executer _) := hx.tryCatch hrethrow
    exact (hcaught t).congr rfl
  | failure =>
    refine Balanced.nothrow fun t => ?_
    by_cases hd : d.uncaughtExceptionOnCurrentLevel t = true
    · exact (hx.tryCatch Code.balanced_skip t).congr (if_pos hd)
    · exact (Code.balanced_skip t).congr (if_neg hd)
  | success =>
    intro t
    by_cases hd : (!d.uncaughtExceptionOnCurrentLevel t) = true
    · exact (hx t).congr (if_pos hd)
    · exact (Code.balanced_skip t).congr (if_neg hd)

theorem balanced_guarded (hbody : Balanced body) (hrest : Balanced rest) :
    Balanced (guarded kind body rest) := by
  intro t
  have hdestructor : Balanced (atExit kind body t) :=
    balanced_destructor ((balanced_record _).andThen hbody)
  exact hrest.scope (fun how => (balanced_record _).andThen hdestructor.observed) (opened t)

theorem exec_balanced (p : Program σ) : Balanced p.exec := by
  induction p with
  | effect f => exact Code.balanced_effect
  | throw_ => exact Code.balanced_throw
  | seq first second ih ih' => exact ih.andThen ih'
  | depends choice ih => exact fun t => ih _ _ t
  | tryCatch catches body handler ih ih' => exact ih.tryCatch ih'
  | nothrow body ih => exact ih.nothrow
  | object destructor rest ih ih' => exact ih'.scope fun _ => ih
  | guard kind body rest ih ih' => exact balanced_guarded ih ih'

theorem uncaughtExceptionOnCurrentLevel_eq (ht : t.uncaught = d.exceptionCount + how.count) :
    d.uncaughtExceptionOnCurrentLevel t = decide (how = .raised) := by
  unfold ExceptionDetector.uncaughtExceptionOnCurrentLevel
  rw [ht]
  cases how with
  | normal => simp [Exit.count]
  | raised => simp [Exit.count]

/-- What a destructor that sees how its scope was left does. -/
theorem destructor_ends {R : World σ → Prop} (ht : t.uncaught = d.exceptionCount + how.count)
    (hx : Ends executer t fun _ t' => R t'.data) :
    Ends (kind.destructor d executer) t fun out t' =>
      (out = .raised → kind.mayThrow how = true) ∧
        if kind.runs how then R t'.data else t'.data = t.data := by
  have hsees := uncaughtExceptionOnCurrentLevel_eq ht
  cases kind with
  | exit =>
    have hcaught : Ends (Code.tryCatch (fun _ => true) executer
        (if how = .normal then Code.throw_ else Code.skip)) t fun out t' =>
          (out = .raised → Kind.mayThrow .exit how = true) ∧ R t'.data := by
      refine Code.ends_tryCatch (hx.mono fun e t' hR => ?_)
      cases e with
      | normal => exact ⟨nofun, hR⟩
      | raised =>
        cases how with
        | normal => exact Code.ends_throw ⟨fun _ => rfl, hR⟩
        | raised => exact Code.ends_skip ⟨nofun, hR⟩
    refine hcaught.congr ?_
    dsimp only [Kind.destructor, ScopeExit.destructor]
    rw [hsees]
    cases how <;> rfl
  | failure =>
    refine Code.ends_nothrow ?_
    cases how with
    | normal =>
      refine Ends.congr (y := Code.skip) (Code.ends_skip ⟨nofun, rfl⟩) ?_
      rw [hsees]
      rfl
    | raised =>
      refine Ends.congr (y := Code.tryCatch (fun _ => true) executer Code.skip) ?_ ?_
      · refine Code.ends_tryCatch (hx.mono fun e t' hR => ?_)
        cases e with
        | normal => exact ⟨nofun, hR⟩
        | raised => exact Code.ends_skip ⟨nofun, hR⟩
      · rw [hsees]
        rfl
  | success =>
    cases how with
    | normal =>
      refine (hx.mono fun e t' hR => ⟨fun _ => rfl, hR⟩).congr ?_
      dsimp only [Kind.destructor, ScopeSuccessExit.destructor]
      rw [hsees]
      rfl
    | raised =>
      refine Ends.congr (y := Code.skip) (Code.ends_skip ⟨nofun, rfl⟩) ?_
      dsimp only [Kind.destructor, ScopeSuccessExit.destructor]
      rw [hsees]
      rfl

/-! ### The histories -/

theorem atExit_ends (kind : Kind) (how : Exit) (ht' : t'.uncaught = t.uncaught + how.count)
    (hbody : Within Grown body) :
    Ends (atExit kind body t) t' fun out t'' =>
      (out = .raised → kind.mayThrow how = true) ∧ t'.data.guards ≤ t''.data.guards ∧
        ∃ b, Settled t'.data.guards t''.data.guards b ∧ t''.data.log = t'.data.log ++
          (if kind.runs how then [.ran t.data.guards] else []) ++ b := by
  have hran : Ends ((record (.ran t.data.guards)).andThen body) t' fun _ t'' =>
      Grown { t'.data with log := t'.data.log ++ [.ran t.data.guards] } t''.data :=
    Code.ends_andThen (Code.ends_effect (hbody _))
  refine (destructor_ends ht' hran).mono fun out t'' ⟨hout, hdata⟩ => ⟨hout, ?_⟩
  by_cases hruns : kind.runs how = true
  · rw [if_pos hruns] at hdata ⊢
    obtain ⟨hle, b, hlog, hb⟩ := hdata
    exact ⟨hle, b, hb, hlog⟩
  · rw [if_neg hruns] at hdata ⊢
    rw [hdata]
    exact ⟨Nat.le_refl _, [], Settled.nil _, by simp⟩

theorem within_guarded (hbal : Balanced rest) (hbody : Within Grown body)
    (hrest : Within Grown rest) : Within Grown (guarded kind body rest) := by
  intro t
  have hlogged (how : Exit) (t' : Thread (World σ)) (ht' : t'.uncaught = t.uncaught + how.count)
      (hgrown : Grown (opened t).data t'.data) :
      Ends (logged t.data.guards kind (atExit kind body t) how) t' fun out t'' =>
        (out = .raised → kind.mayThrow how = true) ∧ Grown t.data t''.data := by
    refine Code.ends_andThen (Code.ends_effect (Code.ends_observed ?_))
    refine (atExit_ends kind how ?_ hbody).mono fun out t'' ht'' => ?_
    · exact ht'
    · obtain ⟨hout, hle', b, hb, hlog'⟩ := ht''
      obtain ⟨hle, a, hlog, ha⟩ := hgrown
      refine ⟨hout, Nat.le_trans (Nat.le_of_succ_le hle) hle', _, ?_,
        ha.guarded hb hle hle' hout⟩
      dsimp only at hlog' ⊢
      rw [hlog', hlog]
      simp [opened]
  show Ends (Code.scope rest (logged t.data.guards kind (atExit kind body t))) (opened t) _
  refine Code.ends_scope fun how t' he => ?_
  have ht' := hbal (opened t) how t' he
  have hgrown := hrest (opened t) how t' he
  cases how with
  | normal => exact (hlogged .normal t' ht' hgrown).mono fun _ _ h => h.2
  | raised =>
    refine (hlogged .raised t' ht' hgrown).mono fun out t'' h => ?_
    cases out with
    | normal => exact h.2
    | raised => trivial

theorem exec_within (p : Program σ) : Within Grown p.exec := by
  induction p with
  | effect f => exact Code.within_effect fun _ => Grown.of_eq rfl rfl
  | throw_ => exact Code.within_throw
  | seq first second ih ih' => exact ih.andThen ih'
  | depends choice ih => exact fun t => ih _ _ t
  | tryCatch catches body handler ih ih' => exact ih.tryCatch ih'
  | nothrow body ih => exact ih.nothrow
  | object destructor rest ih ih' => exact ih'.scope fun _ => ih
  | guard kind body rest ih ih' => exact within_guarded (exec_balanced rest) ih ih'

/-- **Guards detect the exit of their own scope.**  A program that is started
while `n` exceptions propagate, and does not terminate, leaves for each of its
guards the history of its kind: the scope is left, the body runs if the kind
asks for it, and no exception comes out unless the kind lets it out.  The
destructor of a guard whose scope failed never ends with an exception. -/
theorem guards_detect_exit (p : Program σ) (n : Nat) (memory : σ) :
    (∀ e t, p.exec (start n memory) = some (e, t) → ∀ guard < t.data.guards,
      ∃ kind how out, (out = .raised → kind.mayThrow how = true) ∧
        t.data.log.filter (fun ev => ev.guard = guard) = history guard kind how out) ∧
    ∀ (kind : Kind) (body rest : Program σ) (t t' t'' : Thread (World σ)) (out : Exit),
      rest.exec (opened t) = some (.raised, t') →
      atExit kind body.exec t t' = some (out, t'') → out = .normal := by
  constructor
  · intro e t he guard hguard
    obtain ⟨-, new, hlog, hnew⟩ := exec_within p _ e t he
    rw [hlog]
    exact hnew.histories guard (Nat.zero_le _) hguard
  · intro kind body rest t t' t'' out hrest hdestructor
    have ht' : t'.uncaught = t.uncaught + 1 := exec_balanced rest _ _ _ hrest
    have hout := (atExit_ends kind .raised ht' (exec_within body) out t'' hdestructor).1
    cases out with
    | normal => rfl
    | raised =>
      have hthrow := hout rfl
      cases kind <;> exact nomatch hthrow

/-- In a destructor that runs while two exceptions propagate a failure guard whose
own scope ends normally is silent, and a guard of a scope that fails there
catches what its body throws. -/
theorem guards_detect_exit_in_destructor :
    (∃ t, Program.exec (.object (.guard .failure .throw_ (.effect id)) .throw_) (start 1 ()) =
        some (.raised, t) ∧ t.uncaught = 2 ∧
      ∃ kind how out, (out = .raised → kind.mayThrow how = true) ∧
        t.data.log.filter (fun ev => ev.guard = 0) = history 0 kind how out) ∧
    ∃ out t, atExit .exit (Program.exec .throw_) (start 2 ()) ⟨3, (), 1, []⟩ = some (out, t) ∧
      out = .normal := by
  have hdetect := guards_detect_exit
    (Program.object (.guard .failure .throw_ (.effect id)) .throw_) 1 ()
  exact ⟨⟨_, rfl, rfl, hdetect.1 .raised _ rfl 0 (by decide)⟩,
    _, _, rfl, hdetect.2 .exit .throw_ .throw_ (start 2 ()) _ _ _ rfl rfl⟩

end Garbage.ScopeGuards
