import Garbage.Foundation.Completion
import Garbage.ScopeGuards.Guards

/-!
# Guards that clean up

The body of most guards is a plain effect on the memory, which does not throw.  Then
the scope ends as the code in it does, and the effect has been applied: always for
`SCOPE_EXIT`, and for `SCOPE_FAILURE_EXIT` if the code threw.
-/

namespace Garbage.ScopeGuards

open Foundation.Unwinding (Thread Exit Code)
open Foundation.Unwinding.Code (Ends Balanced Within)

variable {σ : Type}

/-- An effect on the memory of the program. -/
def onMemory (f : σ → σ) : Code (World σ) := Code.effect fun w => { w with memory := f w.memory }

variable {f : σ → σ} {rest : Code (World σ)} {t t₁ : Thread (World σ)} {e : Exit}
  {Q : Exit → Thread (World σ) → Prop}

/-- The end of the scope `rest`, if the destructor does not throw. -/
theorem guarded_of_destructor {kind : Kind} {body : Code (World σ)} {t₂ : Thread (World σ)}
    (h : rest (opened t) = some (e, t₁))
    (hd : logged t.data.guards kind (atExit kind body t) e t₁ = some (.normal, t₂)) :
    guarded kind body rest t = some (e, t₂) := by
  cases e with
  | normal => simp only [guarded, Code.scope, h, hd]
  | raised => simp only [guarded, Code.scope, h, hd]

theorem guarded_exit_onMemory (h : rest (opened t) = some (e, t₁)) :
    ∃ t₂, guarded .exit (onMemory f) rest t = some (e, t₂) ∧ t₂.uncaught = t₁.uncaught ∧
      t₂.data.memory = f t₁.data.memory :=
  ⟨_, guarded_of_destructor h rfl, rfl, rfl⟩

theorem completes_guarded_exit (h : Code.Completes rest (opened t) Q) :
    Code.Completes (guarded .exit (onMemory f) rest) t fun e t₂ => ∃ t₁, Q e t₁ ∧
      t₂.uncaught = t₁.uncaught ∧ t₂.data.memory = f t₁.data.memory := by
  obtain ⟨e, t₁, hrest, hQ⟩ := h
  obtain ⟨t₂, hguarded, huncaught, hmemory⟩ := guarded_exit_onMemory hrest
  exact ⟨e, t₂, hguarded, t₁, hQ, huncaught, hmemory⟩

/-- Any object whose destructor is an effect on the memory. -/
theorem completes_scope_onMemory (h : Code.Completes rest t Q) :
    Code.Completes (Code.scope rest fun _ => onMemory f) t fun e t₂ => ∃ t₁, Q e t₁ ∧
      t₂.uncaught = t₁.uncaught ∧ t₂.data.memory = f t₁.data.memory := by
  obtain ⟨e, t₁, hrest, hQ⟩ := h
  refine ⟨e, ⟨t₁.uncaught, { t₁.data with memory := f t₁.data.memory }⟩, ?_, t₁, hQ, rfl, rfl⟩
  cases e with
  | normal => simp only [Code.scope, hrest, onMemory, Code.effect]
  | raised => simp only [Code.scope, hrest, onMemory, Code.effect]

theorem failure_destructor_onMemory {d : ExceptionDetector} {how : Exit} (ev : Event)
    (ht : t.uncaught = d.exceptionCount + how.count) :
    ∃ t₂, ScopeFailureExit.destructor d ((record ev).andThen (onMemory f)) t =
        some (.normal, t₂) ∧ t₂.uncaught = t.uncaught ∧
      t₂.data.memory = if how = .raised then f t.data.memory else t.data.memory := by
  have hlevel := uncaughtExceptionOnCurrentLevel_eq ht
  unfold ScopeFailureExit.destructor Code.nothrow
  cases how with
  | normal =>
    simp only [hlevel]
    exact ⟨t, rfl, rfl, rfl⟩
  | raised =>
    simp only [hlevel]
    exact ⟨_, rfl, rfl, rfl⟩

theorem guarded_failure_onMemory (h : rest (opened t) = some (e, t₁))
    (hcount : t₁.uncaught = t.uncaught + e.count) :
    ∃ t₂, guarded .failure (onMemory f) rest t = some (e, t₂) ∧ t₂.uncaught = t₁.uncaught ∧
      t₂.data.memory = if e = .raised then f t₁.data.memory else t₁.data.memory := by
  let left : Thread (World σ) := ⟨t₁.uncaught, { t₁.data with
    log := t₁.data.log ++ [.left t.data.guards .failure e] }⟩
  have hleft : left.uncaught = (ExceptionDetector.new t).exceptionCount + e.count := hcount
  obtain ⟨t₂, hd, huncaught, hmemory⟩ :=
    @failure_destructor_onMemory _ f left _ _ (.ran t.data.guards) hleft
  refine ⟨⟨t₂.uncaught, { t₂.data with
    log := t₂.data.log ++ [.destroyed t.data.guards .normal] }⟩,
    guarded_of_destructor h ?_, huncaught, hmemory⟩
  simp only [logged, record, Code.andThen, Code.effect, Code.observed, atExit, Kind.destructor]
  rw [← record, hd]

/-! ### How guarded code can end -/

theorem guarded_eq_none {kind : Kind} {body : Code (World σ)} (h : rest (opened t) = none) :
    guarded kind body rest t = none := by
  simp only [guarded, Code.scope, h]

theorem ends_guarded_exit (h : Ends rest (opened t) fun e t₁ =>
    ∀ t₂ : Thread (World σ), t₂.data.memory = f t₁.data.memory → Q e t₂) :
    Ends (guarded .exit (onMemory f) rest) t Q := by
  intro e t₂ he
  match hrest : rest (opened t) with
  | none => exact nomatch (guarded_eq_none hrest).symm.trans he
  | some (e₁, t₁) =>
    obtain ⟨t₂', hguarded, -, hmemory⟩ := guarded_exit_onMemory (f := f) hrest
    cases he.symm.trans hguarded
    exact h _ _ hrest _ hmemory

theorem ends_guarded_failure (hbal : Balanced rest) (h : Ends rest (opened t) fun e t₁ =>
    ∀ t₂ : Thread (World σ), t₂.data.memory =
      (if e = .raised then f t₁.data.memory else t₁.data.memory) → Q e t₂) :
    Ends (guarded .failure (onMemory f) rest) t Q := by
  intro e t₂ he
  match hrest : rest (opened t) with
  | none => exact nomatch (guarded_eq_none hrest).symm.trans he
  | some (e₁, t₁) =>
    obtain ⟨t₂', hguarded, -, hmemory⟩ :=
      guarded_failure_onMemory (f := f) hrest (hbal (opened t) _ _ hrest)
    cases he.symm.trans hguarded
    exact h _ _ hrest _ hmemory

/-! ### Relations on the memory -/

/-- Data in which the memory is related. -/
def OnMemory (R : σ → σ → Prop) (w w' : World σ) : Prop := R w.memory w'.memory

variable {R : σ → σ → Prop} {kind : Kind} {body : Code (World σ)} {d : ExceptionDetector}

instance [Std.Refl R] : Std.Refl (OnMemory R) := ⟨fun w => Std.Refl.refl w.memory⟩

instance [IsTrans σ R] : IsTrans (World σ) (OnMemory R) :=
  ⟨fun _ _ _ h h' => IsTrans.trans (r := R) _ _ _ h h'⟩

variable [Std.Refl R]

theorem within_record (ev : Event) : Within (OnMemory R) (record ev : Code (World σ)) :=
  Code.within_effect fun w => Std.Refl.refl (r := R) w.memory

variable [IsTrans σ R]

theorem within_destructor (h : Within (OnMemory R) body) :
    Within (OnMemory R) (kind.destructor d body) := by
  have hskip : Within (OnMemory R) (Code.skip : Code (World σ)) :=
    fun t => Code.ends_skip (Std.Refl.refl t.data)
  cases kind with
  | exit =>
    intro t
    have hrethrow : Within (OnMemory R) (if !d.uncaughtExceptionOnCurrentLevel t then Code.throw_
        else Code.skip : Code (World σ)) := by
      split
      · exact Code.within_throw
      · exact hskip
    have hcaught : Within (OnMemory R) (Code.tryCatch (fun _ => true) body _) :=
      h.tryCatch hrethrow
    exact (hcaught t).congr rfl
  | failure =>
    refine Within.nothrow fun t => ?_
    by_cases hd : d.uncaughtExceptionOnCurrentLevel t = true
    · exact (h.tryCatch hskip t).congr (if_pos hd)
    · exact (hskip t).congr (if_neg hd)
  | success =>
    intro t
    by_cases hd : (!d.uncaughtExceptionOnCurrentLevel t) = true
    · exact (h t).congr (if_pos hd)
    · exact (hskip t).congr (if_neg hd)

/-- A guard of any kind keeps what its body and its scope keep. -/
theorem within_guarded_onMemory (hbody : Within (OnMemory R) body)
    (hrest : Within (OnMemory R) rest) : Within (OnMemory R) (guarded kind body rest) := by
  intro t
  have hatExit : Within (OnMemory R) (atExit kind body t) :=
    within_destructor ((within_record _).andThen hbody)
  have hlogged (how : Exit) :
      Within (OnMemory R) (logged t.data.guards kind (atExit kind body t) how) :=
    (within_record _).andThen fun t' => Code.ends_observed (hatExit t')
  exact hrest.scope hlogged (opened t)

/-! ### Guards do not terminate the program -/

section Survives

open Foundation.Unwinding.Code (Survives Quiet)

variable {kind : Kind} {body : Code (World σ)} {d : ExceptionDetector}

theorem survives_destructor (h : Survives body) : Survives (kind.destructor d body) := by
  cases kind with
  | exit =>
    intro t
    have hrethrow : Survives (if !d.uncaughtExceptionOnCurrentLevel t then Code.throw_
        else Code.skip : Code (World σ)) := by
      split
      · exact Code.survives_throw
      · exact Code.survives_skip
    have hcaught : Survives (Code.tryCatch (fun _ => true) body _) := h.tryCatch hrethrow
    exact hcaught t
  | failure =>
    have hcaught : Survives (Code.tryCatch (fun _ => true) body Code.skip) :=
      h.tryCatch Code.survives_skip
    refine Survives.nothrow (fun t => ?_) fun t => ?_
    · cases hd : d.uncaughtExceptionOnCurrentLevel t with
      | true => simpa only [Code.Completes, hd, if_true] using hcaught t
      | false => simpa only [Code.Completes, hd, Bool.false_eq_true, if_false] using
          Code.survives_skip t
    · by_cases hd : d.uncaughtExceptionOnCurrentLevel t = true
      · refine Ends.congr (Code.ends_tryCatch (Q := fun e _ => e = .normal) ?_) (if_pos hd)
        intro e t' he
        cases e with
        | normal => rfl
        | raised => exact Code.ends_skip rfl
      · exact Ends.congr (Code.ends_skip rfl) (if_neg hd)
  | success =>
    intro t
    change Code.Completes (ScopeSuccessExit.destructor d body) t _
    unfold Code.Completes ScopeSuccessExit.destructor
    split
    · exact h t
    · exact Code.survives_skip t

/-- A guard lets no exception out of the destructor of a scope that fails. -/
theorem survives_guarded (hbal : Balanced rest) (hgrown : Within Grown body)
    (hbody : Survives body) (hrest : Survives rest) : Survives (guarded kind body rest) := by
  intro t
  have hdestructor : Survives (atExit kind body t) :=
    survives_destructor (Code.survives_effect.andThen hbody)
  refine Code.completes_scope (hrest (opened t))
    (fun how => Code.survives_effect.andThen hdestructor.observed) fun t' ht' => ?_
  refine Code.ends_andThen (Code.ends_effect (Code.ends_observed ?_))
  have hcount : t'.uncaught = t.uncaught + 1 := hbal (opened t) _ _ ht'
  refine (atExit_ends kind .raised ?_ hgrown).mono fun out t'' h => ?_
  · exact hcount
  · cases out with
    | normal => rfl
    | raised =>
      have hthrow := h.1 rfl
      cases kind <;> cases hthrow

end Survives

end Garbage.ScopeGuards
