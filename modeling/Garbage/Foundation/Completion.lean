import Garbage.Foundation.Unwinding

/-!
# Code that ends

`Ends` says how code can end if it does not terminate the program.  `Completes` says
that it ends, too.  Code `Survives` if it ends from every thread: an exception must leave
neither a `noexcept` function nor a destructor of a scope that fails.
-/

namespace Garbage.Foundation.Unwinding.Code

variable {σ : Type} {x y handler : Code σ} {catches : σ → Bool} {t t' : Thread σ}
  {Q : Exit → Thread σ → Prop} {e : Exit}

/-- The code ends, and it ends so. -/
def Completes (x : Code σ) (t : Thread σ) (Q : Exit → Thread σ → Prop) : Prop :=
  ∃ e t', x t = some (e, t') ∧ Q e t'

theorem Completes.mono {R : Exit → Thread σ → Prop} (h : Completes x t Q)
    (hQR : ∀ e t', Q e t' → R e t') : Completes x t R := by
  obtain ⟨e, t', hx, hQ⟩ := h
  exact ⟨e, t', hx, hQR e t' hQ⟩

theorem completes_skip (h : Q .normal t) : Completes skip t Q := ⟨_, _, rfl, h⟩

theorem completes_throw (h : Q .raised { t with uncaught := t.uncaught + 1 }) :
    Completes throw_ t Q := ⟨_, _, rfl, h⟩

theorem completes_effect {f : σ → σ} (h : Q .normal { t with data := f t.data }) :
    Completes (effect f) t Q := ⟨_, _, rfl, h⟩

theorem completes_andThen_normal (hx : x t = some (.normal, t')) (hy : Completes y t' Q) :
    Completes (x.andThen y) t Q := by
  obtain ⟨e, t'', hy, hQ⟩ := hy
  exact ⟨e, t'', by simp only [andThen, hx, hy], hQ⟩

theorem completes_andThen_raised (hx : x t = some (.raised, t')) (h : Q .raised t') :
    Completes (x.andThen y) t Q := ⟨.raised, t', by simp only [andThen, hx], h⟩

theorem completes_tryCatch_normal (hx : x t = some (.normal, t')) (h : Q .normal t') :
    Completes (tryCatch catches x handler) t Q := ⟨.normal, t', by simp only [tryCatch, hx], h⟩

theorem completes_tryCatch_caught (hx : x t = some (.raised, t')) (hc : catches t'.data = true)
    (h : Completes handler { t' with uncaught := t'.uncaught - 1 } Q) :
    Completes (tryCatch catches x handler) t Q := by
  obtain ⟨e, t'', hh, hQ⟩ := h
  exact ⟨e, t'', by simp only [tryCatch, hx, hc, if_true, hh], hQ⟩

/-! ### Code that does not terminate the program -/

/-- No exception leaves the code. -/
def Quiet (x : Code σ) : Prop := ∀ t, Ends x t fun e _ => e = .normal

def Survives (x : Code σ) : Prop := ∀ t, Completes x t fun _ _ => True

section Survives

variable {destructor : Exit → Code σ}

theorem survives_skip : Survives (skip : Code σ) := fun _ => completes_skip trivial

theorem survives_throw : Survives (throw_ : Code σ) := fun _ => completes_throw trivial

theorem survives_effect {f : σ → σ} : Survives (effect f) := fun _ => completes_effect trivial

theorem Survives.andThen (hx : Survives x) (hy : Survives y) : Survives (x.andThen y) := by
  intro t
  obtain ⟨e, t', hx, -⟩ := hx t
  cases e with
  | normal => exact completes_andThen_normal hx (hy t')
  | raised => exact completes_andThen_raised hx trivial

theorem Survives.tryCatch (hx : Survives x) (hh : Survives handler) :
    Survives (tryCatch catches x handler) := by
  intro t
  obtain ⟨e, t', hx, -⟩ := hx t
  cases e with
  | normal => exact completes_tryCatch_normal hx trivial
  | raised =>
    by_cases hc : catches t'.data = true
    · exact completes_tryCatch_caught hx hc (hh _)
    · exact ⟨.raised, t', by simp only [Code.tryCatch, hx, hc]; rfl, trivial⟩

theorem Survives.nothrow (hx : Survives x) (hquiet : Quiet x) : Survives (nothrow x) := by
  intro t
  obtain ⟨e, t', hx, -⟩ := hx t
  obtain rfl := hquiet t e t' hx
  exact ⟨.normal, t', by simp only [Code.nothrow, hx], trivial⟩

/-- The destructor of the failed scope must be quiet where that is left. -/
theorem completes_scope (hx : Completes x t fun _ _ => True) (hd : ∀ e, Survives (destructor e))
    (hquiet : ∀ t', x t = some (.raised, t') →
      Ends (destructor .raised) t' fun e _ => e = .normal) :
    Completes (scope x destructor) t fun _ _ => True := by
  obtain ⟨e, t', hx, -⟩ := hx
  obtain ⟨out, t'', hd', -⟩ := hd e t'
  cases e with
  | normal => exact ⟨out, t'', by simp only [scope, hx, hd'], trivial⟩
  | raised =>
    obtain rfl := hquiet t' hx out t'' hd'
    exact ⟨.raised, t'', by simp only [scope, hx, hd'], trivial⟩

theorem Survives.observed {note : Exit → σ → σ} (hx : Survives x) : Survives (observed x note) := by
  intro t
  obtain ⟨e, t', hx, -⟩ := hx t
  exact ⟨e, { t' with data := note e t'.data }, by simp only [Code.observed, hx], trivial⟩

end Survives

end Garbage.Foundation.Unwinding.Code
