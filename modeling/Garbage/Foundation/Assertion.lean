import Garbage.Foundation.Prog

/-!
# Programs with assertions

A failed assertion is an exception that says which one failed.  `Agrees x y s`:
started in `s`, the program `x` does what `y` does.  Where `x` is `y` with
assertions put in, this says that none of them fails.  The rules take such an
`x` apart: `Agrees.require` drops an assertion that holds, `Agrees.bind` goes on
after two programs that agree, `Agrees.skip` drops what only one of them reads,
and `Agrees.loop` goes through a loop with an invariant.
-/

namespace Garbage.Foundation.Prog

universe u

variable {σ τ ε β γ : Type u} {s : σ}

/-- Go on only if `c` holds of the state, else fail with `a`. -/
def require (a : ε) (c : σ → Prop) [DecidablePred c] : Prog σ ε PUnit := fun s =>
  if c s then some (.ok PUnit.unit, s) else some (.error a, s)

/-- Started in `s`, the programs do the same. -/
def Agrees (x y : Prog σ ε β) (s : σ) : Prop := x s = y s

@[simp] theorem wp_require (a : ε) (c : σ → Prop) [DecidablePred c] {Q : PUnit → σ → Prop}
    {E : ε → σ → Prop} :
    wp (require a c) Q E s ↔ (c s → Q PUnit.unit s) ∧ (¬ c s → E a s) := by
  unfold wp require
  by_cases h : c s <;> simp [h]

namespace Agrees

variable {x y z : Prog σ ε β}

theorem refl (x : Prog σ ε β) (s : σ) : Agrees x x s := rfl

theorem trans (h : Agrees x y s) (h' : Agrees y z s) : Agrees x z s := Eq.trans h h'

/-- What is known of one program holds of a program that agrees with it. -/
theorem wp {Q : β → σ → Prop} {E : ε → σ → Prop} (h : Agrees x y s) (hy : wp y Q E s) :
    Prog.wp x Q E s := by
  unfold Prog.wp at hy ⊢
  rw [show x s = y s from h]
  exact hy

/-- Two programs that agree, and then two more. -/
theorem bind {f g : β → Prog σ ε γ} (h : Agrees x y s)
    (hf : Prog.wp y (fun b s' => Agrees (f b) (g b) s') (fun _ _ => True) s) :
    Agrees (x >>= f) (y >>= g) s := by
  show Prog.andThen x f s = Prog.andThen y g s
  unfold Prog.andThen
  rw [show x s = y s from h]
  unfold Prog.wp at hf
  split at hf
  · exact hf.elim
  · exact hf
  · rfl

/-- One program, and then two that agree where it ends. -/
theorem after {f g : β → Prog σ ε γ}
    (hf : Prog.wp x (fun b s' => Agrees (f b) (g b) s') (fun _ _ => True) s) :
    Agrees (x >>= f) (x >>= g) s :=
  (refl x s).bind hf

/-- Two programs that agree, and then the same. -/
theorem before {f : β → Prog σ ε γ} (h : Agrees x y s) : Agrees (x >>= f) (y >>= f) s := by
  show Prog.andThen x f s = Prog.andThen y f s
  unfold Prog.andThen
  rw [show x s = y s from h]

/-- A program that one of the two has in front, and that leaves the state. -/
theorem skip {w : Prog σ ε γ} {f : γ → Prog σ ε β}
    (hw : Prog.wp w (fun b s' => s' = s ∧ Agrees (f b) y s') (fun _ _ => False) s) :
    Agrees (w >>= f) y s := by
  obtain ⟨b, s', hr, rfl, h⟩ := hw.returns
  show Prog.andThen w f s' = y s'
  unfold Prog.andThen
  rw [hr]
  exact h

/-- An assertion that holds. -/
theorem require {a : ε} {c : σ → Prop} [DecidablePred c] {f : PUnit → Prog σ ε β} (hc : c s)
    (h : Agrees (f PUnit.unit) y s) : Agrees (Prog.require a c >>= f) y s := by
  show Prog.andThen (Prog.require a c) f s = y s
  unfold Prog.andThen Prog.require
  rw [if_pos hc]
  exact h

/-- The state is read by the second program only. -/
theorem read {f : σ → Prog σ ε β} (h : Agrees x (f s) s) : Agrees x (Prog.get >>= f) s := h

theorem ite {c : Prop} [Decidable c] {x' y' : Prog σ ε β} (h : c → Agrees x y s)
    (h' : ¬ c → Agrees x' y' s) : Agrees (if c then x else x') (if c then y else y') s := by
  by_cases hc : c
  · rw [if_pos hc, if_pos hc]
    exact h hc
  · rw [if_neg hc, if_neg hc]
    exact h' hc

/-- **The loop rule.**  The bodies agree in every round, and the invariant `I`
goes from round to round. -/
theorem loop {body body' : β → Prog σ ε (β ⊕ γ)} {I : β → σ → Prop}
    (hbody : ∀ b s, I b s → Agrees (body b) (body' b) s)
    (hnext : ∀ b s, I b s → Prog.wp (body' b) (fun r s' =>
      match r with
      | .inl b' => I b' s'
      | .inr _ => True) (fun _ _ => True) s) :
    ∀ (fuel : Nat) (b : β) (s : σ), I b s → Agrees (loop body fuel b) (loop body' fuel b) s := by
  intro fuel
  induction fuel with
  | zero => intro b s _; rfl
  | succ fuel ih =>
    intro b s hI
    refine (hbody b s hI).bind ((hnext b s hI).imp fun r s' hr => ?_)
    cases r with
    | inl b' => exact ih b' s' hr
    | inr c => rfl

end Agrees

end Garbage.Foundation.Prog
