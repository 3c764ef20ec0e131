import Mathlib.Order.Basic

/-!
# Programs with a state, exceptions and undefined behaviour

`Prog σ ε β` are the programs over a state `σ` that return a `β` or throw an
`ε`.  A program may also be *stuck*: it met undefined behaviour, or a loop of
it ran out of the rounds it was given.  So a loop is written with a bound on
its rounds, and a proof that the program is not stuck is a proof that the bound
was enough.

`wp x Q E s` is the weakest precondition: started in `s`, the program `x` is
not stuck, and it returns a value and a state with `Q` or throws an exception
and leaves a state with `E`.  The rules below compute it along a program, and
`wp_loop` is the rule for loops.
-/

namespace Garbage.Foundation

universe u

/-- A program: `none` where it is stuck, else what it returns or throws and
the state it leaves. -/
def Prog (σ ε β : Type u) : Type u := σ → Option (Except ε β × σ)

namespace Prog

variable {σ τ ε β γ : Type u}

/-- Undefined behaviour, or a loop out of rounds. -/
def stuck : Prog σ ε β := fun _ => none

protected def ret (b : β) : Prog σ ε β := fun s => some (.ok b, s)

protected def andThen (x : Prog σ ε β) (f : β → Prog σ ε γ) : Prog σ ε γ := fun s =>
  match x s with
  | none => none
  | some (.ok b, s') => f b s'
  | some (.error e, s') => some (.error e, s')

instance : Monad (Prog σ ε) where
  pure := Prog.ret
  bind := Prog.andThen

def raise (e : ε) : Prog σ ε β := fun s => some (.error e, s)

/-- Run the handler `h` on an exception of `x`. -/
def handle (x : Prog σ ε β) (h : ε → Prog σ ε β) : Prog σ ε β := fun s =>
  match x s with
  | some (.error e, s') => h e s'
  | r => r

/-- A value computed from the state, stuck where there is none. -/
def read (f : σ → Option β) : Prog σ ε β := fun s =>
  match f s with
  | none => none
  | some b => some (.ok b, s)

/-- Replace the state, stuck where there is no new one. -/
def update (f : σ → Option σ) : Prog σ ε PUnit := fun s =>
  match f s with
  | none => none
  | some s' => some (.ok PUnit.unit, s')

protected def get : Prog σ ε σ := fun s => some (.ok s, s)

protected def modify (f : σ → σ) : Prog σ ε PUnit := fun s => some (.ok PUnit.unit, f s)

/-- Go on only if `c` holds of the state. -/
def assert (c : σ → Prop) [DecidablePred c] : Prog σ ε PUnit := fun s =>
  if c s then some (.ok PUnit.unit, s) else none

/-- A program on a part of the state. -/
def zoom (get : σ → τ) (set : σ → τ → σ) (x : Prog τ ε β) : Prog σ ε β := fun s =>
  match x (get s) with
  | none => none
  | some (r, t) => some (r, set s t)

/-- Rounds of `body` until it answers with a result, stuck after `fuel` rounds. -/
def loop (body : β → Prog σ ε (β ⊕ γ)) : Nat → β → Prog σ ε γ
  | 0, _ => stuck
  | fuel + 1, b => body b >>= fun r =>
    match r with
    | .inl b' => loop body fuel b'
    | .inr c => pure c

/-! ### The weakest precondition -/

/-- Started in `s` the program is not stuck, returns with `Q` or throws with `E`. -/
def wp (x : Prog σ ε β) (Q : β → σ → Prop) (E : ε → σ → Prop) (s : σ) : Prop :=
  match x s with
  | none => False
  | some (.ok b, s') => Q b s'
  | some (.error e, s') => E e s'

variable {Q Q' : β → σ → Prop} {E E' : ε → σ → Prop} {s : σ}

@[simp] theorem wp_stuck : wp (stuck : Prog σ ε β) Q E s ↔ False := Iff.rfl

@[simp] theorem wp_pure (b : β) : wp (pure b : Prog σ ε β) Q E s ↔ Q b s := Iff.rfl

@[simp] theorem wp_raise (e : ε) : wp (raise e : Prog σ ε β) Q E s ↔ E e s := Iff.rfl

@[simp] theorem wp_bind (x : Prog σ ε β) (f : β → Prog σ ε γ) {Q : γ → σ → Prop} :
    wp (x >>= f) Q E s ↔ wp x (fun b s' => wp (f b) Q E s') E s := by
  show wp (Prog.andThen x f) Q E s ↔ _
  unfold wp Prog.andThen
  cases x s with
  | none => exact Iff.rfl
  | some r =>
    obtain ⟨r, s'⟩ := r
    cases r <;> exact Iff.rfl

@[simp] theorem wp_handle (x : Prog σ ε β) (h : ε → Prog σ ε β) :
    wp (handle x h) Q E s ↔ wp x Q (fun e s' => wp (h e) Q E s') s := by
  unfold wp handle
  cases x s with
  | none => exact Iff.rfl
  | some r =>
    obtain ⟨r, s'⟩ := r
    cases r <;> exact Iff.rfl

@[simp] theorem wp_read (f : σ → Option β) :
    wp (read f : Prog σ ε β) Q E s ↔ ∃ b, f s = some b ∧ Q b s := by
  unfold wp read
  cases f s with
  | none => simp
  | some b => simp

@[simp] theorem wp_update (f : σ → Option σ) {Q : PUnit → σ → Prop} :
    wp (update f : Prog σ ε PUnit) Q E s ↔ ∃ s', f s = some s' ∧ Q PUnit.unit s' := by
  unfold wp update
  cases f s with
  | none => simp
  | some s' => simp

@[simp] theorem wp_get {Q : σ → σ → Prop} : wp (Prog.get : Prog σ ε σ) Q E s ↔ Q s s := Iff.rfl

@[simp] theorem wp_modify (f : σ → σ) {Q : PUnit → σ → Prop} :
    wp (Prog.modify f : Prog σ ε PUnit) Q E s ↔ Q PUnit.unit (f s) := Iff.rfl

@[simp] theorem wp_assert (c : σ → Prop) [DecidablePred c] {Q : PUnit → σ → Prop} :
    wp (assert c : Prog σ ε PUnit) Q E s ↔ c s ∧ Q PUnit.unit s := by
  unfold wp assert
  by_cases h : c s <;> simp [h]

@[simp] theorem wp_zoom (get : σ → τ) (set : σ → τ → σ) (x : Prog τ ε β) :
    wp (zoom get set x) Q E s ↔
      wp x (fun b t => Q b (set s t)) (fun e t => E e (set s t)) (get s) := by
  unfold wp zoom
  cases x (get s) with
  | none => exact Iff.rfl
  | some r =>
    obtain ⟨r, t⟩ := r
    cases r <;> exact Iff.rfl

@[simp] theorem wp_ite {c : Prop} [Decidable c] (x y : Prog σ ε β) :
    wp (if c then x else y) Q E s ↔ (c → wp x Q E s) ∧ (¬ c → wp y Q E s) := by
  by_cases h : c <;> simp [h]

/-- A program meets a weaker postcondition. -/
theorem wp_mono {x : Prog σ ε β} (hQ : ∀ b s', Q b s' → Q' b s') (hE : ∀ e s', E e s' → E' e s')
    (h : wp x Q E s) : wp x Q' E' s := by
  unfold wp at h ⊢
  split at h
  · exact h
  · exact hQ _ _ h
  · exact hE _ _ h

/-- The rule of consequence for the value a program returns. -/
theorem wp.imp {x : Prog σ ε β} (h : wp x Q E s) (hQ : ∀ b s', Q b s' → Q' b s') :
    wp x Q' E s := wp_mono hQ (fun _ _ he => he) h

/-- Two postconditions of one program. -/
theorem wp.and {x : Prog σ ε β} (h : wp x Q E s) (h' : wp x Q' E s) :
    wp x (fun b s' => Q b s' ∧ Q' b s') E s := by
  unfold wp at h h' ⊢
  split at h
  · exact h
  · rename_i hx
    rw [hx] at h'
    exact ⟨h, h'⟩
  · exact h

/-- What a program that cannot throw returns. -/
theorem wp_iff_of_ok {x : Prog σ ε β} {b : β} {s' : σ} (h : x s = some (.ok b, s')) :
    wp x Q E s ↔ Q b s' := by
  unfold wp
  rw [h]

/-- A program whose exceptions are excluded returns. -/
theorem wp.returns {x : Prog σ ε β} (h : wp x Q (fun _ _ => False) s) :
    ∃ b s', x s = some (.ok b, s') ∧ Q b s' := by
  unfold wp at h
  split at h
  · exact h.elim
  · exact ⟨_, _, by assumption, h⟩
  · exact h.elim

/-- A program that meets a precondition has an outcome. -/
theorem wp.outcome {x : Prog σ ε β} (h : wp x Q E s) :
    ∃ r s', x s = some (r, s') ∧ (∀ b, r = .ok b → Q b s') ∧ ∀ e, r = .error e → E e s' := by
  unfold wp at h
  split at h
  · exact h.elim
  · next b s' hx => exact ⟨_, _, hx, fun _ hb => Except.ok.inj hb ▸ h, nofun⟩
  · next e s' hx => exact ⟨_, _, hx, nofun, fun _ he => Except.error.inj he ▸ h⟩

/-- A program that has an outcome is not stuck. -/
theorem wp_of_outcome {x : Prog σ ε β} {r : Except ε β} {s' : σ} (h : x s = some (r, s')) :
    wp x (fun _ t => t = s') (fun _ t => t = s') s := by
  unfold wp
  rw [h]
  cases r <;> exact rfl

/-- What holds of every state a program leaves. -/
theorem wp.of_outcome {x : Prog σ ε β} {P : σ → Prop} {r : Except ε β} {s' : σ}
    (h : wp x (fun _ => P) (fun _ => P) s) (hx : x s = some (r, s')) : P s' := by
  unfold wp at h
  rw [hx] at h
  cases r <;> exact h

theorem bind_of_ok {x : Prog σ ε β} {b : β} {s' : σ} (h : x s = some (.ok b, s'))
    (f : β → Prog σ ε γ) : (x >>= f) s = f b s' := by
  show Prog.andThen x f s = _
  unfold Prog.andThen
  rw [h]

theorem bind_of_none {x : Prog σ ε β} (h : x s = none) (f : β → Prog σ ε γ) :
    (x >>= f) s = none := by
  show Prog.andThen x f s = _
  unfold Prog.andThen
  rw [h]

/-- A program that is stuck in its second half, whatever the first half returns. -/
theorem not_wp_bind {x : Prog σ ε β} {f : β → Prog σ ε γ} {Q : γ → σ → Prop}
    (hx : wp x (fun b s' => ¬ wp (f b) Q E s') (fun _ _ => False) s) : ¬ wp (x >>= f) Q E s := by
  obtain ⟨b, s', hb, hf⟩ := hx.returns
  rw [wp_bind, wp_iff_of_ok hb]
  exact hf

/-- Two programs that go on alike from every result of a first one. -/
theorem bind_eq_of_wp {x : Prog σ ε β} {f g : β → Prog σ ε γ} (hx : wp x Q E s)
    (hfg : ∀ b s', Q b s' → f b s' = g b s') : (x >>= f) s = (x >>= g) s := by
  show Prog.andThen x f s = Prog.andThen x g s
  unfold wp at hx
  unfold Prog.andThen
  split at hx
  · exact hx.elim
  · exact hfg _ _ hx
  · rfl

/-- **The loop rule.**  `I n b s` says that round `b` in state `s` is sound and
at most `n` more rounds follow it.  A loop given more than `n` rounds ends. -/
theorem wp_loop {body : β → Prog σ ε (β ⊕ γ)} {Q : γ → σ → Prop} {I : Nat → β → σ → Prop}
    (hbody : ∀ n b s, I n b s → wp (body b) (fun r s' =>
      match r with
      | .inl b' => ∃ m, m < n ∧ I m b' s'
      | .inr c => Q c s') E s) :
    ∀ (fuel n : Nat) (b : β) (s : σ), I n b s → n < fuel → wp (loop body fuel b) Q E s := by
  intro fuel
  induction fuel with
  | zero => intro n b s _ hn; omega
  | succ fuel ih =>
    intro n b s hI hn
    rw [loop, wp_bind]
    refine (hbody n b s hI).imp fun r s' hr => ?_
    cases r with
    | inl b' =>
      obtain ⟨m, hm, hI'⟩ := hr
      exact ih m b' s' hI' (by omega)
    | inr c => exact hr

/-- A loop whose first round answers. -/
theorem loop_of_answer {body : β → Prog σ ε (β ⊕ γ)} {b : β} {c : γ} {s' : σ}
    (h : body b s = some (.ok (.inr c), s')) (fuel : Nat) :
    loop body (fuel + 1) b s = some (.ok c, s') := by
  rw [loop, bind_of_ok h]
  rfl

/-- A loop whose first round is stuck. -/
theorem loop_of_none {body : β → Prog σ ε (β ⊕ γ)} {b : β} (h : body b s = none) (fuel : Nat) :
    loop body fuel b s = none := by
  cases fuel with
  | zero => rfl
  | succ fuel => rw [loop, bind_of_none h]

/-- **The rule for loops that never end.**  Every round goes on, and keeps `I`. -/
theorem loop_eq_none {body : β → Prog σ ε (β ⊕ γ)} {I : β → σ → Prop}
    (hbody : ∀ b s, I b s → ∃ b' s', body b s = some (.ok (.inl b'), s') ∧ I b' s') :
    ∀ (fuel : Nat) (b : β) (s : σ), I b s → loop body fuel b s = none := by
  intro fuel
  induction fuel with
  | zero =>
    intro b s _
    rfl
  | succ fuel ih =>
    intro b s hI
    obtain ⟨b', s', hb, hI'⟩ := hbody b s hI
    rw [loop, bind_of_ok hb]
    exact ih b' s' hI'

/-- The rule for what a loop answers if it ends: rounds that go on keep `I`, and
the round that answers leaves `Q`. -/
theorem loop_outcome {body : β → Prog σ ε (β ⊕ γ)} {I : β → σ → Prop}
    {Q : Except ε γ → σ → Prop} (hgo : ∀ b s b' s', I b s →
      body b s = some (.ok (.inl b'), s') → I b' s')
    (hanswer : ∀ b s c s', I b s → body b s = some (.ok (.inr c), s') → Q (.ok c) s')
    (hraise : ∀ b s e s', I b s → body b s = some (.error e, s') → Q (.error e) s') :
    ∀ (fuel : Nat) (b : β) (s : σ) (r : Except ε γ) (s' : σ), I b s →
      loop body fuel b s = some (r, s') → Q r s' := by
  intro fuel
  induction fuel with
  | zero =>
    intro b s r s' _ h
    cases h
  | succ fuel ih =>
    intro b s r s' hI h
    rw [loop] at h
    change Prog.andThen _ _ _ = _ at h
    unfold Prog.andThen at h
    cases hb : body b s with
    | none =>
      rw [hb] at h
      cases h
    | some o =>
      obtain ⟨o, t⟩ := o
      rw [hb] at h
      cases o with
      | error e =>
        cases h
        exact hraise b s e _ hI hb
      | ok o =>
        cases o with
        | inl b' => exact ih b' t r s' (hgo b s b' t hI hb) h
        | inr c =>
          cases h
          exact hanswer b s c _ hI hb

/-! ### Two programs side by side -/

/-- Two outcomes are alike: both stuck, or with the same result and states in `R`. -/
def Alike (R : σ → τ → Prop) : Option (Except ε β × σ) → Option (Except ε β × τ) → Prop
  | some (r, s), some (r', t) => r' = r ∧ R s t
  | none, none => True
  | _, _ => False

/-- Started in `s` and `t`, the programs end alike. -/
def Mirrors (R : σ → τ → Prop) (x : Prog σ ε β) (y : Prog τ ε β) (s : σ) (t : τ) : Prop :=
  Alike R (x s) (y t)

variable {R R' : σ → τ → Prop} {t : τ}

theorem alike_iff {o : Option (Except ε β × σ)} {o' : Option (Except ε β × τ)} :
    Alike R o o' ↔ (o = none ∧ o' = none) ∨
      ∃ r s t, o = some (r, s) ∧ o' = some (r, t) ∧ R s t := by
  constructor
  · intro h
    unfold Alike at h
    split at h
    · next r s r' t =>
      obtain ⟨rfl, hR⟩ := h
      exact .inr ⟨_, s, t, rfl, rfl, hR⟩
    · exact .inl ⟨rfl, rfl⟩
    · exact h.elim
  · rintro (⟨rfl, rfl⟩ | ⟨r, s, t, rfl, rfl, hR⟩)
    · trivial
    · exact ⟨rfl, hR⟩

theorem Mirrors.bind {x : Prog σ ε β} {y : Prog τ ε β} {f : β → Prog σ ε γ} {g : β → Prog τ ε γ}
    (h : Mirrors R x y s t) (hfg : ∀ b s t, R s t → Mirrors R' (f b) (g b) s t)
    (hRR' : ∀ s t, R s t → R' s t) : Mirrors R' (x >>= f) (y >>= g) s t := by
  show Alike R' (Prog.andThen x f s) (Prog.andThen y g t)
  unfold Mirrors at h
  unfold Prog.andThen
  cases hx : x s with
  | none =>
    cases hy : y t with
    | none => trivial
    | some o => rw [hx, hy] at h; exact h.elim
  | some o =>
    cases hy : y t with
    | none => rw [hx, hy] at h; exact h.elim
    | some o' =>
      obtain ⟨r, s'⟩ := o
      obtain ⟨r', t'⟩ := o'
      rw [hx, hy] at h
      obtain ⟨rfl, hR⟩ := h
      cases r' with
      | ok b => exact hfg b s' t' hR
      | error e => exact ⟨rfl, hRR' s' t' hR⟩

protected theorem Mirrors.pure (b : β) (h : R s t) :
    Mirrors R (Pure.pure b : Prog σ ε β) (Pure.pure b) s t := ⟨rfl, h⟩

protected theorem Mirrors.raise (e : ε) (h : R s t) :
    Mirrors R (Prog.raise e : Prog σ ε β) (Prog.raise e) s t := ⟨rfl, h⟩

protected theorem Mirrors.modify {f : σ → σ} {g : τ → τ} (h : R (f s) (g t)) :
    Mirrors R (Prog.modify f : Prog σ ε PUnit) (Prog.modify g) s t := ⟨rfl, h⟩

protected theorem Mirrors.assert {c : σ → Prop} {d : τ → Prop} [DecidablePred c] [DecidablePred d]
    (hcd : c s ↔ d t) (h : R s t) :
    Mirrors R (Prog.assert c : Prog σ ε PUnit) (Prog.assert d) s t := by
  unfold Mirrors Prog.assert
  by_cases hc : c s
  · rw [if_pos hc, if_pos (hcd.mp hc)]
    exact ⟨rfl, h⟩
  · rw [if_neg hc, if_neg fun hd => hc (hcd.mpr hd)]
    trivial

protected theorem Mirrors.handle {x : Prog σ ε β} {y : Prog τ ε β} {f : ε → Prog σ ε β}
    {g : ε → Prog τ ε β} (h : Mirrors R x y s t)
    (hfg : ∀ e s t, R s t → Mirrors R (f e) (g e) s t) :
    Mirrors R (Prog.handle x f) (Prog.handle y g) s t := by
  unfold Mirrors Prog.handle
  rcases alike_iff.mp h with ⟨hx, hy⟩ | ⟨r, s', t', hx, hy, hR⟩
  · rw [hx, hy]
    trivial
  · rw [hx, hy]
    cases r with
    | ok b => exact ⟨rfl, hR⟩
    | error e => exact hfg e s' t' hR

/-- The same function of two results. -/
theorem Mirrors.map {x : Prog σ ε β} {y : Prog τ ε β} (f : β → γ) (h : Mirrors R x y s t) :
    Mirrors R (x >>= fun b => pure (f b)) (y >>= fun b => pure (f b)) s t :=
  h.bind (fun _ _ _ hR => ⟨rfl, hR⟩) fun _ _ hR => hR

/-- An injective function of two results tells them apart. -/
theorem Mirrors.of_map {x : Prog σ ε β} {y : Prog τ ε β} {f : β → γ}
    (hf : ∀ b b', f b = f b' → b = b')
    (h : Mirrors R (x >>= fun b => pure (f b)) (y >>= fun b => pure (f b)) s t) :
    Mirrors R x y s t := by
  change Alike R (Prog.andThen x _ s) (Prog.andThen y _ t) at h
  unfold Prog.andThen at h
  unfold Mirrors
  cases hx : x s with
  | none =>
    cases hy : y t with
    | none => trivial
    | some o => rw [hx, hy] at h; obtain ⟨r | r, t'⟩ := o <;> exact h.elim
  | some o =>
    cases hy : y t with
    | none => rw [hx, hy] at h; obtain ⟨r | r, s'⟩ := o <;> exact h.elim
    | some o' =>
      obtain ⟨r, s'⟩ := o
      obtain ⟨r', t'⟩ := o'
      rw [hx, hy] at h
      cases r with
      | ok b =>
        cases r' with
        | ok b' => exact ⟨congrArg Except.ok (hf _ _ (Except.ok.inj h.1)), h.2⟩
        | error e => cases h.1
      | error e =>
        cases r' with
        | ok b' => cases h.1
        | error e' => exact ⟨congrArg Except.error (Except.error.inj h.1), h.2⟩

end Prog

end Garbage.Foundation
