import Garbage.Foundation.Prog
import Mathlib.Data.List.Infix

/-!
# Scripts

A script performs commands one after another, up to the first exception.  Its
`Transcript` is what the commands returned, the exception and the last state.
-/

namespace Garbage.Foundation.Prog

variable {σ τ ε β ι : Type}

structure Transcript (σ ε β : Type) where
  outputs : List β
  thrown : Option ε
  state : σ

def script (exec : ι → Prog σ ε β) : List ι → σ → Option (Transcript σ ε β)
  | [], s => some ⟨[], none, s⟩
  | i :: is, s =>
    match exec i s with
    | none => none
    | some (.error e, s') => some ⟨[], some e, s'⟩
    | some (.ok b, s') =>
      match script exec is s' with
      | none => none
      | some r => some ⟨b :: r.outputs, r.thrown, r.state⟩

variable {exec : ι → Prog σ ε β} {i : ι} {is : List ι} {s s' : σ} {b : β} {e : ε}

theorem script_cons_error (h : exec i s = some (.error e, s')) :
    script exec (i :: is) s = some ⟨[], some e, s'⟩ := by simp only [script, h]

theorem script_cons_ok {r : Transcript σ ε β} (h : exec i s = some (.ok b, s'))
    (hr : script exec is s' = some r) :
    script exec (i :: is) s = some ⟨b :: r.outputs, r.thrown, r.state⟩ := by
  simp only [script, h, hr]

/-- **The rule for scripts.**  Commands that keep `I` make a script that ends, and keeps it. -/
theorem script_invariant {I : σ → Prop} (h : ∀ i s, I s → wp (exec i) (fun _ => I) (fun _ => I) s)
    (is : List ι) : ∀ s, I s → ∃ r, script exec is s = some r ∧ I r.state := by
  induction is with
  | nil => exact fun s hs => ⟨_, rfl, hs⟩
  | cons i is ih =>
    intro s hs
    obtain ⟨o, s', hx, hok, herror⟩ := (h i s hs).outcome
    cases o with
    | error e => exact ⟨_, script_cons_error hx, herror e rfl⟩
    | ok b =>
      obtain ⟨r, hr, hI⟩ := ih s' (hok b rfl)
      exact ⟨_, script_cons_ok hx hr, hI⟩

/-- One transcript follows another one, or it breaks off with the exception `e`. -/
def Transcript.FollowsUpTo (e : ε) (R : σ → τ → Prop) (broken : τ → Prop)
    (r : Transcript σ ε β) (r' : Transcript τ ε β) : Prop :=
  (r'.outputs = r.outputs ∧ r'.thrown = r.thrown ∧ R r.state r'.state) ∨
    (r'.outputs <+: r.outputs ∧ r'.thrown = some e ∧ broken r'.state)

/-- **Two scripts side by side.**  Each command of the second one does what the first one's
does, or throws `e` and leaves a state with `broken`. -/
theorem script_follows {exec' : ι → Prog τ ε β} {R : σ → τ → Prop} {broken : τ → Prop}
    {valid : List ι → σ → Prop}
    (hvalid : ∀ i is s r s', valid (i :: is) s → exec i s = some (r, s') → valid is s')
    (hstep : ∀ i is s t, valid (i :: is) s → R s t → Mirrors R (exec i) (exec' i) s t ∨
      ∃ t', exec' i t = some (.error e, t') ∧ broken t') :
    ∀ (is : List ι) (s : σ) (t : τ) (r : Transcript σ ε β), valid is s → R s t →
      script exec is s = some r →
      ∃ r', script exec' is t = some r' ∧ r.FollowsUpTo e R broken r' := by
  intro is
  induction is with
  | nil =>
    intro s t r _ hR hr
    cases hr
    exact ⟨_, rfl, .inl ⟨rfl, rfl, hR⟩⟩
  | cons i is ih =>
    intro s t r hv hR hr
    rcases hstep i is s t hv hR with hm | ⟨t', hthrown, hbroken⟩
    · rcases alike_iff.mp hm with ⟨hx, -⟩ | ⟨o, s', t', hx, hy, hR'⟩
      · simp [script, hx] at hr
      · cases o with
        | error e' =>
          rw [script_cons_error hx] at hr
          cases hr
          exact ⟨_, script_cons_error hy, .inl ⟨rfl, rfl, hR'⟩⟩
        | ok b =>
          cases hrest : script exec is s' with
          | none => simp [script, hx, hrest] at hr
          | some q =>
            rw [script_cons_ok hx hrest] at hr
            cases hr
            obtain ⟨q', hq', hfollows⟩ := ih s' t' q (hvalid i is s _ s' hv hx) hR' hrest
            refine ⟨_, script_cons_ok hy hq', ?_⟩
            rcases hfollows with ⟨hout, hthrown, hstate⟩ | ⟨hout, hthrown, hstate⟩
            · exact .inl ⟨congrArg (b :: ·) hout, hthrown, hstate⟩
            · exact .inr ⟨(List.prefix_cons_inj b).mpr hout, hthrown, hstate⟩
    · exact ⟨_, script_cons_error hthrown, .inr ⟨List.nil_prefix, rfl, hbroken⟩⟩

end Garbage.Foundation.Prog
