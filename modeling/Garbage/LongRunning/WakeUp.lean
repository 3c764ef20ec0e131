import Mathlib.Tactic.Push
import Garbage.LongRunning.PeriodicFlexible

/-!
# Which wake-ups arrive

A call of `WakeUpProcessing` that finds a source cancels it, and then the sleep
of this iteration ends at once.  So a call that has completed and left the
source alone has found no source: it came between the start of `ProcessBody` and
the publication (`Sound.woken`).  And a source that a call has read is the
current one or disposed of (`Sound.old`), so only a call that comes after the
disposal throws.
-/

namespace Garbage.LongRunning.PeriodicFlexible

open Foundation (Machine)

variable {τ : Type}

/-- The source of the running iteration is cancelled. -/
def State.CurrentCancelled (s : State τ) : Prop :=
  ∃ c, s.loop.current = some c ∧ s.cancelled c = true

/-- What holds in every reachable state. -/
structure Sound (s : State τ) : Prop where
  published : s.waitingCts = s.loop.published
  live : ∀ c, s.loop.current = some c → c < s.made ∧ s.disposed c = false
  old : ∀ c, c < s.made → s.loop.current ≠ some c → s.disposed c = true
  read : ∀ t c, s.wakers t = some c → c < s.made
  woken : s.woken = true → s.missed = true ∨ s.CurrentCancelled ∨ s.loop.between = true
  missed : s.missed = true → s.woken = true

/-- The good states: no call has thrown, and a loop that sleeps on a source that
is not cancelled has missed no call. -/
structure Good (s : State τ) : Prop where
  sound : Sound s
  notThrown : s.wakeUpThrew = false
  punctual : ∀ c interval, s.loop = .sleeping c interval → s.cancelled c = false →
    s.missed = false

theorem good_make : Good (State.make τ) where
  sound :=
    { published := rfl
      live := fun _ h => nomatch h
      old := fun _ h => nomatch h
      read := fun _ _ h => nomatch h
      woken := fun h => nomatch h
      missed := fun h => nomatch h }
  notThrown := rfl
  punctual _ _ h := nomatch h

theorem Good.not_oversleeps {s : State τ} (h : Good s) : ¬ Oversleeps s := by
  rintro ⟨c, interval, hloop, hcancelled, hwoken⟩
  rcases h.sound.woken hwoken with hmissed | ⟨c', hcurrent, hcancelled'⟩ | hbetween
  · exact absurd (hmissed.symm.trans (h.punctual c interval hloop hcancelled)) (by decide)
  · rw [hloop] at hcurrent
    cases hcurrent
    exact absurd (hcancelled'.symm.trans hcancelled) (by decide)
  · rw [hloop] at hbetween
    cases hbetween

theorem LoopPc.current_of_published {pc : LoopPc} {c : Nat} (h : pc.published = some c) :
    pc.current = some c := by
  cases pc <;> first | exact h | cases h

namespace Sound

variable {s : State τ}

/-- The loop goes on with the same source. -/
theorem goto (h : Sound s) {pc : LoopPc} {field subscriber : Option Nat}
    (hcurrent : pc.current = s.loop.current) (hfield : field = pc.published)
    (hbetween : s.woken = true → s.loop.between = true → pc.between = true) :
    Sound { s with loop := pc, waitingCts := field, subscriber } where
  published := hfield
  live c hc := h.live c (hcurrent ▸ hc)
  old c hc hne := h.old c hc (hcurrent ▸ hne)
  read := h.read
  woken hwoken := by
    rcases h.woken hwoken with hmissed | ⟨c, hc, hcancelled⟩ | hb
    · exact .inl hmissed
    · exact .inr (.inl ⟨c, hcurrent.trans hc, hcancelled⟩)
    · exact .inr (.inr (hbetween hwoken hb))
  missed := h.missed

theorem cancelSource (h : Sound s) (cts : Nat) : Sound (s.cancelSource cts) where
  published := h.published
  live := h.live
  old := h.old
  read := h.read
  woken hwoken := by
    rcases h.woken hwoken with hmissed | ⟨c, hc, hcancelled⟩ | hb
    · exact .inl hmissed
    · refine .inr (.inl ⟨c, hc, ?_⟩)
      show Function.update s.cancelled cts true c = true
      by_cases hcc : c = cts
      · rw [hcc, Function.update_self]
      · rw [Function.update_of_ne hcc, hcancelled]
    · exact .inr (.inr hb)
  missed := h.missed

theorem begins (h : Sound s) : Sound { s with woken := false, missed := false } where
  published := h.published
  live := h.live
  old := h.old
  read := h.read
  woken hwoken := nomatch hwoken
  missed hmissed := nomatch hmissed

theorem create (h : Sound s) (hloop : s.loop = .create) : Sound { s with
    loop := .register s.made
    made := s.made + 1
    cancelled := Function.update s.cancelled s.made false
    disposed := Function.update s.disposed s.made false } where
  published := by
    rw [h.published, hloop]
    rfl
  live c hc := by
    cases hc
    exact ⟨Nat.lt_succ_self _, Function.update_self ..⟩
  old c hc hne := by
    have hcm : c ≠ s.made := fun heq => hne (heq ▸ rfl)
    dsimp only at hc ⊢
    rw [Function.update_of_ne hcm]
    exact h.old c (by omega) (by simp [hloop, LoopPc.current])
  read t c hc := Nat.lt_succ_of_lt (h.read t c hc)
  woken hwoken := by
    rcases h.woken hwoken with hmissed | ⟨c, hc, -⟩ | hb
    · exact .inl hmissed
    · rw [hloop] at hc
      cases hc
    · rw [hloop] at hb
      cases hb
  missed := h.missed

theorem dispose (h : Sound s) {c : Nat} {failed : Bool} (hloop : s.loop = .dispose c failed) :
    Sound { s with
      loop := if failed then .threw else .check
      disposed := Function.update s.disposed c true } where
  published := by
    rw [h.published, hloop]
    cases failed <;> rfl
  live c' hc' := by cases failed <;> cases hc'
  old c' hc' _ := by
    dsimp only
    by_cases hcc : c' = c
    · rw [hcc, Function.update_self]
    · rw [Function.update_of_ne hcc]
      refine h.old c' hc' ?_
      rw [hloop]
      exact fun heq => hcc (Option.some.inj heq).symm
  read := h.read
  woken _ := .inr (.inr (by cases failed <;> rfl))
  missed := h.missed

end Sound

theorem Sound.goOn {s : State τ} (h : Sound s) {pc pc' : LoopPc} {field subscriber : Option Nat}
    (hloop : s.loop = pc) (hcurrent : pc'.current = pc.current) (hfield : field = pc'.published)
    (hbetween : pc.between = false) :
    Sound { s with loop := pc', waitingCts := field, subscriber } := by
  subst hloop
  exact h.goto hcurrent hfield fun _ hb => absurd (hb.symm.trans hbetween) (by decide)

theorem loopStep_sound {s s' : State τ} {choice : Choice} (h : loopStep s choice = some s')
    (hs : Sound s) : Sound s' := by
  have hpub := hs.published
  unfold loopStep at h
  split at h <;> rename_i hloop <;> rw [hloop] at hpub
  · split at h
    · cases h
      exact hs.goto (by rw [hloop]; rfl) hpub fun _ _ => rfl
    · cases h
      exact hs.begins.goto (by rw [hloop]; rfl) hpub fun hwoken => nomatch hwoken
  · cases h
    exact hs.goOn hloop rfl hpub rfl
  · cases h
    refine hs.goOn hloop ?_ ?_ rfl
    · split <;> rfl
    · rw [hpub]
      split <;> rfl
  · cases h
    exact hs.create hloop
  · next c =>
    split at h
    · cases h
      exact (hs.cancelSource c).goOn hloop rfl hpub rfl
    · cases h
      exact hs.goOn hloop rfl hpub rfl
  · cases h
    exact hs.goOn hloop rfl rfl rfl
  · split at h
    · cases h
      exact hs.goOn hloop rfl hpub rfl
    · cases h
      exact hs.goOn hloop rfl hpub rfl
  · cases h
    refine hs.goOn hloop ?_ ?_ rfl
    · split <;> rfl
    · rw [hpub]
      split <;> rfl
  · cases h
    exact hs.goOn hloop rfl hpub rfl
  · split at h
    · cases h
      exact hs.goOn hloop rfl hpub rfl
    · cases h
  · cases h
    exact hs.goOn hloop rfl rfl rfl
  · cases h
    exact hs.goOn hloop rfl hpub rfl
  · cases h
    exact hs.dispose hloop
  · cases h
  · cases h

/-- The loop falls asleep by one step only, and no step of it is a wake-up that throws. -/
theorem loopStep_eq_some {s s' : State τ} {choice : Choice} (h : loopStep s choice = some s') :
    s'.wakeUpThrew = s.wakeUpThrew ∧ ∀ c interval, s'.loop = .sleeping c interval →
      s.loop = .sleep c interval ∧ s'.cancelled = s.cancelled ∧ s'.missed = s.missed := by
  unfold loopStep at h
  split at h <;> rename_i hloop
  case h_9 =>
    cases h
    exact ⟨rfl, fun c' interval' heq => by cases heq; exact ⟨hloop, rfl, rfl⟩⟩
  all_goals
    first
    | (cases h; done)
    | (cases h; exact ⟨rfl, fun _ _ heq => by cases heq⟩)
    | (split at h <;> cases h <;> exact ⟨rfl, fun _ _ heq => by cases heq⟩)

/-- Cancelling keeps a cancelled source cancelled. -/
theorem cancelled_of_cancelSource {s : State τ} {c d : Nat}
    (h : (s.cancelSource d).cancelled c = false) :
    s.cancelled c = false := by
  rw [State.cancelSource] at h
  dsimp only at h
  by_cases hcd : c = d
  · rw [hcd, Function.update_self] at h
    cases h
  · rwa [Function.update_of_ne hcd] at h

variable [DecidableEq τ] {s s' : State τ} {a : Action τ}

theorem next_sound (hn : next s a = some s') (hs : Sound s) : Sound s' := by
  cases a with
  | loop choice => exact loopStep_sound hn hs
  | cancelToken =>
    dsimp only [next] at hn
    split at hn <;> cases hn
    · exact ⟨hs.published, hs.live, hs.old, hs.read, hs.woken, hs.missed⟩
    · next c _ =>
      have hc := hs.cancelSource c
      exact ⟨hc.published, hc.live, hc.old, hc.read, hc.woken, hc.missed⟩
  | wakeUp t =>
    dsimp only [next] at hn
    split at hn <;> cases hn
    · exact ⟨hs.published, hs.live, hs.old, hs.read, fun _ => .inl rfl, fun _ => rfl⟩
    · next c _ hfield =>
      refine ⟨hs.published, hs.live, hs.old, fun u d hd => ?_, hs.woken, hs.missed⟩
      have hcurrent := LoopPc.current_of_published (hs.published.symm.trans hfield)
      dsimp only at hd
      by_cases hut : u = t
      · rw [hut, Function.update_self] at hd
        exact Option.some.inj hd ▸ (hs.live c hcurrent).1
      · rw [Function.update_of_ne hut] at hd
        exact hs.read u d hd
  | cancel t =>
    have hread : ∀ u d, Function.update s.wakers t none u = some d → d < s.made := by
      intro u d hd
      by_cases hut : u = t
      · rw [hut, Function.update_self] at hd
        cases hd
      · rw [Function.update_of_ne hut] at hd
        exact hs.read u d hd
    dsimp only [next] at hn
    split at hn
    · cases hn
    · next c hc =>
      split at hn <;> cases hn
      · exact ⟨hs.published, hs.live, hs.old, hread, hs.woken, hs.missed⟩
      · next hdisposed =>
        have hcurrent : s.loop.current = some c := by
          by_contra hne
          exact hdisposed (hs.old c (hs.read t c hc) hne)
        have hcancel := hs.cancelSource c
        exact ⟨hcancel.published, hcancel.live, hcancel.old, hread,
          fun _ => .inr (.inl ⟨c, hcurrent, Function.update_self ..⟩), fun _ => rfl⟩

theorem next_good (hn : next s a = some s') (hs : Good s) (hin : InTime s a) : Good s' := by
  refine ⟨next_sound hn hs.sound, ?_, ?_⟩
  · cases a with
    | loop choice => exact (loopStep_eq_some hn).1.trans hs.notThrown
    | cancelToken =>
      dsimp only [next] at hn
      split at hn <;> cases hn <;> exact hs.notThrown
    | wakeUp t =>
      dsimp only [next] at hn
      split at hn <;> cases hn <;> exact hs.notThrown
    | cancel t =>
      dsimp only [next] at hn
      split at hn
      · cases hn
      · next c hc =>
        rw [if_neg (by rw [hin c hc]; decide)] at hn
        cases hn
        exact hs.notThrown
  · intro c interval hloop hcancelled
    cases a with
    | loop choice =>
      obtain ⟨hsleep, hsame, hmissed⟩ := (loopStep_eq_some hn).2 c interval hloop
      exact hmissed.trans (hin c interval hsleep (hsame ▸ hcancelled))
    | cancelToken =>
      dsimp only [next] at hn
      split at hn <;> cases hn
      · exact hs.punctual c interval hloop hcancelled
      · exact hs.punctual c interval hloop (cancelled_of_cancelSource hcancelled)
    | wakeUp t =>
      dsimp only [next] at hn
      split at hn <;> cases hn
      · next hfield =>
        -- a loop that sleeps has published its source
        have hpub := hs.sound.published
        rw [hfield, show s.loop = .sleeping c interval from hloop] at hpub
        cases hpub
      · exact hs.punctual c interval hloop hcancelled
    | cancel t =>
      dsimp only [next] at hn
      split at hn
      · cases hn
      · split at hn <;> cases hn
        · exact hs.punctual c interval hloop hcancelled
        · exact hs.punctual c interval hloop (cancelled_of_cancelSource hcancelled)

/-- A step that is not in time loses a wake-up, or throws. -/
theorem lost_of_not_inTime (hs : Good s) (hin : ¬ InTime s a) :
    ∃ s', next s a = some s' ∧ ¬ (¬ Oversleeps s' ∧ s'.wakeUpThrew = false) := by
  cases a with
  | cancelToken | wakeUp => exact absurd trivial hin
  | loop choice =>
    simp only [InTime] at hin
    push Not at hin
    obtain ⟨c, interval, hloop, hcancelled, hmissed⟩ := hin
    refine ⟨{ s with loop := .sleeping c interval }, ?_, fun h => h.1 ?_⟩
    · simp only [next, loopStep, hloop]
    · exact ⟨c, interval, rfl, hcancelled, hs.sound.missed (by simpa using hmissed)⟩
  | cancel t =>
    simp only [InTime] at hin
    push Not at hin
    obtain ⟨c, hc, hdisposed⟩ := hin
    have hd : s.disposed c = true := by simpa using hdisposed
    refine ⟨{ s with wakers := Function.update s.wakers t none, wakeUpThrew := true }, ?_,
      fun h => nomatch h.2⟩
    simp only [next, hc, hd, if_true]

/-- **The wake-ups that arrive.**  In every run with any number of threads: the
loop never sleeps on past a completed call, and no call throws, exactly if the
loop does not go to sleep on a live token after a call that found no source
since `ProcessBody` began, and each call cancels its source before the loop
disposes of it. -/
theorem no_lost_wakeUp_iff_inTime (τ : Type) [DecidableEq τ] (as : List (Action τ)) :
    (machine τ).AllStates (fun s => ¬ Oversleeps s ∧ s.wakeUpThrew = false) (State.make τ) as ↔
      (machine τ).AllSteps InTime (State.make τ) as := by
  apply Machine.allStates_iff_allSteps (I := Good)
  · exact fun s hs => ⟨hs.not_oversleeps, hs.notThrown⟩
  · exact fun s a s' hs hin hn => next_good hn hs hin
  · exact fun s a hs hin => lost_of_not_inTime hs hin
  · exact good_make

/-- A call in `ProcessBody` finds no source, and the loop goes to sleep for ever.
A call that has read the source is overtaken by the disposal, and throws. -/
theorem wakeUp_lost_and_throws :
    (¬ ∀ s, (machine Nat).Reachable s → ¬ Oversleeps s) ∧
    ¬ ∀ s, (machine Nat).Reachable s → s.wakeUpThrew = false := by
  constructor
  · intro h
    let go : Action Nat := .loop ⟨some none, false, false⟩
    have hrun : ∃ s, (machine Nat).run (State.make Nat)
        (go :: .wakeUp 0 :: List.replicate 8 go) = some s ∧ s.loop = .sleeping 0 none ∧
        s.cancelled 0 = false ∧ s.woken = true := ⟨_, rfl, rfl, rfl, rfl⟩
    obtain ⟨s, hs, hloop, hcancelled, hwoken⟩ := hrun
    exact h s (Machine.Reachable.run (.init rfl) hs) ⟨0, none, hloop, hcancelled, hwoken⟩
  · intro h
    let go : Action Nat := .loop ⟨some (some 0), false, false⟩
    have hrun : ∃ s, (machine Nat).run (State.make Nat)
        (List.replicate 6 go ++ .wakeUp 0 :: List.replicate 5 go ++ [.cancel 0]) = some s ∧
        s.wakeUpThrew = true := ⟨_, rfl, rfl⟩
    obtain ⟨s, hs, hthrew⟩ := hrun
    exact absurd (hthrew.symm.trans (h s (Machine.Reachable.run (.init rfl) hs))) (by decide)

end Garbage.LongRunning.PeriodicFlexible
