import Garbage.BoundedConcurrentQueue.Queue

/-!
# What the wait keeps

`push` checks the size, waits at most once and inserts, and holds no lock from
the check to the insertion.  So the queue stays within its bound exactly as long
as each insertion would still pass the check (`within_bound_iff_fresh`), and two
producers that pass it together exceed the bound.

A consumer notifies without the mutex, so its notification is lost on a producer
that saw a full queue and has not blocked yet.  No producer is left behind
exactly as long as each producer blocks, and each notification leaves another
one blocked, only in a full queue or with another notification to come
(`not_stranded_iff_watched`).
-/

namespace Garbage.BoundedConcurrentQueue

open Foundation (CondVar Machine)

variable {τ α : Type} [DecidableEq τ] {maxSize : Nat} {spurious : Bool} {s s' : State τ α}

/-! ### The bound -/

/-- A thread that inserts would still pass its own check. -/
def Fresh (maxSize : Nat) (s : State τ α) : Action τ α → Prop
  | .step t _ => (∃ x, s.pc t = .insert x) → full maxSize s = false
  | _ => True

omit [DecidableEq τ] in
theorem full_eq_false : full maxSize s = false ↔ s.items.length < maxSize := by
  simp [full]

/-- The step lemma: only an insertion makes the queue longer. -/
theorem Step.within_bound {a : Action τ α} (h : Step maxSize spurious s a s')
    (hfresh : Fresh maxSize s a) (hs : s.items.length ≤ maxSize) : s'.items.length ≤ maxSize := by
  cases h with
  | goOn => exact hs
  | block => exact hs
  | resume => exact hs
  | wake => exact hs
  | notify => exact hs
  | insert hpc =>
    have hroom := full_eq_false.mp (hfresh ⟨_, hpc⟩)
    rw [goto_items, List.length_append, List.length_singleton]
    exact hroom
  | pop hpc hitems =>
    rw [hitems, List.length_cons] at hs
    exact Nat.le_of_succ_le hs

theorem exceeds_of_not_fresh {a : Action τ α} (hfresh : ¬ Fresh maxSize s a) :
    ∃ s', next maxSize spurious s a = some s' ∧ ¬ s'.items.length ≤ maxSize := by
  cases a with
  | push | tryPop | wake => exact absurd trivial hfresh
  | step t n =>
    obtain ⟨⟨x, hpc⟩, hfull⟩ := Classical.not_imp.mp hfresh
    have hlen : maxSize ≤ s.items.length := by
      rw [full_eq_false] at hfull
      exact Nat.le_of_not_lt hfull
    refine ⟨{ s with items := s.items ++ [x] }.goto t .outside, ?_, ?_⟩
    · simp only [next, threadStep, hpc]
    · rw [goto_items, List.length_append, List.length_singleton]
      omega

/-- **The bound of the queue.**  In every run of any number of threads, with or
without spurious wakeups, the queue never holds more than `maxSize` items exactly
if no thread inserts into a queue that is full at that moment. -/
theorem within_bound_iff_fresh (maxSize : Nat) (spurious : Bool) (as : List (Action τ α)) :
    (machine τ α maxSize spurious).AllStates (fun s => s.items.length ≤ maxSize)
        (State.make τ α) as ↔
      (machine τ α maxSize spurious).AllSteps (Fresh maxSize) (State.make τ α) as := by
  apply Machine.allStates_iff_allSteps (I := fun s => s.items.length ≤ maxSize)
  · exact fun s hs => hs
  · exact fun s a s' hs hfresh hn => (next_step hn).within_bound hfresh hs
  · exact fun s a _ hfresh => exceeds_of_not_fresh hfresh
  · exact Nat.zero_le _

/-- Two producers pass the check of an empty queue for one item, and both insert. -/
theorem bound_exceeded :
    ¬ ∀ maxSize : Nat, 1 ≤ maxSize → ∀ s, (machine Nat Nat maxSize true).Reachable s →
      s.items.length ≤ maxSize := by
  intro h
  let as : List (Action Nat Nat) :=
    [.push 0 7, .push 1 8, .step 0 none, .step 1 none, .step 0 none, .step 1 none]
  have hrun : ∃ s, (machine Nat Nat 1 true).run (State.make Nat Nat) as = some s ∧
      s.items = [7, 8] := ⟨_, rfl, rfl⟩
  obtain ⟨s, hs, hitems⟩ := hrun
  have hle := h 1 (Nat.le_refl 1) s (Machine.Reachable.run (.init rfl) hs)
  rw [hitems] at hle
  exact absurd hle (by decide)

/-! ### Stranded producers -/

/-- A consumer has popped and not notified yet. -/
def State.Notifying (s : State τ α) : Prop := ∃ t x, s.pc t = .notify x

/-- A producer is blocked in a queue with room, and no notification is to come. -/
def Stranded (maxSize : Nat) (s : State τ α) : Prop :=
  s.cv.blocked ≠ [] ∧ full maxSize s = false ∧ ¬ s.Notifying

/-- The producer that blocks, and the producers that a notification leaves
blocked, wait in a full queue or have another notification to come. -/
def Watched (maxSize : Nat) (s : State τ α) : Action τ α → Prop
  | .step t notified =>
    ((∃ x, s.pc t = .block x) → full maxSize s = true ∨ s.Notifying) ∧
    ((∃ x, s.pc t = .notify x) → ∀ u ∈ s.cv.blocked, notified = some u → s.cv.blocked ≠ [u] →
      full maxSize s = true ∨ ∃ v x, v ≠ t ∧ s.pc v = .notify x)
  | _ => True

/-- The waiters of the condition variable are the threads that stand in the wait. -/
def WaitersWait (s : State τ α) : Prop := ∀ t ∈ s.cv.waiters, ∃ x, s.pc t = .waiting x

/-- No producer is stranded, and the waiters stand in the wait. -/
structure Attended (maxSize : Nat) (s : State τ α) : Prop where
  notStranded : ¬ Stranded maxSize s
  waitersWait : WaitersWait s

omit [DecidableEq τ] in
theorem WaitersWait.not_mem {t : τ} (hs : WaitersWait s) (hpc : ∀ x, s.pc t ≠ .waiting x) :
    t ∉ s.cv.waiters := by
  intro ht
  obtain ⟨x, hx⟩ := hs t ht
  exact hpc x hx

theorem waitersWait_goto {t : τ} {pc : Pc α} (hself : t ∈ s.cv.waiters → ∃ x, pc = .waiting x)
    (hrest : ∀ u ∈ s.cv.waiters, u ≠ t → ∃ x, s.pc u = .waiting x) :
    WaitersWait (s.goto t pc) := by
  intro u hu
  by_cases hut : u = t
  · subst hut
    obtain ⟨x, rfl⟩ := hself hu
    exact ⟨x, goto_self u _⟩
  · obtain ⟨x, hx⟩ := hrest u hu hut
    exact ⟨x, (goto_ne pc hut).trans hx⟩

theorem Step.waitersWait {a : Action τ α} (h : Step maxSize spurious s a s')
    (hs : WaitersWait s) : WaitersWait s' := by
  cases h with
  | goOn hpc =>
    apply waitersWait_goto
    · exact fun ht => absurd ht (hs.not_mem (Pc.ne_waiting_of_quiet hpc))
    · exact fun u hu _ => hs u hu
  | @block t x cv _ hpc hcv =>
    apply waitersWait_goto
    · exact fun _ => ⟨x, rfl⟩
    · exact fun u hu hut => hs u (((CondVar.mem_waiters_block hcv).mp hu).resolve_left hut)
  | resume hpc hcv =>
    apply waitersWait_goto
    · exact fun ht => absurd rfl (CondVar.mem_waiters_resume hcv ht).1
    · exact fun u hu _ => hs u (CondVar.mem_waiters_resume hcv hu).2
  | insert hpc =>
    apply waitersWait_goto
    · exact fun ht => absurd ht (hs.not_mem (by simp [hpc]))
    · exact fun u hu _ => hs u hu
  | pop hpc =>
    apply waitersWait_goto
    · exact fun ht => absurd ht (hs.not_mem (by simp [hpc]))
    · exact fun u hu _ => hs u hu
  | notify hpc hcv =>
    apply waitersWait_goto
    · intro ht
      exact absurd ((CondVar.mem_waiters_notifyOne hcv).mp ht) (hs.not_mem (by simp [hpc]))
    · exact fun u hu _ => hs u ((CondVar.mem_waiters_notifyOne hcv).mp hu)
  | wake _ hcv => exact fun u hu => hs u ((CondVar.mem_waiters_wake hcv).mp hu)

/-- A thread that is not at its notification leaves the others at theirs. -/
theorem State.Notifying.goto {t : τ} {pc : Pc α} (h : s.Notifying)
    (hpc : ∀ x, s.pc t ≠ .notify x) : (s.goto t pc).Notifying := by
  obtain ⟨u, x, hu⟩ := h
  have hut : u ≠ t := by
    intro hut
    exact hpc x (hut ▸ hu)
  exact ⟨u, x, (goto_ne pc hut).trans hu⟩

theorem Step.none_stranded {a : Action τ α} (h : Step maxSize spurious s a s')
    (hwatched : Watched maxSize s a) (hs : ¬ Stranded maxSize s) : ¬ Stranded maxSize s' := by
  intro ⟨hblocked, hroom, hquiet⟩
  cases h with
  | goOn hpc =>
    exact hs ⟨hblocked, hroom, fun hn => hquiet (hn.goto (Pc.ne_notify_of_quiet hpc))⟩
  | @block t x cv _ hpc hcv =>
    rcases hwatched.1 ⟨x, hpc⟩ with hfull | hn
    · exact absurd (hfull.symm.trans hroom) (by decide)
    · exact hquiet (State.Notifying.goto (s := { s with mt := none, cv := cv }) hn (by simp [hpc]))
  | @resume t x cv _ hpc hcv =>
    have hb : s.cv.blocked ≠ [] := by
      rw [← (CondVar.resume_eq_some hcv).2.1]
      exact hblocked
    have hkeep : ¬ s.Notifying := fun hn =>
      hquiet (State.Notifying.goto (s := { s with mt := some t, cv := cv }) hn (by simp [hpc]))
    exact hs ⟨hb, hroom, hkeep⟩
  | @insert t x _ hpc =>
    have hless : full maxSize s = false := by
      rw [full_eq_false, goto_items, List.length_append] at hroom
      exact full_eq_false.mpr (by omega)
    have hkeep : ¬ s.Notifying := fun hn =>
      hquiet (State.Notifying.goto (s := { s with items := s.items ++ [x] }) hn (by simp [hpc]))
    exact hs ⟨hblocked, hless, hkeep⟩
  | @pop t x rest _ hpc hitems => exact hquiet ⟨t, x, goto_self t _⟩
  | @notify t x cv n hpc hcv =>
    have hother : ¬ ∃ v y, v ≠ t ∧ s.pc v = .notify y := fun ⟨v, y, hvt, hv⟩ =>
      hquiet ⟨v, y, (goto_ne _ hvt).trans hv⟩
    cases n with
    | none =>
      have hnil : s.cv.blocked = [] := by
        by_contra hne
        rw [CondVar.notifyOne, if_neg hne] at hcv
        cases hcv
      exact hblocked (CondVar.notifyOne_blocked_nil hcv hnil)
    | some u =>
      obtain ⟨hu, hb, -⟩ := CondVar.wake_eq_some hcv
      have hmore : s.cv.blocked ≠ [u] := by
        intro honly
        apply hblocked
        show cv.blocked = []
        rw [hb, honly, List.erase_cons_head]
      rcases hwatched.2 ⟨x, hpc⟩ u hu rfl hmore with hfull | hn
      · exact absurd (hfull.symm.trans hroom) (by decide)
      · exact hother hn
  | @wake t cv _ hcv =>
    exact hs ⟨List.ne_nil_of_mem (CondVar.wake_eq_some hcv).1, hroom, hquiet⟩

theorem stranded_of_not_watched {a : Action τ α} (hs : WaitersWait s)
    (hwatched : ¬ Watched maxSize s a) :
    ∃ s', next maxSize spurious s a = some s' ∧ Stranded maxSize s' := by
  cases a with
  | push | tryPop | wake => exact absurd trivial hwatched
  | step t n =>
    rcases not_and_or.mp hwatched with hblock | hnotify
    · obtain ⟨⟨x, hpc⟩, hlate⟩ := Classical.not_imp.mp hblock
      obtain ⟨hroom, hquiet⟩ := not_or.mp hlate
      obtain ⟨cv, hcv⟩ := CondVar.exists_block (hs.not_mem (t := t) (by simp [hpc]))
      refine ⟨{ s with mt := none, cv := cv }.goto t (.waiting x), ?_, ?_, ?_, ?_⟩
      · simp only [next, threadStep, hpc, hcv, Option.map_some]
      · rw [goto_cv, (CondVar.block_eq_some hcv).1]
        exact List.cons_ne_nil _ _
      · exact Bool.eq_false_iff.mpr hroom
      · rintro ⟨u, y, hu⟩
        by_cases hut : u = t
        · rw [hut, goto_self] at hu
          cases hu
        · exact hquiet ⟨u, y, (goto_ne _ hut).symm.trans hu⟩
    · obtain ⟨⟨x, hpc⟩, hlate⟩ := Classical.not_imp.mp hnotify
      push Not at hlate
      obtain ⟨u, hu, rfl, hmore, hroom, hother⟩ := hlate
      obtain ⟨cv, hcv⟩ := CondVar.exists_wake hu
      refine ⟨{ s with cv := cv }.goto t .outside, ?_, ?_, ?_, ?_⟩
      · simp only [next, threadStep, hpc, CondVar.notifyOne, hcv, Option.map_some]
      · rw [goto_cv, (CondVar.wake_eq_some hcv).2.1]
        intro hnil
        rcases List.erase_eq_nil_iff.mp hnil with hb | hb
        · exact List.ne_nil_of_mem hu hb
        · exact hmore hb
      · exact Bool.eq_false_iff.mpr hroom
      · rintro ⟨v, y, hv⟩
        by_cases hvt : v = t
        · rw [hvt, goto_self] at hv
          cases hv
        · exact hother v y hvt ((goto_ne _ hvt).symm.trans hv)

/-- **No producer is stranded**, in a run of any number of threads, exactly if
each producer blocks, and each notification leaves another producer blocked, only
in a full queue or with another consumer still to notify. -/
theorem not_stranded_iff_watched (maxSize : Nat) (spurious : Bool) (as : List (Action τ α)) :
    (machine τ α maxSize spurious).AllStates (fun s => ¬ Stranded maxSize s)
        (State.make τ α) as ↔
      (machine τ α maxSize spurious).AllSteps (Watched maxSize) (State.make τ α) as := by
  apply Machine.allStates_iff_allSteps (I := Attended maxSize)
  · exact fun s hs => hs.notStranded
  · exact fun s a s' hs hwatched hn =>
      ⟨(next_step hn).none_stranded hwatched hs.notStranded,
        (next_step hn).waitersWait hs.waitersWait⟩
  · intro s a hs hwatched
    obtain ⟨s', hn, hstranded⟩ := stranded_of_not_watched hs.waitersWait hwatched
    exact ⟨s', hn, fun h => h hstranded⟩
  · exact ⟨fun h => h.1 rfl, fun t ht => absurd ht List.not_mem_nil⟩

/-- A producer sees a full queue; a consumer empties it and notifies nobody; the
producer blocks, and nothing is left to wake it. -/
theorem producer_stranded :
    ¬ ∀ maxSize : Nat, 1 ≤ maxSize → ∀ s, (machine Nat Nat maxSize false).Reachable s →
      ¬ Stranded maxSize s := by
  intro h
  let as : List (Action Nat Nat) :=
    [.push 0 7, .step 0 none, .step 0 none, .push 0 8, .step 0 none,
      .tryPop 1, .step 1 none, .step 1 none, .step 0 none, .step 0 none]
  have hrun : ∃ s, (machine Nat Nat 1 false).run (State.make Nat Nat) as = some s ∧
      s.cv.blocked = [0] ∧ s.items = [] ∧
        s.pc = fun t => if t = 0 then .waiting 8 else .outside := by
    refine ⟨_, rfl, rfl, rfl, ?_⟩
    funext t
    simp [State.goto, State.make, Function.update_apply]
    grind
  obtain ⟨s, hs, hblocked, hitems, hpc⟩ := hrun
  refine h 1 (Nat.le_refl 1) s (Machine.Reachable.run (.init rfl) hs) ⟨?_, ?_, ?_⟩
  · rw [hblocked]
    decide
  · rw [full_eq_false, hitems]
    decide
  · rintro ⟨t, x, ht⟩
    rw [hpc] at ht
    dsimp only at ht
    split at ht <;> cases ht

end Garbage.BoundedConcurrentQueue
