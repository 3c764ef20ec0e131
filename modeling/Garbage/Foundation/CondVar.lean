import Mathlib.Data.List.Nodup
import Mathlib.Data.List.Perm.Basic

/-!
# Condition variables

A `CondVar τ` knows which threads are blocked in a wait and which were woken
but have not run yet.  A thread is in at most one of the two, once: the
structure carries this.

A thread is woken by `notifyOne`, which takes the thread to wake as an argument
and so may wake any of them, by `notifyAll`, or by `wake` on its own
(spuriously, or because its time is over).  It leaves with `resume`, when it
has the mutex again.
-/

namespace Garbage.Foundation

/-- The waiters of a condition variable. -/
structure CondVar (τ : Type) where
  blocked : List τ
  woken : List τ
  nodup : (blocked ++ woken).Nodup

namespace CondVar

variable {τ : Type}

/-- The threads in a wait, blocked or woken. -/
def waiters (cv : CondVar τ) : List τ := cv.blocked ++ cv.woken

def idle (τ : Type) : CondVar τ := ⟨[], [], List.nodup_nil⟩

def notifyAll (cv : CondVar τ) : CondVar τ := ⟨[], cv.blocked ++ cv.woken, cv.nodup⟩

@[simp] theorem idle_blocked : (idle τ).blocked = [] := rfl

@[simp] theorem idle_waiters : (idle τ).waiters = [] := rfl

@[simp] theorem notifyAll_blocked (cv : CondVar τ) : cv.notifyAll.blocked = [] := rfl

theorem mem_waiters_of_blocked {cv : CondVar τ} {t : τ} (h : t ∈ cv.blocked) : t ∈ cv.waiters :=
  List.mem_append_left _ h

theorem mem_waiters_of_woken {cv : CondVar τ} {t : τ} (h : t ∈ cv.woken) : t ∈ cv.waiters :=
  List.mem_append_right _ h

/-- A woken thread is not a blocked one. -/
theorem ne_of_blocked_of_woken {cv : CondVar τ} {t u : τ} (ht : t ∈ cv.blocked)
    (hu : u ∈ cv.woken) : u ≠ t := by
  rintro rfl
  exact (List.nodup_append.mp cv.nodup).2.2 _ ht _ hu rfl

variable [DecidableEq τ]

def waits (cv : CondVar τ) (t : τ) : Bool := t ∈ cv.waiters

def block (cv : CondVar τ) (t : τ) : Option (CondVar τ) :=
  if h : t ∈ cv.blocked ++ cv.woken then none
  else some ⟨t :: cv.blocked, cv.woken, List.nodup_cons.mpr ⟨h, cv.nodup⟩⟩

theorem perm_wake {blocked woken : List τ} {t : τ} (h : t ∈ blocked) :
    (blocked.erase t ++ t :: woken).Perm (blocked ++ woken) :=
  List.perm_middle.trans ((List.perm_cons_erase h).symm.append_right woken)

/-- The blocked thread `t` is woken. -/
def wake (cv : CondVar τ) (t : τ) : Option (CondVar τ) :=
  if h : t ∈ cv.blocked then
    some ⟨cv.blocked.erase t, t :: cv.woken, (perm_wake h).nodup_iff.mpr cv.nodup⟩
  else none

/-- Wake the blocked thread that `choice` names; nobody only if nobody is blocked. -/
def notifyOne (cv : CondVar τ) : Option τ → Option (CondVar τ)
  | none => if cv.blocked = [] then some cv else none
  | some t => cv.wake t

/-- The woken thread `t` gets the mutex and leaves. -/
def resume (cv : CondVar τ) (t : τ) : Option (CondVar τ) :=
  if t ∈ cv.woken then
    some ⟨cv.blocked, cv.woken.erase t,
      ((List.Sublist.refl cv.blocked).append List.erase_sublist).nodup cv.nodup⟩
  else none

/-! ### What an operation does to the two lists -/

variable {cv cv' : CondVar τ} {t : τ}

theorem block_eq_some (h : cv.block t = some cv') :
    cv'.blocked = t :: cv.blocked ∧ cv'.woken = cv.woken := by
  rw [block] at h
  split at h
  · cases h
  · cases h
    exact ⟨rfl, rfl⟩

theorem exists_block (h : t ∉ cv.waiters) : ∃ cv', cv.block t = some cv' :=
  ⟨_, dif_neg h⟩

theorem exists_wake (h : t ∈ cv.blocked) : ∃ cv', cv.wake t = some cv' := ⟨_, dif_pos h⟩

theorem wake_eq_some (h : cv.wake t = some cv') :
    t ∈ cv.blocked ∧ cv'.blocked = cv.blocked.erase t ∧ cv'.woken = t :: cv.woken := by
  rw [wake] at h
  split at h
  · next hmem =>
    cases h
    exact ⟨hmem, rfl, rfl⟩
  · cases h

theorem resume_eq_some (h : cv.resume t = some cv') :
    t ∈ cv.woken ∧ cv'.blocked = cv.blocked ∧ cv'.woken = cv.woken.erase t := by
  rw [resume] at h
  split at h
  · next hmem =>
    cases h
    exact ⟨hmem, rfl, rfl⟩
  · cases h

/-- A notification wakes a thread unless none is blocked. -/
theorem notifyOne_eq_some {choice : Option τ} (h : cv.notifyOne choice = some cv') :
    (cv.blocked = [] ∧ cv' = cv) ∨ ∃ t, cv.wake t = some cv' := by
  cases choice with
  | none =>
    rw [notifyOne] at h
    split at h
    · next hb =>
      cases h
      exact .inl ⟨hb, rfl⟩
    · cases h
  | some t => exact .inr ⟨t, h⟩

/-! ### Who waits -/

theorem mem_waiters_block {u : τ} (h : cv.block t = some cv') :
    u ∈ cv'.waiters ↔ u = t ∨ u ∈ cv.waiters := by
  obtain ⟨hb, hw⟩ := block_eq_some h
  rw [waiters, hb, hw, List.cons_append, List.mem_cons, waiters]

theorem mem_waiters_wake {u : τ} (h : cv.wake t = some cv') : u ∈ cv'.waiters ↔ u ∈ cv.waiters := by
  obtain ⟨hmem, hb, hw⟩ := wake_eq_some h
  rw [waiters, hb, hw]
  exact (perm_wake hmem).mem_iff

theorem mem_waiters_notifyOne {choice : Option τ} {u : τ} (h : cv.notifyOne choice = some cv') :
    u ∈ cv'.waiters ↔ u ∈ cv.waiters := by
  rcases notifyOne_eq_some h with ⟨-, rfl⟩ | ⟨t, ht⟩
  · exact Iff.rfl
  · exact mem_waiters_wake ht

theorem mem_waiters_resume {u : τ} (h : cv.resume t = some cv') (hu : u ∈ cv'.waiters) :
    u ≠ t ∧ u ∈ cv.waiters := by
  obtain ⟨hmem, hb, hw⟩ := resume_eq_some h
  rw [waiters, hb, hw] at hu
  have hnodup := List.nodup_append.mp cv.nodup
  rcases List.mem_append.mp hu with hu | hu
  · exact ⟨(ne_of_blocked_of_woken hu hmem).symm, mem_waiters_of_blocked hu⟩
  · obtain ⟨hne, hu⟩ := (List.Nodup.mem_erase_iff hnodup.2.1).mp hu
    exact ⟨hne, mem_waiters_of_woken hu⟩

/-! ### The list of the waiters -/

theorem waiters_perm_block (h : cv.block t = some cv') : cv'.waiters.Perm (t :: cv.waiters) := by
  obtain ⟨hb, hw⟩ := block_eq_some h
  rw [waiters, hb, hw, List.cons_append, waiters]

theorem waiters_perm_notifyOne {choice : Option τ} (h : cv.notifyOne choice = some cv') :
    cv'.waiters.Perm cv.waiters := by
  rcases notifyOne_eq_some h with ⟨-, rfl⟩ | ⟨t, ht⟩
  · exact List.Perm.refl _
  · obtain ⟨hmem, hb, hw⟩ := wake_eq_some ht
    rw [waiters, hb, hw]
    exact perm_wake hmem

theorem waiters_perm_resume (h : cv.resume t = some cv') : cv.waiters.Perm (t :: cv'.waiters) := by
  obtain ⟨hmem, hb, hw⟩ := resume_eq_some h
  rw [waiters, waiters, hb, hw]
  exact ((List.perm_cons_erase hmem).append_left cv.blocked).trans List.perm_middle

/-- A notification wakes one thread at most. -/
theorem woken_length_notifyOne {choice : Option τ} (h : cv.notifyOne choice = some cv') :
    cv'.woken.length ≤ cv.woken.length + 1 := by
  rcases notifyOne_eq_some h with ⟨-, rfl⟩ | ⟨t, ht⟩
  · exact Nat.le_succ _
  · exact Nat.le_of_eq (by rw [(wake_eq_some ht).2.2, List.length_cons])

theorem exists_notifyOne (cv : CondVar τ) : ∃ choice cv', cv.notifyOne choice = some cv' := by
  cases h : cv.blocked with
  | nil => exact ⟨none, cv, if_pos h⟩
  | cons t rest =>
    have ht : t ∈ cv.blocked := h ▸ List.mem_cons_self
    obtain ⟨cv', hcv'⟩ := exists_wake ht
    exact ⟨some t, cv', hcv'⟩

theorem exists_resume (h : t ∈ cv.woken) : ∃ cv', cv.resume t = some cv' := ⟨_, if_pos h⟩

/-! ### Notifications -/

/-- **After a notification a woken thread stands for the blocked ones.** -/
theorem notifyOne_covers {choice : Option τ} (h : cv.notifyOne choice = some cv')
    (hb : cv'.blocked ≠ []) : cv'.woken ≠ [] := by
  rcases notifyOne_eq_some h with ⟨hnil, rfl⟩ | ⟨t, ht⟩
  · exact absurd hnil hb
  · rw [(wake_eq_some ht).2.2]
    exact List.cons_ne_nil _ _

/-- A notification blocks nobody. -/
theorem notifyOne_blocked_nil {choice : Option τ} (h : cv.notifyOne choice = some cv')
    (hb : cv.blocked = []) : cv'.blocked = [] := by
  rcases notifyOne_eq_some h with ⟨-, rfl⟩ | ⟨t, ht⟩
  · exact hb
  · rw [(wake_eq_some ht).2.1, hb, List.erase_nil]

end CondVar

end Garbage.Foundation
