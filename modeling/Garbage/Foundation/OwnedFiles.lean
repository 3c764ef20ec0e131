import Mathlib.Logic.Function.Basic
import Mathlib.Data.List.Basic

/-!
# Files and their owners

`OwnedFiles π α` are the files at the paths `π`, each with the list of those who
own it.  A file is created with an owner, deleted, moved over another one, or
taken over by a further owner.

A path is `Claimed` if the file there, should there be one, has an owner.  No
operation ends that.
-/

namespace Garbage.Foundation

/-- What is at a path: nothing, or a file with its owners. -/
abbrev OwnedFiles (π α : Type) := π → Option (List α)

namespace OwnedFiles

variable {π α : Type}

/-- `a` owns the file at `p`. -/
def OwnedBy (f : OwnedFiles π α) (p : π) (a : α) : Prop := ∃ owners, f p = some owners ∧ a ∈ owners

/-- No file at `p` is without an owner. -/
def Claimed (f : OwnedFiles π α) (p : π) : Prop := f p ≠ some []

/-- A path without a file is claimed. -/
theorem claimed_of_none {f : OwnedFiles π α} {p : π} (h : f p = none) : f.Claimed p := by
  unfold Claimed
  rw [h]
  nofun

variable [DecidableEq π]

/-- Create a file for `a`, unless there is one. -/
def create (f : OwnedFiles π α) (p : π) (a : α) : OwnedFiles π α :=
  match f p with
  | none => Function.update f p (some [a])
  | some _ => f

def delete (f : OwnedFiles π α) (p : π) : OwnedFiles π α := Function.update f p none

/-- Move the file at `p` over the one at `q`, for `a`. -/
def move (f : OwnedFiles π α) (p q : π) (a : α) : OwnedFiles π α :=
  Function.update (f.delete p) q (some [a])

/-- `a` owns the file at `p` too. -/
def takeOver (f : OwnedFiles π α) (p : π) (a : α) : OwnedFiles π α :=
  match f p with
  | none => f
  | some owners => Function.update f p (some (a :: owners))

variable {f : OwnedFiles π α} {p q : π} {a b : α}

/-! ### Who owns a file afterwards -/

theorem ownedBy_update {o : Option (List α)}
    (h : OwnedBy (Function.update f q o) p a) :
    (p = q ∧ ∃ owners, o = some owners ∧ a ∈ owners) ∨ (p ≠ q ∧ f.OwnedBy p a) := by
  obtain ⟨owners, hp, ha⟩ := h
  by_cases hpq : p = q
  · rw [hpq, Function.update_self] at hp
    exact .inl ⟨hpq, owners, hp, ha⟩
  · rw [Function.update_of_ne hpq] at hp
    exact .inr ⟨hpq, owners, hp, ha⟩

theorem ownedBy_create (h : (f.create q b).OwnedBy p a) :
    f.OwnedBy p a ∨ (p = q ∧ a = b ∧ f q = none) := by
  unfold create at h
  split at h
  · next hq =>
    rcases ownedBy_update h with ⟨hpq, owners, howners, ha⟩ | ⟨-, hp⟩
    · cases howners
      exact .inr ⟨hpq, List.mem_singleton.mp ha, hq⟩
    · exact .inl hp
  · exact .inl h

theorem ownedBy_delete (h : (f.delete q).OwnedBy p a) : p ≠ q ∧ f.OwnedBy p a := by
  rcases ownedBy_update h with ⟨-, owners, howners, -⟩ | hp
  · cases howners
  · exact hp

theorem ownedBy_move {src : π} (h : (f.move src q b).OwnedBy p a) :
    (p = q ∧ a = b) ∨ f.OwnedBy p a := by
  rcases ownedBy_update h with ⟨hpq, owners, howners, ha⟩ | ⟨-, hp⟩
  · cases howners
    exact .inl ⟨hpq, List.mem_singleton.mp ha⟩
  · exact .inr (ownedBy_delete hp).2

theorem ownedBy_takeOver (h : (f.takeOver q b).OwnedBy p a) :
    f.OwnedBy p a ∨ (p = q ∧ a = b ∧ f q ≠ none) := by
  unfold takeOver at h
  split at h
  · exact .inl h
  · next owners hq =>
    rcases ownedBy_update h with ⟨rfl, owners', howners, ha⟩ | ⟨-, hp⟩
    · cases howners
      rcases List.mem_cons.mp ha with hab | ha
      · exact .inr ⟨rfl, hab, by rw [hq]; nofun⟩
      · exact .inl ⟨owners, hq, ha⟩
    · exact .inl hp

/-! ### Claimed paths -/

theorem Claimed.update {o : Option (List α)} (h : f.Claimed p) (ho : o ≠ some []) :
    Claimed (Function.update f q o) p := by
  unfold Claimed
  by_cases hpq : p = q
  · rwa [hpq, Function.update_self]
  · rwa [Function.update_of_ne hpq]

theorem Claimed.create (h : f.Claimed p) : (f.create q b).Claimed p := by
  unfold OwnedFiles.create
  split
  · exact h.update nofun
  · exact h

theorem Claimed.delete (h : f.Claimed p) : (f.delete q).Claimed p := h.update nofun

theorem Claimed.move {src : π} (h : f.Claimed p) : (f.move src q b).Claimed p :=
  h.delete.update nofun

theorem Claimed.takeOver (h : f.Claimed p) : (f.takeOver q b).Claimed p := by
  unfold OwnedFiles.takeOver
  split
  · exact h
  · exact h.update nofun

/-- The file that was taken over has an owner. -/
theorem claimed_takeOver : (f.takeOver p a).Claimed p := by
  unfold OwnedFiles.takeOver
  split
  · next hp =>
    unfold Claimed
    rw [hp]
    nofun
  · unfold Claimed
    rw [Function.update_self]
    nofun

end OwnedFiles

end Garbage.Foundation
