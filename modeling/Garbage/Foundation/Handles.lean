import Mathlib.Data.List.Nodup
import Mathlib.Logic.Function.Basic

/-!
# Handles

`Handles τ π` are handles with names in `τ`, each to an object in `π` or to none.
`refs p` is the number of handles to `p`.  It changes by one for the object that
a handle leaves and for the one that it goes to.
-/

namespace Garbage.Foundation

/-- Handles with different names. -/
structure Handles (τ π : Type) where
  names : List τ
  target : τ → Option π
  nodup : names.Nodup

namespace Handles

variable {τ π : Type}

def empty : Handles τ π := ⟨[], fun _ => none, List.nodup_nil⟩

section Steps

variable [DecidableEq τ]

def add (H : Handles τ π) (h : τ) (o : Option π) (hh : h ∉ H.names) : Handles τ π :=
  ⟨h :: H.names, Function.update H.target h o, List.nodup_cons.mpr ⟨hh, H.nodup⟩⟩

/-- The handle goes to another object. -/
def retarget (H : Handles τ π) (h : τ) (o : Option π) : Handles τ π :=
  ⟨H.names, Function.update H.target h o, H.nodup⟩

def remove (H : Handles τ π) (h : τ) : Handles τ π := ⟨H.names.erase h, H.target, H.nodup.erase h⟩

end Steps

variable [DecidableEq π]

/-- The number of handles to `p`. -/
def refs (H : Handles τ π) (p : π) : Nat := H.names.countP fun h => H.target h = some p

/-- One for the object of a handle. -/
def point (o : Option π) (p : π) : Nat := if o = some p then 1 else 0

variable {H : Handles τ π} {h k : τ} {o : Option π} {p : π}

@[simp] theorem refs_empty (p : π) : (empty : Handles τ π).refs p = 0 := rfl

@[simp] theorem point_none (p : π) : point none p = 0 := if_neg nofun

theorem point_some (p q : π) : point (some q) p = if p = q then 1 else 0 := by
  unfold point
  by_cases hpq : p = q
  · rw [if_pos hpq, if_pos (congrArg some hpq.symm)]
  · rw [if_neg hpq, if_neg fun he => hpq (Option.some.inj he).symm]

theorem refs_pos (hh : h ∈ H.names) (hp : H.target h = some p) : 0 < H.refs p :=
  List.countP_pos_iff.mpr ⟨h, hh, by simpa using hp⟩

variable [DecidableEq τ]

theorem countP_update {names : List τ} {f : τ → Option π} (hh : h ∉ names) :
    names.countP (fun k => Function.update f h o k = some p) =
      names.countP fun k => f k = some p := by
  refine List.countP_congr fun k hk => ?_
  have hne : k ≠ h := fun he => hh (he ▸ hk)
  rw [Function.update_of_ne hne]

theorem refs_add (hh : h ∉ H.names) : (H.add h o hh).refs p = H.refs p + point o p := by
  show (h :: H.names).countP (fun k => Function.update H.target h o k = some p) = _
  rw [List.countP_cons, countP_update hh, Function.update_self]
  simp only [decide_eq_true_eq]
  rfl

/-- The references without those of one handle. -/
theorem refs_remove (hh : h ∈ H.names) : (H.remove h).refs p + point (H.target h) p = H.refs p := by
  have hcount := (List.perm_cons_erase hh).countP_eq fun k => decide (H.target k = some p)
  rw [List.countP_cons] at hcount
  simp only [decide_eq_true_eq] at hcount
  exact hcount.symm

theorem refs_retarget (hh : h ∈ H.names) :
    (H.retarget h o).refs p + point (H.target h) p = H.refs p + point o p := by
  have hnot : h ∉ H.names.erase h := H.nodup.not_mem_erase
  have hold := refs_remove (p := p) hh
  have hnew := refs_remove (p := p) (show h ∈ (H.retarget h o).names from hh)
  have hrest : ((H.retarget h o).remove h).refs p = (H.remove h).refs p := countP_update hnot
  rw [show (H.retarget h o).target h = o from Function.update_self .., hrest] at hnew
  omega

end Handles

end Garbage.Foundation
