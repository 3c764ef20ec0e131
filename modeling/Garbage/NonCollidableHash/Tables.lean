import Mathlib.Data.List.Induction
import Mathlib.Logic.Function.Basic
import Garbage.Foundation.Machine
import Garbage.NonCollidableHash.Algorithm

/-!
# Sequences of calls on the two tables

Two databases run the algorithm of `Algorithm.lean`.

* In `Tables` an added row is seen by the next query.  `resolves_collisions`:
  after any calls the composite key is unique, every stored value has exactly
  one row, and each referencer row reads back its own last value.
* In `UnitOfWork` an added row is pending until `saveChanges`, and queries see
  the saved rows only.  Here the key does not stay unique
  (`not_unique_while_pending`): two calls with one new value and no save
  between them add the same row twice.  `unique_iff_no_pending_clash` is the
  exact condition: a call must reuse a saved row, or its hash must have no
  pending row.

Both rest on `Keyed`, the invariant of the referenced rows, and on
`Keyed.append`, which says when one more row keeps it.
-/

namespace Garbage.NonCollidableHash

open Foundation (Machine)

/-! ### The referenced rows -/

/-- The referenced rows have distinct keys and distinct values, and each is
filed under the hash of its value. -/
structure Keyed (alg : NonCollidableHashForeignerKey) (rows : List ReferencedRow) : Prop where
  keys : (rows.map ReferencedRow.key).Nodup
  values : (rows.map ReferencedRow.value).Nodup
  hashed : ∀ row ∈ rows, row.hash = alg.hasher row.value

theorem Keyed.nil (alg : NonCollidableHashForeignerKey) : Keyed alg [] :=
  ⟨List.nodup_nil, List.nodup_nil, fun row h => by simp at h⟩

/-- **A row under the first free collider keeps the table keyed**, provided the
query that chose the collider saw every row of its hash. -/
theorem Keyed.append {alg : NonCollidableHashForeignerKey} {rows visible : List ReferencedRow}
    {row : ReferencedRow} (h : Keyed alg rows) (hhash : row.hash = alg.hasher row.value)
    (hseen : ∀ other ∈ rows, other.hash = row.hash → other ∈ visible)
    (hcollider : row.collider = getFirstFreeColliderOfHash visible row.hash)
    (hvalue : ∀ other ∈ visible, other.hash = row.hash → other.value ≠ row.value) :
    Keyed alg (rows ++ [row]) := by
  refine ⟨?_, ?_, ?_⟩
  · rw [List.map_append, List.map_singleton, ← List.concat_eq_append, List.nodup_concat]
    refine ⟨?_, h.keys⟩
    intro hmem
    obtain ⟨other, hother, hkey⟩ := List.mem_map.mp hmem
    obtain ⟨hh, hc⟩ := Prod.mk.inj hkey
    have hlt := lt_getFirstFreeColliderOfHash (hseen other hother hh)
    rw [hh, ← hcollider] at hlt
    omega
  · rw [List.map_append, List.map_singleton, ← List.concat_eq_append, List.nodup_concat]
    refine ⟨?_, h.values⟩
    intro hmem
    obtain ⟨other, hother, hval⟩ := List.mem_map.mp hmem
    have hh : other.hash = row.hash := by rw [h.hashed other hother, hval, hhash]
    exact hvalue other (hseen other hother hh) hh hval
  · intro other hother
    rcases List.mem_append.mp hother with hold | hnew
    · exact h.hashed other hold
    · rw [List.mem_singleton.mp hnew]; exact hhash

/-! ### Rows visible at once -/

/-- The object set whose added rows the next query sees. -/
def visibleSet : ObjectSet (List ReferencedRow) where
  query db := db
  addObject db row := db ++ [row]

/-- The referencer rows, named by `ρ`, and the referenced table. -/
structure Tables (ρ : Type) where
  referencers : ρ → ReferencerRow
  referenced : List ReferencedRow

namespace Tables

variable {ρ : Type}

/-- `GetValue` of the referencer row `r`. -/
def getValue (t : Tables ρ) (r : ρ) : Option String :=
  NonCollidableHashForeignerKey.getValue visibleSet t.referenced (t.referencers r)

/-- What a referencer row must hold when `v` is its value: a null column for
null, else the key of a row that stores `v`. -/
def Refers (rows : List ReferencedRow) (referencer : ReferencerRow) : Option String → Prop
  | none => referencer.hash = none ∨ referencer.collider = none
  | some v => ∃ row ∈ rows, row.value = v ∧ referencer = ⟨some row.hash, some row.collider⟩

theorem Refers.mono {rows rows' : List ReferencedRow} (hsub : ∀ row ∈ rows, row ∈ rows')
    {referencer : ReferencerRow} {v : Option String} (h : Refers rows referencer v) :
    Refers rows' referencer v := by
  cases v with
  | none => exact h
  | some v =>
    obtain ⟨row, hrow, hval, heq⟩ := h
    exact ⟨row, hsub row hrow, hval, heq⟩

theorem Refers.getValue {t : Tables ρ} (hkeys : (t.referenced.map ReferencedRow.key).Nodup)
    {r : ρ} {v : Option String} (h : Refers t.referenced (t.referencers r) v) :
    t.getValue r = v := by
  cases v with
  | none =>
    rw [Tables.getValue, NonCollidableHashForeignerKey.getValue]
    rcases h with hnone | hnone
    · rw [hnone]
    · rw [hnone]; split <;> simp_all
  | some v =>
    obtain ⟨row, hrow, hval, heq⟩ := h
    rw [Tables.getValue, heq, ← hval]
    exact getValue_of_mem hkeys hrow

variable [DecidableEq ρ] (alg : NonCollidableHashForeignerKey)

/-- `InsertOrUpdateValue` on the referencer row `c.1` with the value `c.2`. -/
def insertOrUpdateValue (t : Tables ρ) (c : ρ × Option String) : Tables ρ :=
  let u := alg.insertOrUpdateValue visibleSet t.referenced c.2
  { referencers := Function.update t.referencers c.1 u.referencerRow, referenced := u.db }

/-- What the last of the calls on `r` gave it to store. -/
def lastStored (calls : List (ρ × Option String)) (r : ρ) : Option String :=
  (calls.filter fun c => c.1 = r).getLast?.bind fun c => alg.stored c.2

/-- The converted non-blank values the calls gave to store. -/
def inserted (calls : List (ρ × Option String)) : List String :=
  calls.filterMap fun c => alg.stored c.2

theorem lastStored_concat_self (calls : List (ρ × Option String)) (c : ρ × Option String) :
    lastStored alg (calls ++ [c]) c.1 = alg.stored c.2 := by
  simp [lastStored, List.filter_append]

theorem lastStored_concat_ne (calls : List (ρ × Option String)) {c : ρ × Option String} {r : ρ}
    (h : r ≠ c.1) : lastStored alg (calls ++ [c]) r = lastStored alg calls r := by
  simp [lastStored, List.filter_append, Ne.symm h]

/-- The invariant of a history of calls: the rows are keyed and store exactly
the values inserted, and every referencer row refers to its last value. -/
structure Inv (calls : List (ρ × Option String)) (t : Tables ρ) : Prop where
  keyed : Keyed alg t.referenced
  stored : ∀ v, v ∈ t.referenced.map ReferencedRow.value ↔ v ∈ inserted alg calls
  refers : ∀ r, Refers t.referenced (t.referencers r) (lastStored alg calls r)

variable {alg}

/-- The references after a call: the new one for its own row, the old ones elsewhere. -/
theorem Inv.refers_update {calls : List (ρ × Option String)} {t : Tables ρ} (h : Inv alg calls t)
    {c : ρ × Option String} {rows : List ReferencedRow} {referencer : ReferencerRow}
    (hsub : ∀ row ∈ t.referenced, row ∈ rows) (hnew : Refers rows referencer (alg.stored c.2))
    (r : ρ) : Refers rows (Function.update t.referencers c.1 referencer r)
      (lastStored alg (calls ++ [c]) r) := by
  by_cases hr : r = c.1
  · rw [hr, Function.update_self, lastStored_concat_self]
    exact hnew
  · rw [Function.update_of_ne hr, lastStored_concat_ne alg calls hr]
    exact (h.refers r).mono hsub

theorem Inv.call {calls : List (ρ × Option String)} {t : Tables ρ} (h : Inv alg calls t)
    (c : ρ × Option String) : Inv alg (calls ++ [c]) (t.insertOrUpdateValue alg c) := by
  have hins : ∀ v, v ∈ inserted alg (calls ++ [c]) ↔
      v ∈ inserted alg calls ∨ alg.stored c.2 = some v := by
    intro v
    rw [inserted, inserted, List.filterMap_append, List.mem_append]
    exact or_congr_right (by simp)
  rw [insertOrUpdateValue]
  rcases insertOrUpdateValue_cases alg visibleSet t.referenced c.2 with
    ⟨hst, hu⟩ | ⟨row, hrow, hst, hhash, hu⟩ | ⟨row, hst, hhash, hcollider, hvalue, hu⟩
  · rw [hu]
    refine ⟨h.keyed, fun v => ?_, h.refers_update (fun _ hr => hr) ?_⟩
    · rw [hins, hst, h.stored]; simp
    · rw [hst]; exact Or.inl rfl
  · rw [hu]
    refine ⟨h.keyed, fun v => ?_, h.refers_update (fun _ hr => hr) ?_⟩
    · rw [hins, hst, ← h.stored]
      constructor
      · exact Or.inl
      · rintro (hv | hv)
        · exact hv
        · rw [← Option.some.inj hv]; exact List.mem_map_of_mem hrow
    · rw [hst]; exact ⟨row, hrow, rfl, rfl⟩
  · rw [hu]
    refine ⟨h.keyed.append hhash (fun _ ho _ => ho) hcollider hvalue, fun v => ?_,
      h.refers_update (fun _ hr => List.mem_append_left _ hr) ?_⟩
    · show v ∈ (t.referenced ++ [row]).map ReferencedRow.value ↔ _
      rw [hins, hst, ← h.stored, List.map_append, List.mem_append]
      simp [eq_comm]
    · rw [hst]; exact ⟨row, List.mem_append_right _ (List.mem_singleton_self row), rfl, rfl⟩

theorem inv_foldl {referencers : ρ → ReferencerRow}
    (hnull : ∀ r, (referencers r).hash = none ∨ (referencers r).collider = none)
    (calls : List (ρ × Option String)) :
    Inv alg calls (calls.foldl (insertOrUpdateValue alg) ⟨referencers, []⟩) := by
  induction calls using List.reverseRecOn with
  | nil => exact ⟨Keyed.nil alg, fun v => by simp [inserted], hnull⟩
  | append_singleton calls c ih =>
    rw [List.foldl_append]
    exact ih.call c

/-- **Collisions of the hash are resolved.**  Start with an empty referenced
table and referencer rows that refer to nothing in it, and make any calls.
Then the composite keys are distinct, a value has exactly one row if it was
inserted and none otherwise, each referencer row reads its last value (null
for null or blank), and one more call on another row does not change that. -/
theorem resolves_collisions (alg : NonCollidableHashForeignerKey)
    (referencers : ρ → ReferencerRow)
    (hnull : ∀ r, (referencers r).hash = none ∨ (referencers r).collider = none)
    (calls : List (ρ × Option String)) :
    let t := calls.foldl (insertOrUpdateValue alg) ⟨referencers, []⟩
    (t.referenced.map ReferencedRow.key).Nodup ∧
    (∀ v, (t.referenced.map ReferencedRow.value).count v =
      if v ∈ inserted alg calls then 1 else 0) ∧
    (∀ r, t.getValue r = lastStored alg calls r) ∧
    (∀ c r, r ≠ c.1 → (t.insertOrUpdateValue alg c).getValue r = t.getValue r) := by
  intro t
  have h : Inv alg calls t := inv_foldl hnull calls
  refine ⟨h.keyed.keys, fun v => ?_, fun r => (h.refers r).getValue h.keyed.keys, fun c r hr => ?_⟩
  · split
    · next hv => exact List.count_eq_one_of_mem h.keyed.values ((h.stored v).mpr hv)
    · next hv => exact List.count_eq_zero_of_not_mem fun hmem => hv ((h.stored v).mp hmem)
  · have h' := h.call c
    rw [(h.refers r).getValue h.keyed.keys, (h'.refers r).getValue h'.keyed.keys,
      lastStored_concat_ne alg calls hr]

/-- Two values under one hash, the first given again to a second row. -/
theorem resolves_collisions_constant_hash :
    let alg : NonCollidableHashForeignerKey := ⟨fun _ => "h", id⟩
    let calls : List (ℕ × Option String) := [(0, some "a"), (1, some "b"), (2, some "a")]
    let t := calls.foldl (insertOrUpdateValue alg) ⟨fun _ => ⟨none, none⟩, []⟩
    (t.referenced.map ReferencedRow.key).Nodup ∧ t.getValue 2 = lastStored alg calls 2 :=
  let h := resolves_collisions ⟨fun _ => "h", id⟩ (fun _ : ℕ => ⟨none, none⟩)
    (fun _ => Or.inl rfl) [(0, some "a"), (1, some "b"), (2, some "a")]
  ⟨h.1, h.2.2.1 2⟩

end Tables

/-! ### Rows pending until they are saved -/

/-- One context: its saved rows and the rows `AddObject` has made pending. -/
structure Context where
  saved : List ReferencedRow
  pending : List ReferencedRow

/-- The saved and the pending rows together. -/
def Context.rows (db : Context) : List ReferencedRow := db.saved ++ db.pending

/-- The object set of a context: queries see the saved rows, added rows are pending. -/
def contextSet : ObjectSet Context where
  query db := db.saved
  addObject db row := { db with pending := db.pending ++ [row] }

theorem rows_addObject (db : Context) (row : ReferencedRow) :
    (contextSet.addObject db row).rows = db.rows ++ [row] :=
  (List.append_assoc db.saved db.pending [row]).symm

def Context.saveChanges (db : Context) : Context :=
  { saved := db.saved ++ db.pending, pending := [] }

/-- What a user of one context does. -/
inductive UnitOfWork.Action
  | insertOrUpdateValue (value : Option String)
  | saveChanges

namespace UnitOfWork

/-- A unit of work on a context whose saved rows are keyed and which has
nothing pending.  The referencer rows do not steer the algorithm and are left
out.  A collider is a number here and a 32-bit `int` in the code, so the rows of
one hash must be so few that `Max() + 1` does not overflow. -/
def machine (alg : NonCollidableHashForeignerKey) : Machine Context Action where
  init db := Keyed alg db.saved ∧ db.pending = []
  next db
    | .insertOrUpdateValue value => some (alg.insertOrUpdateValue contextSet db value).db
    | .saveChanges => some db.saveChanges

/-- No two rows, saved or pending, have one key or one value. -/
def Unique (db : Context) : Prop :=
  (db.rows.map ReferencedRow.key).Nodup ∧ (db.rows.map ReferencedRow.value).Nodup

instance (db : Context) : Decidable (Unique db) := inferInstanceAs (Decidable (_ ∧ _))

/-- The call does not meet a pending row of its hash: the value is blank, or a
saved row with it is reused, or no pending row has its hash. -/
def NoPendingClash (alg : NonCollidableHashForeignerKey) (db : Context) : Action → Prop
  | .saveChanges => True
  | .insertOrUpdateValue value => ∀ v, alg.stored value = some v →
      (∃ row ∈ db.saved, row.hash = alg.hasher v ∧ row.value = v) ∨
        ∀ row ∈ db.pending, row.hash ≠ alg.hasher v

variable {alg : NonCollidableHashForeignerKey}

/-- The invariant of a context without clashes: its rows are keyed, and each
pending row still has the first free collider of the saved rows. -/
structure Inv (alg : NonCollidableHashForeignerKey) (db : Context) : Prop where
  keyed : Keyed alg db.rows
  collider : ∀ row ∈ db.pending, row.collider = getFirstFreeColliderOfHash db.saved row.hash

theorem Inv.unique {db : Context} (h : Inv alg db) : Unique db := ⟨h.keyed.keys, h.keyed.values⟩

theorem Inv.saveChanges {db : Context} (h : Inv alg db) : Inv alg db.saveChanges := by
  refine ⟨?_, fun row hrow => by simp [Context.saveChanges] at hrow⟩
  rw [Context.saveChanges, Context.rows, List.append_nil]
  exact h.keyed

/-- A call that adds a row with no pending row of its hash keeps the invariant. -/
theorem Inv.addObject {db : Context} (h : Inv alg db) {row : ReferencedRow}
    (hhash : row.hash = alg.hasher row.value)
    (hcollider : row.collider = getFirstFreeColliderOfHash db.saved row.hash)
    (hvalue : ∀ other ∈ db.saved, other.hash = row.hash → other.value ≠ row.value)
    (hpending : ∀ other ∈ db.pending, other.hash ≠ row.hash) :
    Inv alg (contextSet.addObject db row) := by
  refine ⟨?_, ?_⟩
  · rw [rows_addObject]
    refine h.keyed.append hhash (fun other hother hh => ?_) hcollider hvalue
    rcases List.mem_append.mp hother with hs | hp
    · exact hs
    · exact absurd hh (hpending other hp)
  · intro other hother
    rcases List.mem_append.mp hother with hold | hnew
    · exact h.collider other hold
    · rw [List.mem_singleton.mp hnew]; exact hcollider

/-- A call that adds a row while a pending row has its hash repeats that row's key. -/
theorem Inv.clash {db : Context} (h : Inv alg db) {row other : ReferencedRow}
    (hcollider : row.collider = getFirstFreeColliderOfHash db.saved row.hash)
    (hother : other ∈ db.pending) (hhash : other.hash = row.hash) :
    ¬ Unique (contextSet.addObject db row) := by
  rintro ⟨hkeys, -⟩
  have hkey : other.key = row.key := by
    rw [ReferencedRow.key, ReferencedRow.key, hhash, h.collider other hother, hcollider, hhash]
  rw [rows_addObject, List.map_append, List.map_singleton, ← List.concat_eq_append,
    List.nodup_concat] at hkeys
  exact hkeys.1 (hkey ▸ List.mem_map_of_mem (List.mem_append_right _ hother))

theorem inv_init {db : Context} (h : (machine alg).init db) : Inv alg db := by
  refine ⟨?_, fun row hrow => by rw [h.2] at hrow; simp at hrow⟩
  rw [Context.rows, h.2, List.append_nil]
  exact h.1

theorem inv_next {db db' : Context} {a : Action} (h : Inv alg db) (hc : NoPendingClash alg db a)
    (hn : (machine alg).next db a = some db') : Inv alg db' := by
  cases a with
  | saveChanges => exact Option.some.inj hn ▸ h.saveChanges
  | insertOrUpdateValue value =>
    rw [← Option.some.inj hn]
    rcases insertOrUpdateValue_cases alg contextSet db value with
      ⟨-, hu⟩ | ⟨row, -, -, -, hu⟩ | ⟨row, hst, hhash, hcollider, hvalue, hu⟩
    · rw [hu]; exact h
    · rw [hu]; exact h
    · rw [hu]
      refine h.addObject hhash hcollider hvalue ?_
      rcases hc row.value hst with ⟨other, hother, hh, hval⟩ | hpending
      · exact absurd hval (hvalue other hother (hh.trans hhash.symm))
      · exact fun other hother => hhash ▸ hpending other hother

theorem not_unique_next {db : Context} {a : Action} (h : Inv alg db)
    (hc : ¬ NoPendingClash alg db a) :
    ∃ db', (machine alg).next db a = some db' ∧ ¬ Unique db' := by
  cases a with
  | saveChanges => exact absurd trivial hc
  | insertOrUpdateValue value =>
    simp only [NoPendingClash, not_forall, not_or] at hc
    obtain ⟨v, hv, hsaved, other, hother, hh⟩ := hc
    refine ⟨_, rfl, ?_⟩
    rcases insertOrUpdateValue_cases alg contextSet db value with
      ⟨hst, -⟩ | ⟨row, hrow, hst, hhash, -⟩ | ⟨row, hst, hhash, hcollider, -, hu⟩
    · rw [hst] at hv; cases hv
    · rw [hst, Option.some.injEq] at hv
      exact absurd ⟨row, hrow, hv ▸ hhash, hv⟩ hsaved
    · rw [hst, Option.some.injEq] at hv
      rw [hu]
      exact h.clash hcollider hother (by rw [hhash, hv]; exact not_not.mp hh)

/-- Two calls with one new value and no save between them: the row is added twice. -/
theorem not_unique_while_pending : ¬ ∀ (alg : NonCollidableHashForeignerKey) (db : Context)
    (as : List Action), (machine alg).init db → (machine alg).AllStates Unique db as := by
  intro h
  have hall := h ⟨id, id⟩ ⟨[], []⟩
    [.insertOrUpdateValue (some "a"), .insertOrUpdateValue (some "a")] ⟨Keyed.nil _, rfl⟩
  have hu : Unique _ := (hall.2 _ rfl).2 _ rfl
  exact absurd hu (by decide)

/-- **The exact condition of a unit of work.**  From keyed saved rows and
nothing pending, the saved and pending rows stay without a repeated key or
value all along a run exactly when none of its calls meets a pending row of
its hash. -/
theorem unique_iff_no_pending_clash {db : Context} (h : (machine alg).init db)
    (as : List Action) :
    (machine alg).AllStates Unique db as ↔ (machine alg).AllSteps (NoPendingClash alg) db as :=
  Machine.allStates_iff_allSteps (fun _ => Inv.unique) (fun _ _ _ => inv_next)
    (fun _ _ => not_unique_next) as db (inv_init h)

/-- A save between the two calls, and the second call reuses the row. -/
theorem unique_iff_no_pending_clash_saved :
    let as : List Action :=
      [.insertOrUpdateValue (some "a"), .saveChanges, .insertOrUpdateValue (some "a")]
    (machine ⟨id, id⟩).AllStates Unique ⟨[], []⟩ as ↔
      (machine ⟨id, id⟩).AllSteps (NoPendingClash ⟨id, id⟩) ⟨[], []⟩ as :=
  unique_iff_no_pending_clash ⟨Keyed.nil _, rfl⟩ _

end UnitOfWork

end Garbage.NonCollidableHash
