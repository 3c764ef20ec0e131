import Mathlib.Data.List.Nodup
import Mathlib.Order.MinMax

/-!
# The hash table kept in two database tables

`NonCollidableHashForeignerKey` stores a string once in the *referenced* table,
under the key `(Hash, Collider)`, and lets a row of the *referencer* table point
at it by the same pair of columns.  `insertOrUpdateValue` gives a referencer row
a new value, `getValue` reads it back.

The class sees the referenced table through an `IObjectSet`: a query and
`AddObject`.  What a query sees of the rows just added is the database's
business, so the set is a parameter here (`ObjectSet`), and the two uses of it
are in `Tables.lean`.

`insertOrUpdateValue_cases` says once what a call can do: clear the reference,
point it at a row it can see, or add a row.
-/

namespace Garbage.NonCollidableHash

/-- A row of the referencing table: the two nullable columns of the foreign key. -/
structure ReferencerRow where
  hash : Option String
  collider : Option Int
  deriving DecidableEq, Repr

/-- A row of the referenced table: the composite key and the stored string. -/
structure ReferencedRow where
  hash : String
  collider : Int
  value : String
  deriving DecidableEq, Repr

/-- The primary key of the referenced table. -/
def ReferencedRow.key (row : ReferencedRow) : String × Int := (row.hash, row.collider)

/-- `IObjectSet<TReferencedSetItem>`: the rows a query sees and `AddObject`. -/
structure ObjectSet (σ : Type) where
  query : σ → List ReferencedRow
  addObject : σ → ReferencedRow → σ

/-- `char.IsWhiteSpace`: the separators of Unicode and the white control characters. -/
def isWhiteSpace (c : Char) : Bool :=
  let n := c.toNat
  (0x09 ≤ n && n ≤ 0x0D) || n == 0x20 || n == 0x85 || n == 0xA0 || n == 0x1680 ||
    (0x2000 ≤ n && n ≤ 0x200A) || n == 0x2028 || n == 0x2029 || n == 0x202F || n == 0x205F ||
    n == 0x3000

def isNullOrWhiteSpace : Option String → Bool
  | none => true
  | some s => s.toList.all isWhiteSpace

def whereEqualQuery {β : Type} [DecidableEq β] (query : List ReferencedRow)
    (property : ReferencedRow → β) (whereEqualTo : β) : List ReferencedRow :=
  query.filter fun item => property item = whereEqualTo

/-- The two functions the class is made with. -/
structure NonCollidableHashForeignerKey where
  hasher : String → String
  valueConverter : String → String

/-- `GetFirstFreeColliderOfHash`: one more than the greatest collider of the
hash, `DefaultIfEmpty(0)` where there is none. -/
def getFirstFreeColliderOfHash (query : List ReferencedRow) (hash : String) : Int :=
  (((whereEqualQuery query ReferencedRow.hash hash).map ReferencedRow.collider).max?).getD 0 + 1

/-- What `InsertOrUpdateValue` leaves behind: the tables, the referencer row it
was given and the referenced row it returns. -/
structure Update (σ : Type) where
  db : σ
  referencerRow : ReferencerRow
  referencedRow : Option ReferencedRow

namespace NonCollidableHashForeignerKey

variable {σ : Type} (alg : NonCollidableHashForeignerKey) (set : ObjectSet σ)

def addNewValue (db : σ) (newValueHash value : String) (newValueCollider : Int) : Update σ :=
  let referencedRow : ReferencedRow :=
    { hash := newValueHash, collider := newValueCollider, value := value }
  { db := set.addObject db referencedRow
    referencerRow := { hash := some newValueHash, collider := some newValueCollider }
    referencedRow := some referencedRow }

/-- `InsertOrUpdateValue` on a non-blank value. -/
def insertOrUpdateNonBlank (db : σ) (value : String) : Update σ :=
  let value := alg.valueConverter value
  let newValueHash := alg.hasher value
  let haveReferencedWithNewValueHash :=
    !(whereEqualQuery (set.query db) ReferencedRow.hash newValueHash).isEmpty
  if haveReferencedWithNewValueHash then
    let referencedRow :=
      (whereEqualQuery (whereEqualQuery (set.query db) ReferencedRow.hash newValueHash)
        ReferencedRow.value value).head?
    match referencedRow with
    | none =>
      addNewValue set db newValueHash value (getFirstFreeColliderOfHash (set.query db) newValueHash)
    | some row =>
      { db := db
        referencerRow := { hash := some newValueHash, collider := some row.collider }
        referencedRow := some row }
  else
    addNewValue set db newValueHash value 1

def insertOrUpdateValue (db : σ) (value : Option String) : Update σ :=
  if isNullOrWhiteSpace value then
    { db := db, referencerRow := { hash := none, collider := none }, referencedRow := none }
  else
    alg.insertOrUpdateNonBlank set db (value.getD "")

def getReferenced (db : σ) (hashForFinding : String) (colliderForFinding : Int) :
    Option ReferencedRow :=
  (whereEqualQuery (whereEqualQuery (set.query db) ReferencedRow.hash hashForFinding)
    ReferencedRow.collider colliderForFinding).head?

def getValue (db : σ) (referencer : ReferencerRow) : Option String :=
  match referencer.hash, referencer.collider with
  | some hashForFinding, some colliderForFinding =>
    (getReferenced set db hashForFinding colliderForFinding).map ReferencedRow.value
  | _, _ => none

/-- What the value given to a call is stored as: `none` when it is null or blank. -/
def stored (value : Option String) : Option String :=
  if isNullOrWhiteSpace value then none else some (alg.valueConverter (value.getD ""))

end NonCollidableHashForeignerKey

/-! ### Queries -/

@[simp] theorem mem_whereEqualQuery {β : Type} [DecidableEq β] {query : List ReferencedRow}
    {property : ReferencedRow → β} {b : β} {row : ReferencedRow} :
    row ∈ whereEqualQuery query property b ↔ row ∈ query ∧ property row = b := by
  simp [whereEqualQuery]

theorem lt_getFirstFreeColliderOfHash {query : List ReferencedRow} {row : ReferencedRow}
    (h : row ∈ query) : row.collider < getFirstFreeColliderOfHash query row.hash := by
  have hmem : row.collider ∈
      (whereEqualQuery query ReferencedRow.hash row.hash).map ReferencedRow.collider :=
    List.mem_map_of_mem (mem_whereEqualQuery.mpr ⟨h, rfl⟩)
  rw [getFirstFreeColliderOfHash]
  cases hmax : ((whereEqualQuery query ReferencedRow.hash row.hash).map
      ReferencedRow.collider).max? with
  | none => rw [List.max?_eq_none_iff.mp hmax] at hmem; simp at hmem
  | some m =>
    have hle := (List.max?_eq_some_iff.mp hmax).2 _ hmem
    simp only [Option.getD_some]
    omega

/-- With no row of the hash the first free collider is the `1` the fresh-hash
branch writes down. -/
theorem getFirstFreeColliderOfHash_of_empty {query : List ReferencedRow} {hash : String}
    (h : whereEqualQuery query ReferencedRow.hash hash = []) :
    getFirstFreeColliderOfHash query hash = 1 := by
  simp [getFirstFreeColliderOfHash, h]

/-- In a table whose keys are distinct a stored reference finds its own row. -/
theorem getValue_of_mem {σ : Type} {set : ObjectSet σ} {db : σ} {row : ReferencedRow}
    (hkeys : ((set.query db).map ReferencedRow.key).Nodup) (hrow : row ∈ set.query db) :
    NonCollidableHashForeignerKey.getValue set db
      { hash := some row.hash, collider := some row.collider } = some row.value := by
  simp only [NonCollidableHashForeignerKey.getValue, NonCollidableHashForeignerKey.getReferenced]
  cases hfind : (whereEqualQuery (whereEqualQuery (set.query db) ReferencedRow.hash row.hash)
      ReferencedRow.collider row.collider).head? with
  | none =>
    have hmem : row ∈ whereEqualQuery (whereEqualQuery (set.query db) ReferencedRow.hash row.hash)
        ReferencedRow.collider row.collider := by simp [hrow]
    rw [List.head?_eq_none_iff.mp hfind] at hmem
    simp at hmem
  | some found =>
    have hfound := List.mem_of_mem_head? hfind
    simp only [mem_whereEqualQuery] at hfound
    have heq : found = row := List.inj_on_of_nodup_map hkeys hfound.1.1 hrow
      (by simp [ReferencedRow.key, hfound.1.2, hfound.2])
    rw [Option.map_some, heq]

/-! ### What a call can do -/

/-- **What a call can do**: nothing but clear the reference when the value is
blank, point it at a visible row with the value, or add a row under the first
free collider when no visible row has the value. -/
theorem insertOrUpdateValue_cases {σ : Type} (alg : NonCollidableHashForeignerKey)
    (set : ObjectSet σ) (db : σ) (value : Option String) :
    (alg.stored value = none ∧
      alg.insertOrUpdateValue set db value = ⟨db, ⟨none, none⟩, none⟩) ∨
    (∃ row ∈ set.query db, alg.stored value = some row.value ∧
      row.hash = alg.hasher row.value ∧
      alg.insertOrUpdateValue set db value = ⟨db, ⟨some row.hash, some row.collider⟩, some row⟩) ∨
    (∃ row : ReferencedRow, alg.stored value = some row.value ∧
      row.hash = alg.hasher row.value ∧
      row.collider = getFirstFreeColliderOfHash (set.query db) row.hash ∧
      (∀ other ∈ set.query db, other.hash = row.hash → other.value ≠ row.value) ∧
      alg.insertOrUpdateValue set db value =
        ⟨set.addObject db row, ⟨some row.hash, some row.collider⟩, some row⟩) := by
  rw [NonCollidableHashForeignerKey.stored, NonCollidableHashForeignerKey.insertOrUpdateValue]
  by_cases hblank : isNullOrWhiteSpace value
  · exact Or.inl ⟨if_pos hblank, if_pos hblank⟩
  right
  rw [if_neg hblank, if_neg hblank, NonCollidableHashForeignerKey.insertOrUpdateNonBlank]
  generalize hv : alg.valueConverter (value.getD "") = v
  by_cases hany : whereEqualQuery (set.query db) ReferencedRow.hash (alg.hasher v) = []
  · -- a fresh hash: the collider is `1`
    right
    refine ⟨⟨alg.hasher v, 1, v⟩, rfl, rfl, (getFirstFreeColliderOfHash_of_empty hany).symm, ?_, ?_⟩
    · intro other hother hh
      have : other ∈ whereEqualQuery (set.query db) ReferencedRow.hash (alg.hasher v) :=
        mem_whereEqualQuery.mpr ⟨hother, hh⟩
      rw [hany] at this
      simp at this
    · simp [hany, NonCollidableHashForeignerKey.addNewValue]
  have hhave : (!(whereEqualQuery (set.query db) ReferencedRow.hash (alg.hasher v)).isEmpty) =
      true := by
    simpa using hany
  simp only [hhave, if_true]
  cases hfind : (whereEqualQuery (whereEqualQuery (set.query db) ReferencedRow.hash
      (alg.hasher v)) ReferencedRow.value v).head? with
  | none =>
    right
    refine ⟨⟨alg.hasher v, getFirstFreeColliderOfHash (set.query db) (alg.hasher v), v⟩,
      rfl, rfl, rfl, ?_, rfl⟩
    intro other hother hh hval
    have : other ∈ whereEqualQuery (whereEqualQuery (set.query db) ReferencedRow.hash
        (alg.hasher v)) ReferencedRow.value v := by simp [hother, hh, hval]
    rw [List.head?_eq_none_iff.mp hfind] at this
    simp at this
  | some row =>
    left
    have hrow := List.mem_of_mem_head? hfind
    simp only [mem_whereEqualQuery] at hrow
    obtain ⟨⟨hmem, hhash⟩, hval⟩ := hrow
    exact ⟨row, hmem, by rw [hval], by rw [hhash, hval], by simp [hhash]⟩

end Garbage.NonCollidableHash
