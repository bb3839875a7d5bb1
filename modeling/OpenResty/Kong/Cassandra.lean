/-
`kong.dao.db.cassandra` and the constraints of `kong.dao.factory`: tables of rows
with primary keys, and the checks that are made before a row is written.

An INSERT or UPDATE of Cassandra writes the columns that it names, whether or not
there is a row with the primary key.
-/
import Mathlib.Data.List.Nodup
import Mathlib.Data.List.Pairwise
import OpenResty.Lua.Value

namespace OpenResty.Kong.Cassandra

open Lua List

/-- The columns of a row, where a null is `none`. -/
abbrev Row := String → Option Scalar

structure Field where
  unique : Bool
  /-- the entity and the field that are referred to -/
  foreign : Option (String × String)

/-- What of a schema the constraints are made of. -/
structure Schema where
  table : String
  primary_key : List String
  /-- in the order of `pairs` -/
  fields : List (String × Field)

/-- The schemas by the names of their entities, in the order of `pairs`. -/
abbrev Schemas := List (String × Schema)

/-- Entities have names and tables of their own. -/
structure Entities where
  schemas : Schemas
  names : (schemas.map Prod.fst).Nodup
  tables : (schemas.map fun (_, schema) => schema.table).Nodup

/-- The rows of each table. -/
abbrev Db := String → List Row

/-! ## Constraints -/

structure Foreign where
  table : String
  col : String
  f_entity : String

structure Cascade where
  table : String
  schema : Schema
  f_col : String
  col : String

def getSchema (schemas : Schemas) (m_name : String) : Option Schema := schemas.lookup m_name

/-- The foreign keys of `build_constraints`. -/
def foreignOf (schemas : Schemas) (schema : Schema) : List (String × Foreign) :=
  schema.fields.filterMap fun (col, field) =>
    field.foreign.bind fun (f_entity, f_field) =>
      (getSchema schemas f_entity).map fun f_schema =>
        (col, { table := f_schema.table, col := f_field, f_entity })

def uniqueOf (schema : Schema) : List String :=
  schema.fields.filterMap fun (col, field) => if field.unique then some col else none

/-- `parent_constraints.cascade[m_name]`: of the columns of one entity that refer
to the parent, the last one stays. -/
def cascadeFrom (schemas : Schemas) (parent_name m_name : String) (schema : Schema) : Option (String × Cascade) :=
  ((foreignOf schemas schema).filter (·.2.f_entity = parent_name)).getLast?.map fun (col, f_constraint) =>
    (m_name, { table := schema.table, schema, f_col := col, col := f_constraint.col })

def cascadeOf (schemas : Schemas) (parent_name : String) : List (String × Cascade) :=
  schemas.filterMap fun (m_name, schema) => cascadeFrom schemas parent_name m_name schema

/-! ## Queries -/

/-- The two rows have one primary key. -/
def sameKey (schema : Schema) (a b : Row) : Bool := schema.primary_key.all fun col => a col = b col

/-- The rows that have a value in a column. -/
def selectCol (rows : List Row) (col : String) (value : Scalar) : List Row := rows.filter fun row => row col = some value

/-- `find` by the primary key. -/
def find (schema : Schema) (rows : List Row) (primary_keys : Row) : Option Row := rows.find? (sameKey schema · primary_keys)

/-- The rest of `extract_keys`: the columns of the schema that are not of the
primary key. -/
def valuesOf (schema : Schema) (model : Row) : Row := fun col =>
  if col ∈ schema.fields.map Prod.fst ∧ col ∉ schema.primary_key then model col else none

/-- The columns of the primary key. -/
def keyOf (schema : Schema) (row : Row) : Row := fun col => if col ∈ schema.primary_key then row col else none

/-- Writes to the row with the primary key, which is made when there is none. -/
def put (schema : Schema) (primary_keys : Row) (change : Row → Row) (rows : List Row) : List Row :=
  if rows.any (sameKey schema · primary_keys) then
    rows.map fun row => if sameKey schema row primary_keys then change row else row
  else rows ++ [change (keyOf schema primary_keys)]

/-- The columns that an INSERT names. -/
def mergeRow (model row : Row) : Row := fun col => (model col).or (row col)

/-- The columns that an UPDATE sets; a full one sets the others of the schema to
null. -/
def setRow (schema : Schema) (model : Row) (full : Bool) (row : Row) : Row := fun col =>
  match valuesOf schema model col with
  | some value => some value
  | none => if full ∧ col ∈ schema.fields.map Prod.fst ∧ col ∉ schema.primary_key then none else row col

def deleteRows (schema : Schema) (primary_keys : Row) (rows : List Row) : List Row :=
  rows.filter fun row => !sameKey schema row primary_keys

/-! ## Facts -/

variable {schema : Schema} {rows : List Row} {a b c : Row} {change : Row → Row}

theorem sameKey_iff : sameKey schema a b = true ↔ ∀ col ∈ schema.primary_key, a col = b col := by
  simp [sameKey]

theorem sameKey_refl (a : Row) : sameKey schema a a = true := sameKey_iff.mpr fun _ _ => rfl

theorem sameKey_symm (h : sameKey schema a b = true) : sameKey schema b a = true :=
  sameKey_iff.mpr fun col hcol => (sameKey_iff.mp h col hcol).symm

theorem sameKey_trans (hab : sameKey schema a b = true) (hbc : sameKey schema b c = true) : sameKey schema a c = true :=
  sameKey_iff.mpr fun col hcol => (sameKey_iff.mp hab col hcol).trans (sameKey_iff.mp hbc col hcol)

theorem sameKey_keyOf (a : Row) : sameKey schema (keyOf schema a) a = true :=
  sameKey_iff.mpr fun _ hcol => if_pos hcol

/-- No two rows have one primary key. -/
def Keyed (schema : Schema) (rows : List Row) : Prop := rows.Pairwise fun a b => sameKey schema a b = false

theorem mem_put {row : Row} (h : row ∈ put schema a change rows) :
    row ∈ rows ∧ sameKey schema row a = false ∨
      (∃ old ∈ rows, sameKey schema old a = true ∧ row = change old) ∨
      (∀ old ∈ rows, sameKey schema old a = false) ∧ row = change (keyOf schema a) := by
  unfold put at h
  split at h
  · obtain ⟨old, hold, rfl⟩ := mem_map.mp h
    by_cases hkey : sameKey schema old a = true
    · rw [if_pos hkey]
      exact .inr (.inl ⟨old, hold, hkey, rfl⟩)
    · rw [if_neg hkey]
      exact .inl ⟨hold, by simpa using hkey⟩
  · next hnone =>
    have hall : ∀ old ∈ rows, sameKey schema old a = false := by simpa using hnone
    rcases mem_append.mp h with h | h
    · exact .inl ⟨h, hall row h⟩
    · exact .inr (.inr ⟨hall, mem_singleton.mp h⟩)

/-- The rows of other keys stay. -/
theorem mem_put_of_ne {row : Row} (h : row ∈ rows) (hne : sameKey schema row a = false) : row ∈ put schema a change rows := by
  unfold put
  split
  · exact mem_map.mpr ⟨row, h, by simp [hne]⟩
  · exact mem_append_left _ h

/-- A row of the key is there afterwards. -/
theorem mem_put_of_key {row : Row} (h : row ∈ rows) (hkey : sameKey schema row a = true) :
    change row ∈ put schema a change rows := by
  unfold put
  rw [if_pos (any_eq_true.mpr ⟨row, h, hkey⟩)]
  exact mem_map.mpr ⟨row, h, by simp [hkey]⟩

/-- What is written keeps the primary key. -/
def KeepsKey (schema : Schema) (primary_keys : Row) (change : Row → Row) : Prop :=
  ∀ row, sameKey schema row primary_keys = true → sameKey schema (change row) primary_keys = true

instance : Std.Symm fun a b : Row => sameKey schema a b = false where
  symm a b h := by
    by_contra hnot
    rw [sameKey_symm (by simpa using hnot)] at h
    cases h

theorem Keyed.eq (h : Keyed schema rows) (ha : a ∈ rows) (hb : b ∈ rows) (hab : sameKey schema a b = true) : a = b := by
  by_contra hne
  have hdiff := List.Pairwise.forall h ha hb hne
  rw [hab] at hdiff
  cases hdiff

theorem Keyed.find_eq (h : Keyed schema rows) (ha : a ∈ rows) (hab : sameKey schema a b = true) : find schema rows b = some a := by
  cases hfind : find schema rows b with
  | none => exact absurd hab (find?_eq_none.mp hfind a ha)
  | some c =>
    have hc := find?_some (p := (sameKey schema · b)) hfind
    rw [h.eq ha (mem_of_find?_eq_some hfind) (sameKey_trans hab (sameKey_symm hc))]

/-- The row that `put` writes. -/
def putRow (schema : Schema) (primary_keys : Row) (change : Row → Row) (rows : List Row) : Row :=
  change ((find schema rows primary_keys).getD (keyOf schema primary_keys))

theorem sameKey_putRow (hchange : KeepsKey schema a change) : sameKey schema (putRow schema a change rows) a = true := by
  refine hchange _ ?_
  cases hfind : find schema rows a with
  | none => exact sameKey_keyOf a
  | some row => exact find?_some (p := (sameKey schema · a)) hfind

/-- A property of pairs of rows, of which the one that is written has the key. -/
theorem Keyed.pairwise_put {R : Row → Row → Prop} [Std.Symm R] (h : Keyed schema rows) (hchange : KeepsKey schema a change)
    (hR : rows.Pairwise R) :
    (Cassandra.put schema a change rows).Pairwise R ↔
      ∀ row ∈ rows, sameKey schema row a = false → R row (putRow schema a change rows) := by
  have hother : ∀ {x y : Row}, sameKey schema x y = false → sameKey schema x a = true → sameKey schema y a = false := by
    intro x y hxy hx
    by_contra hy
    rw [sameKey_trans hx (sameKey_symm (by simpa using hy))] at hxy
    cases hxy
  have hnew : sameKey schema (putRow schema a change rows) a = true := sameKey_putRow hchange
  constructor
  · intro hput row hrow hne
    have hmem : putRow schema a change rows ∈ Cassandra.put schema a change rows := by
      unfold putRow
      cases hfind : find schema rows a with
      | none =>
        have hnone : rows.any (sameKey schema · a) = false := by
          simpa using find?_eq_none.mp hfind
        rw [Cassandra.put, if_neg (by simp [hnone])]
        exact mem_append_right _ mem_cons_self
      | some old =>
        exact mem_put_of_key (mem_of_find?_eq_some hfind) (find?_some (p := (sameKey schema · a)) hfind)
    refine List.Pairwise.forall hput (mem_put_of_ne hrow hne) hmem ?_
    rintro rfl
    rw [hnew] at hne
    cases hne
  · intro hall
    unfold Cassandra.put
    split
    · rw [pairwise_map]
      refine (pairwise_and_iff.mpr ⟨hR, h⟩).imp_of_mem fun {x y} hx hy hxy => ?_
      obtain ⟨hRxy, hkey⟩ := hxy
      by_cases hxa : sameKey schema x a = true
      · have hya := hother hkey hxa
        have hrow : putRow schema a change rows = change x := by rw [putRow, h.find_eq hx hxa]; rfl
        rw [if_pos hxa, if_neg (by simp [hya]), ← hrow]
        exact Std.Symm.symm _ _ (hall y hy hya)
      · rw [if_neg hxa]
        by_cases hya : sameKey schema y a = true
        · have hrow : putRow schema a change rows = change y := by rw [putRow, h.find_eq hy hya]; rfl
          rw [if_pos hya, ← hrow]
          exact hall x hx (by simpa using hxa)
        · rw [if_neg hya]
          exact hRxy
    · next hnone =>
      have hfind : find schema rows a = none := by
        refine find?_eq_none.mpr fun x hx hxa => hnone ?_
        exact any_eq_true.mpr ⟨x, hx, hxa⟩
      have hrow : putRow schema a change rows = change (keyOf schema a) := by rw [putRow, hfind]; rfl
      refine pairwise_append.mpr ⟨hR, pairwise_singleton _ _, fun x hx y hy => ?_⟩
      obtain rfl := mem_singleton.mp hy
      rw [← hrow]
      refine hall x hx ?_
      by_contra hxa
      exact hnone (any_eq_true.mpr ⟨x, hx, by simpa using hxa⟩)

theorem Keyed.put (h : Keyed schema rows) (hchange : KeepsKey schema a change) :
    Keyed schema (Cassandra.put schema a change rows) := by
  refine (h.pairwise_put hchange h).mpr fun row _ hne => ?_
  by_contra hnot
  rw [sameKey_trans (by simpa using hnot) (sameKey_putRow hchange)] at hne
  cases hne

theorem keepsKey_setRow (model : Row) (full : Bool) : KeepsKey schema a (setRow schema model full) := by
  intro row hrow
  refine sameKey_iff.mpr fun col hcol => ?_
  have hvalue : valuesOf schema model col = none := if_neg fun h => h.2 hcol
  simp only [setRow, hvalue, hcol, not_true_eq_false, and_false, if_false]
  exact sameKey_iff.mp hrow col hcol

theorem keepsKey_mergeRow {model : Row} (h : ∀ col ∈ schema.primary_key, (model col).isSome = true)
    (hkey : sameKey schema model a = true) : KeepsKey schema a (mergeRow model) := by
  intro row _
  refine sameKey_iff.mpr fun col hcol => ?_
  rw [mergeRow, Option.or_of_isSome (h col hcol)]
  exact sameKey_iff.mp hkey col hcol

/-- An entity is known by its table. -/
theorem Entities.eq_of_table (es : Entities) {x y : String × Schema} (hx : x ∈ es.schemas) (hy : y ∈ es.schemas)
    (h : x.2.table = y.2.table) : x = y :=
  inj_on_of_nodup_map es.tables hx hy h

end OpenResty.Kong.Cassandra
