/-
`DAO:insert` and `DAO:delete` of `kong.dao.dao` on the Cassandra backend: foreign
keys, and the events of the rows that are deleted.

The backend deletes the rows that refer to a deleted row, but not those that
refer to them, and the events are those of the same rows.
-/
import OpenResty.Kong.Cassandra
import OpenResty.Lib.Assoc
import OpenResty.Lib.Transition

namespace OpenResty.Kong.DaoCascade

open Cassandra Lua Lib.Transition List Function Prod
open Option hiding mem_map

/-- Entities whose foreign keys refer to columns of primary keys. -/
structure Related extends Entities where
  foreign : ∀ x ∈ schemas, ∀ field ∈ x.2.fields, ∀ f ∈ field.2.foreign,
    ∃ parent ∈ schemas, parent.1 = f.1 ∧ f.2 ∈ parent.2.primary_key

/-! ## Operations -/

/-- The first value in a unique column of the model that a row has. -/
def uniqueOk (db : Db) (schema : Schema) (model : Row) : Bool :=
  (uniqueOf schema).all fun col =>
    match model col with
    | none => true
    | some value => (selectCol (db schema.table) col value).isEmpty

def foreignOk (schemas : Schemas) (db : Db) (schema : Schema) (model : Row) : Bool :=
  (foreignOf schemas schema).all fun (col, constraint) =>
    match model col with
    | none => true
    | some value => (selectCol (db constraint.table) constraint.col value).length = 1

/-- `self:delete` of one row, without constraints: whether the row was there, and
the rows that are left. -/
def deleteOne (db : Db) (schema : Schema) (primary_keys : Row) : Option (Row × Db) :=
  (find schema (db schema.table) primary_keys).map fun row =>
    (row, update db schema.table (deleteRows schema primary_keys (db schema.table)))

/-- A deleted row, with its table. -/
abbrev Deleted := String × Row

/-- The loop over the rows that were found in a table: stops at one that is no
longer there. -/
def deleteAll (schema : Schema) : List Row → Db → Bool × Db × List Deleted
  | [], db => (true, db, [])
  | row :: rows, db =>
    match deleteOne db schema row with
    | none => (false, db, [])
    | some (row, db) =>
      let (ok, db, deleted) := deleteAll schema rows db
      (ok, db, (schema.table, row) :: deleted)

/-- `find_all` of the rows that refer to a row through the column of the cascade;
without a value it has nothing to select by. -/
def cascadeRows (db : Db) (cascade : Cascade) (row : Row) : List Row :=
  match row cascade.col with
  | some value => selectCol (db cascade.table) cascade.f_col value
  | none => db cascade.table

/-- The loop over `constraints.cascade`. -/
def deleteCascades (row : Row) : List (String × Cascade) → Db → Bool × Db × List Deleted
  | [], db => (true, db, [])
  | (_, cascade) :: cascades, db =>
    match deleteAll cascade.schema (cascadeRows db cascade row) db with
    | (false, db, deleted) => (false, db, deleted)
    | (true, db, deleted) =>
      let (ok, db, deleted') := deleteCascades row cascades db
      (ok, db, deleted ++ deleted')

structure System where
  db : Db
  /-- for each call of `delete`, the rows it removed and its ENTITY_DELETED events -/
  deletes : List (List Deleted × List Deleted)

inductive Event
  | insert (m_name : String) (model : Row)
  | delete (m_name : String) (primary_keys : Row) (quiet : Bool)

/-- The associated entities that `DAO:delete` finds before it deletes. -/
def associated (db : Db) (cascades : List (String × Cascade)) (tbl : Row) : List Deleted :=
  cascades.flatMap fun (_, cascade) => (cascadeRows db cascade tbl).map fun entity => (cascade.table, entity)

def insert (schemas : Schemas) (s : System) (schema : Schema) (model : Row) : System :=
  if uniqueOk s.db schema model ∧ foreignOk schemas s.db schema model ∧
      ∀ col ∈ schema.primary_key, (model col).isSome then
    { s with
      db := update s.db schema.table (put schema model (mergeRow model) (s.db schema.table)) }
  else s

def delete (schemas : Schemas) (s : System) (m_name : String) (schema : Schema) (primary_keys : Row) (quiet : Bool) :
    System :=
  let cascades := cascadeOf schemas m_name
  let associated_entites := associated s.db cascades primary_keys
  match deleteOne s.db schema primary_keys with
  | none => s
  | some (row, db) =>
    let (ok, db, deleted) := deleteCascades primary_keys cascades db
    let published := if ok ∧ !quiet then (schema.table, row) :: associated_entites else []
    { db, deletes := ((schema.table, row) :: deleted, published) :: s.deletes }

/-- A row is deleted by its whole primary key. -/
def step (schemas : Schemas) (s : System) : Event → Option System
  | .insert m_name model => (getSchema schemas m_name).map fun schema => insert schemas s schema model
  | .delete m_name primary_keys quiet =>
    (getSchema schemas m_name).bind fun schema =>
      if ∀ col ∈ schema.primary_key, (primary_keys col).isSome then
        some (delete schemas s m_name schema primary_keys quiet)
      else none

/-! ## What is to hold -/

/-- A row refers through a foreign key to a row of the table with the value in
the column. -/
def Refers (schemas : Schemas) (schema : Schema) (row : Row) (table : String) (col : String) (value : Scalar) : Prop :=
  ∃ f_col constraint, (f_col, constraint) ∈ foreignOf schemas schema ∧ constraint.table = table ∧ constraint.col = col ∧
    row f_col = some value

structure Right (schemas : Schemas) (s : System) : Prop where
  /-- what a row refers to is there -/
  parents : ∀ x ∈ schemas, ∀ row ∈ s.db x.2.table, ∀ table col value, Refers schemas x.2 row table col value →
    ∃ parent ∈ s.db table, parent col = some value
  published : ∀ call ∈ s.deletes, ∀ d ∈ call.1, d ∈ call.2

/-- A row that refers to the deleted one through the column of the cascade. -/
def FoundBy (db : Db) (row : Row) (cascade : String × Cascade) (d : Deleted) : Prop :=
  d.1 = cascade.2.table ∧ d.2 ∈ cascadeRows db cascade.2 row

/-- The rows that the deletion of a row removes: itself, and those that refer to it
through the columns of the cascades. -/
def Removes (schemas : Schemas) (db : Db) (m_name : String) (schema : Schema) (row : Row) (d : Deleted) : Prop :=
  d = (schema.table, row) ∨ ∃ cascade ∈ cascadeOf schemas m_name, FoundBy db row cascade d

/-- A delete is not quiet, and the rows that it leaves refer to rows that it
leaves. -/
def Careful (schemas : Schemas) (s : System) : Event → Prop
  | .insert _ _ => True
  | .delete m_name primary_keys quiet =>
    ∀ schema row, getSchema schemas m_name = some schema → find schema (s.db schema.table) primary_keys = some row →
      quiet = false ∧
        ∀ x ∈ schemas, ∀ r ∈ s.db x.2.table, ¬Removes schemas s.db m_name schema row (x.2.table, r) →
          ∀ table col value, Refers schemas x.2 r table col value →
            ∃ parent ∈ s.db table, ¬Removes schemas s.db m_name schema row (table, parent) ∧ parent col = some value

/-! ## Deletes -/

variable {schema : Schema} {db db' : Db} {primary_keys row : Row}

theorem Keyed.nodup {rows : List Row} (h : Keyed schema rows) : rows.Nodup := by
  refine h.imp fun {a b} hab => ?_
  rintro rfl
  rw [sameKey_refl] at hab
  exact Bool.noConfusion hab

theorem deleteOne_spec (hkeyed : Keyed schema (db schema.table)) (h : deleteOne db schema primary_keys = some (row, db')) :
    find schema (db schema.table) primary_keys = some row ∧ (∀ t, (db' t).Sublist (db t)) ∧
      ∀ t r, r ∈ db' t ↔ r ∈ db t ∧ (t, r) ≠ (schema.table, row) := by
  simp only [deleteOne, map_eq_some_iff, mk.injEq] at h
  obtain ⟨_, hfind, rfl, rfl⟩ := h
  refine ⟨hfind, fun t => ?_, fun t r => ?_⟩
  · by_cases ht : t = schema.table
    · subst ht
      rw [update_self]
      exact filter_sublist
    · rw [update_of_ne ht]
  · by_cases ht : t = schema.table
    · subst ht
      rw [update_self, deleteRows, mem_filter]
      refine and_congr_right fun hr => ?_
      have hkey := find?_some (p := (sameKey schema · primary_keys)) hfind
      simp only [Bool.not_eq_true', ne_eq, mk.injEq, true_and]
      constructor
      · rintro hne rfl
        rw [hkey] at hne
        cases hne
      · intro hne
        by_contra hsame
        exact hne (hkeyed.eq hr (mem_of_find?_eq_some hfind) (sameKey_trans (by simpa using hsame) (sameKey_symm hkey)))
    · rw [update_of_ne ht]
      simp [ht]

theorem deleteAll_spec {rows : List Row} (hkeyed : Keyed schema (db schema.table)) (hnodup : rows.Nodup)
    (hrows : ∀ r ∈ rows, r ∈ db schema.table) :
    ∃ db', deleteAll schema rows db = (true, db', rows.map fun r => (schema.table, r)) ∧
      (∀ t, (db' t).Sublist (db t)) ∧ ∀ t r, r ∈ db' t ↔ r ∈ db t ∧ ¬(t = schema.table ∧ r ∈ rows) := by
  induction rows generalizing db with
  | nil => exact ⟨db, rfl, fun t => List.Sublist.refl _, by simp⟩
  | cons row rows ih =>
    obtain ⟨hnot, hnodup⟩ := nodup_cons.mp hnodup
    have hfind := hkeyed.find_eq (hrows row mem_cons_self) (sameKey_refl row)
    have hone : deleteOne db schema row =
        some (row, update db schema.table (deleteRows schema row (db schema.table))) := by
      rw [deleteOne, hfind]
      rfl
    obtain ⟨-, hsub, hmem⟩ := deleteOne_spec hkeyed hone
    obtain ⟨db', hall, hsub', hmem'⟩ := ih (hkeyed.sublist (hsub _)) hnodup fun r hr =>
      (hmem _ r).mpr ⟨hrows r (mem_cons_of_mem _ hr), by rintro ⟨⟩; exact hnot hr⟩
    refine ⟨db', by rw [deleteAll, hone]; simp only [hall, map_cons], fun t => (hsub' t).trans (hsub t), fun t r => ?_⟩
    rw [hmem', hmem]
    simp only [ne_eq, mk.injEq, mem_cons, and_assoc]
    tauto

theorem mem_cascadeRows {cascade : Cascade} {r : Row} :
    r ∈ cascadeRows db cascade row ↔
      r ∈ db cascade.table ∧ ∀ value, row cascade.col = some value → r cascade.f_col = some value := by
  unfold cascadeRows
  cases row cascade.col with
  | none => simp
  | some value => simp [selectCol]

/-- The rows that are found are deleted, and all of them. -/
theorem deleteCascades_spec (row : Row) {cascades : List (String × Cascade)}
    (hkeyed : ∀ c ∈ cascades, c.2.table = c.2.schema.table ∧ Keyed c.2.schema (db c.2.schema.table)) :
    ∃ db' deleted, deleteCascades row cascades db = (true, db', deleted) ∧ (∀ t, (db' t).Sublist (db t)) ∧
      (∀ d, d ∈ deleted ↔ ∃ c ∈ cascades, FoundBy db row c d) ∧
      ∀ t r, r ∈ db' t ↔ r ∈ db t ∧ ¬∃ c ∈ cascades, FoundBy db row c (t, r) := by
  induction cascades generalizing db with
  | nil => exact ⟨db, [], rfl, fun t => List.Sublist.refl _, by simp, by simp⟩
  | cons c cascades ih =>
    obtain ⟨htable, hc⟩ := hkeyed c mem_cons_self
    have hnodup : (cascadeRows db c.2 row).Nodup := by
      have htab : (db c.2.table).Nodup := Keyed.nodup (htable ▸ hc)
      unfold cascadeRows
      split
      · exact htab.filter _
      · exact htab
    obtain ⟨db₁, hall, hsub, hmem⟩ := deleteAll_spec hc hnodup fun r hr => htable ▸ (mem_cascadeRows.mp hr).1
    obtain ⟨db', deleted, hrest, hsub', hdeleted, hmem'⟩ := ih fun c' hc' =>
      ⟨(hkeyed c' (mem_cons_of_mem _ hc')).1, (hkeyed c' (mem_cons_of_mem _ hc')).2.sublist (hsub _)⟩
    -- a row that an earlier cascade has removed is not found again
    have hfound : ∀ c' d, FoundBy db₁ row c' d ↔ FoundBy db row c' d ∧ ¬FoundBy db row c d := by
      rintro c' ⟨t, r⟩
      simp only [FoundBy, mem_cascadeRows, mem_cascadeRows, hmem, ← htable]
      constructor
      · rintro ⟨rfl, ⟨hr, hnot⟩, hvalue⟩
        exact ⟨⟨rfl, hr, hvalue⟩, hnot⟩
      · rintro ⟨⟨rfl, hr, hvalue⟩, hnot⟩
        exact ⟨rfl, ⟨hr, hnot⟩, hvalue⟩
    refine ⟨db', _, by rw [deleteCascades, hall]; simp only [hrest]; rfl, fun t => (hsub' t).trans (hsub t), fun d => ?_,
      fun t r => ?_⟩
    · have hfirst : d ∈ (cascadeRows db c.2 row).map (fun r => (c.2.schema.table, r)) ↔ FoundBy db row c d := by
        obtain ⟨t, r⟩ := d
        simp only [mem_map, mk.injEq, FoundBy, ← htable]
        constructor
        · rintro ⟨_, hr, rfl, rfl⟩
          exact ⟨rfl, hr⟩
        · rintro ⟨rfl, hr⟩
          exact ⟨r, hr, rfl, rfl⟩
      simp only [mem_append, hfirst, hdeleted, hfound, mem_cons, exists_eq_or_imp]
      by_cases h : FoundBy db row c d <;> simp [h]
    · rw [hmem', hmem, ← htable]
      change (_ ∧ ¬FoundBy db row c (t, r)) ∧ _ ↔ _
      simp only [hfound, mem_cons, exists_eq_or_imp]
      by_cases h : FoundBy db row c (t, r) <;> simp [h]

/-! ## Foreign keys -/

variable {rs : Related} {s s' : System} {m_name : String} {model : Row} {quiet : Bool}

theorem Entities.getSchema (es : Entities) (h : (m_name, schema) ∈ es.schemas) :
    Cassandra.getSchema es.schemas m_name = some schema :=
  Lib.lookup_of_mem es.names h

/-- A foreign key refers to a column of the primary key of an entity. -/
theorem Related.parent {x : String × Schema} {f_col : String} {constraint : Foreign} (hx : x ∈ rs.schemas)
    (h : (f_col, constraint) ∈ foreignOf rs.schemas x.2) :
    ∃ parent, (constraint.f_entity, parent) ∈ rs.schemas ∧ constraint.table = parent.table ∧
      constraint.col ∈ parent.primary_key := by
  obtain ⟨⟨col, field⟩, hfield, h⟩ := mem_filterMap.mp h
  obtain ⟨⟨f_entity, f_field⟩, hforeign, h⟩ := bind_eq_some_iff.mp h
  obtain ⟨f_schema, hschema, h⟩ := map_eq_some_iff.mp h
  cases h
  obtain ⟨⟨_, parent⟩, hparent, rfl, hkey⟩ := rs.foreign x hx _ hfield _ hforeign
  cases hschema.symm.trans (Entities.getSchema rs.toEntities hparent)
  exact ⟨f_schema, hparent, rfl, hkey⟩

theorem cascade_of_mem {c : String × Cascade} (h : c ∈ cascadeOf rs.schemas m_name) :
    ∃ x ∈ rs.schemas, c.2.schema = x.2 ∧ c.2.table = x.2.table ∧
      ∃ constraint, (c.2.f_col, constraint) ∈ foreignOf rs.schemas x.2 ∧ constraint.f_entity = m_name ∧
        c.2.col = constraint.col := by
  obtain ⟨⟨name, schema⟩, hx, h⟩ := mem_filterMap.mp h
  obtain ⟨⟨col, constraint⟩, hlast, rfl⟩ := map_eq_some_iff.mp h
  obtain ⟨hmem, hname⟩ := mem_filter.mp (mem_of_getLast? hlast)
  exact ⟨_, hx, rfl, rfl, constraint, hmem, of_decide_eq_true hname, rfl⟩

/-- No two rows of a table have one primary key. -/
def Inv (schemas : Schemas) (s : System) : Prop := ∀ x ∈ schemas, Keyed x.2 (s.db x.2.table)

/-! ## Steps -/

theorem Inv.insert (h : Inv rs.schemas s) (hx : (m_name, schema) ∈ rs.schemas) :
    Inv rs.schemas (insert rs.schemas s schema model) := by
  unfold DaoCascade.insert
  split
  · next hok =>
    intro y hy
    by_cases htable : y.2.table = schema.table
    · cases rs.eq_of_table (y := (m_name, schema)) hy hx htable
      simp only [update_self]
      exact (h _ hx).put (keepsKey_mergeRow hok.2.2 (sameKey_refl model))
    · simp only [update_of_ne htable]
      exact h y hy
  · exact h

theorem Right.insert (h : Right rs.schemas s) (hx : (m_name, schema) ∈ rs.schemas) :
    Right rs.schemas (insert rs.schemas s schema model) := by
  unfold DaoCascade.insert
  split
  · next hok =>
    refine ⟨?_, h.published⟩
    rintro y hy row hrow table col value ⟨f_col, constraint, hforeign, rfl, rfl, hvalue⟩
    obtain ⟨p_schema, hp, htable, hkey⟩ := Related.parent hy hforeign
    -- the row that is written to keeps its primary key
    have hstays : ∀ parent ∈ s.db constraint.table, parent constraint.col = some value →
        ∃ parent ∈ update s.db schema.table (put schema model (mergeRow model) (s.db schema.table)) constraint.table,
          parent constraint.col = some value := by
      intro parent hparent hcol
      by_cases hsame : constraint.table = schema.table
      · cases rs.eq_of_table (x := (_, p_schema)) (y := (m_name, schema)) hp hx (htable.symm.trans hsame)
        rw [hsame] at hparent
        rw [hsame, update_self]
        by_cases hmodel : sameKey schema parent model = true
        · refine ⟨mergeRow model parent, mem_put_of_key hparent hmodel, ?_⟩
          rw [mergeRow, ← sameKey_iff.mp hmodel _ hkey, hcol]
          rfl
        · exact ⟨parent, mem_put_of_ne hparent (by simpa using hmodel), hcol⟩
      · rw [update_of_ne hsame]
        exact ⟨parent, hparent, hcol⟩
    have hold : ∀ old ∈ s.db y.2.table, old f_col = some value → ∃ parent ∈ s.db constraint.table,
        parent constraint.col = some value := fun old hold hvalue =>
      h.parents y hy old hold _ _ _ ⟨f_col, constraint, hforeign, rfl, rfl, hvalue⟩
    suffices hfound : ∃ parent ∈ s.db constraint.table, parent constraint.col = some value by
      obtain ⟨parent, hparent, hcol⟩ := hfound
      exact hstays parent hparent hcol
    by_cases hsame : y.2.table = schema.table
    · cases rs.eq_of_table (y := (m_name, schema)) hy hx hsame
      -- the value is of the model, which has been checked, or of the row that was there
      have hmodel : model f_col = some value → ∃ parent ∈ s.db constraint.table, parent constraint.col = some value := by
        intro hmodel
        have hone := all_eq_true.mp hok.2.1 _ hforeign
        simp only [hmodel, decide_eq_true_eq] at hone
        obtain ⟨parent, hparent⟩ := exists_mem_of_length_pos (hone ▸ Nat.one_pos)
        obtain ⟨hmem, hcol⟩ := mem_filter.mp hparent
        exact ⟨parent, hmem, of_decide_eq_true hcol⟩
      simp only [update_self] at hrow
      rcases mem_put hrow with ⟨hmem, -⟩ | ⟨old, hmem, -, rfl⟩ | ⟨-, rfl⟩
      · exact hold row hmem hvalue
      · rcases or_eq_some_iff.mp hvalue with hvalue | ⟨-, hvalue⟩
        · exact hmodel hvalue
        · exact hold old hmem hvalue
      · rcases or_eq_some_iff.mp hvalue with hvalue | ⟨hnone, hvalue⟩
        · exact hmodel hvalue
        · unfold keyOf at hvalue
          split at hvalue
          · exact hmodel hvalue
          · cases hvalue
    · simp only [update_of_ne hsame] at hrow
      exact hold row hrow hvalue
  · exact h

/-- What one delete of a row that is there does. -/
theorem delete_spec (h : Inv rs.schemas s) (hx : (m_name, schema) ∈ rs.schemas)
    (hfind : find schema (s.db schema.table) primary_keys = some row) :
    ∃ db' deleted published,
      delete rs.schemas s m_name schema primary_keys quiet = { db := db', deletes := (deleted, published) :: s.deletes } ∧
      (∀ t, (db' t).Sublist (s.db t)) ∧
      (∀ t r, r ∈ db' t ↔ r ∈ s.db t ∧ ¬Removes rs.schemas s.db m_name schema row (t, r)) ∧
      ((∀ d ∈ deleted, d ∈ published) ↔ quiet = false) := by
  have hkey := find?_some (p := (sameKey schema · primary_keys)) hfind
  obtain ⟨db₁, hone⟩ : ∃ db₁, deleteOne s.db schema primary_keys = some (row, db₁) := by
    rw [deleteOne, hfind]
    exact ⟨_, rfl⟩
  obtain ⟨-, hsub, hmem⟩ := deleteOne_spec (h _ hx) hone
  have hkeyed : ∀ c ∈ cascadeOf rs.schemas m_name, c.2.table = c.2.schema.table ∧ Keyed c.2.schema (db₁ c.2.schema.table) := by
    intro c hc
    obtain ⟨x, hx, hschema, htable, -⟩ := cascade_of_mem hc
    rw [hschema]
    exact ⟨htable, (h x hx).sublist (hsub _)⟩
  obtain ⟨db', deleted, hrest, hsub', hdeleted, hmem'⟩ := deleteCascades_spec primary_keys hkeyed
  -- the cascades go by columns of the primary key
  have hrow : ∀ c ∈ cascadeOf rs.schemas m_name, ∀ db d, FoundBy db primary_keys c d ↔ FoundBy db row c d := by
    intro c hc db d
    obtain ⟨y, hy, -, -, constraint, hforeign, rfl, hcol⟩ := cascade_of_mem hc
    obtain ⟨parent, hparent, -, hpk⟩ := Related.parent hy hforeign
    cases (Entities.getSchema rs.toEntities hx).symm.trans (Entities.getSchema rs.toEntities hparent)
    rw [FoundBy, FoundBy, mem_cascadeRows, mem_cascadeRows, hcol, sameKey_iff.mp hkey _ hpk]
  have hlater : ∀ c d, FoundBy db₁ primary_keys c d ↔ FoundBy s.db primary_keys c d ∧ d ≠ (schema.table, row) := by
    rintro c ⟨t, r⟩
    simp only [FoundBy, mem_cascadeRows, hmem]
    constructor
    · rintro ⟨rfl, ⟨hr, hne⟩, hvalue⟩
      exact ⟨⟨rfl, hr, hvalue⟩, hne⟩
    · rintro ⟨⟨rfl, hr, hvalue⟩, hne⟩
      exact ⟨rfl, ⟨hr, hne⟩, hvalue⟩
  have hassociated : ∀ d, d ∈ associated s.db (cascadeOf rs.schemas m_name) primary_keys ↔
      ∃ c ∈ cascadeOf rs.schemas m_name, FoundBy s.db primary_keys c d := by
    rintro ⟨t, r⟩
    simp only [associated, mem_flatMap, mem_map, mk.injEq, FoundBy]
    refine exists_congr fun c => and_congr_right fun _ => ?_
    constructor
    · rintro ⟨_, hr, rfl, rfl⟩
      exact ⟨rfl, hr⟩
    · rintro ⟨rfl, hr⟩
      exact ⟨r, hr, rfl, rfl⟩
  refine ⟨db', (schema.table, row) :: deleted, _, by simp only [delete, hone, hrest]; rfl, fun t => (hsub' t).trans (hsub t),
    fun t r => ?_, ?_⟩
  · rw [hmem', hmem, Removes, and_assoc]
    refine and_congr_right fun _ => ?_
    rw [not_or]
    refine and_congr_right fun hne => not_congr (exists_congr fun c => and_congr_right fun hc => ?_)
    rw [hlater, hrow c hc]
    exact and_iff_left hne
  · cases quiet with
    | true => exact iff_of_false (fun h => not_mem_nil (h _ mem_cons_self)) (by simp)
    | false =>
      refine iff_of_true ?_ rfl
      simp only [Bool.not_false, and_self, if_true]
      intro d hd
      rcases mem_cons.mp hd with rfl | hd
      · exact mem_cons_self
      · obtain ⟨c, hc, hfound⟩ := (hdeleted d).mp hd
        exact mem_cons_of_mem _ ((hassociated d).mpr ⟨c, hc, ((hlater c d).mp hfound).1⟩)

theorem Inv.delete (h : Inv rs.schemas s) (hx : (m_name, schema) ∈ rs.schemas) :
    Inv rs.schemas (delete rs.schemas s m_name schema primary_keys quiet) := by
  cases hfind : find schema (s.db schema.table) primary_keys with
  | none =>
    rw [DaoCascade.delete, deleteOne, hfind]
    exact h
  | some row =>
    obtain ⟨db', deleted, published, heq, hsub, -⟩ := delete_spec h hx hfind
    rw [heq]
    exact fun y hy => (h y hy).sublist (hsub _)

theorem Right.delete_iff (hright : Right rs.schemas s) (h : Inv rs.schemas s) (hx : (m_name, schema) ∈ rs.schemas) :
    Right rs.schemas (delete rs.schemas s m_name schema primary_keys quiet) ↔
      Careful rs.schemas s (.delete m_name primary_keys quiet) := by
  have hschema := Entities.getSchema rs.toEntities hx
  cases hfind : find schema (s.db schema.table) primary_keys with
  | none =>
    rw [DaoCascade.delete, deleteOne, hfind]
    refine iff_of_true hright fun schema' row hschema' hfound => ?_
    cases hschema.symm.trans hschema'
    rw [hfind] at hfound
    cases hfound
  | some row =>
    obtain ⟨db', deleted, published, heq, -, hmem, hpublished⟩ := delete_spec h hx hfind
    rw [heq]
    constructor
    · intro hafter schema' row' hschema' hfound
      cases hschema.symm.trans hschema'
      cases hfind.symm.trans hfound
      refine ⟨hpublished.mp (hafter.published _ mem_cons_self), fun y hy r hr hleft table col value hrefers => ?_⟩
      obtain ⟨parent, hparent, hcol⟩ := hafter.parents y hy r ((hmem _ _).mpr ⟨hr, hleft⟩) table col value hrefers
      obtain ⟨hparent, hstays⟩ := (hmem _ _).mp hparent
      exact ⟨parent, hparent, hstays, hcol⟩
    · intro hcareful
      obtain ⟨hquiet, hcareful⟩ := hcareful schema row hschema hfind
      refine ⟨fun y hy r hr table col value hrefers => ?_, fun call hcall => ?_⟩
      · obtain ⟨hr, hleft⟩ := (hmem _ _).mp hr
        obtain ⟨parent, hparent, hstays, hcol⟩ := hcareful y hy r hr hleft table col value hrefers
        exact ⟨parent, (hmem _ _).mpr ⟨hparent, hstays⟩, hcol⟩
      · rcases mem_cons.mp hcall with rfl | hcall
        · exact hpublished.mpr hquiet
        · exact hright.published call hcall

theorem Inv.step {e : Event} (h : Inv rs.schemas s) (hstep : step rs.schemas s e = some s') :
    Inv rs.schemas s' ∧ (Right rs.schemas s → (Right rs.schemas s' ↔ Careful rs.schemas s e)) := by
  cases e with
  | insert m_name model =>
    simp only [DaoCascade.step, map_eq_some_iff] at hstep
    obtain ⟨schema, hschema, rfl⟩ := hstep
    have hx := Lib.mem_of_lookup hschema
    exact ⟨h.insert hx, fun hright => iff_of_true (hright.insert hx) trivial⟩
  | delete m_name primary_keys quiet =>
    simp only [DaoCascade.step, bind_eq_some_iff, ite_none_right_eq_some, some.injEq] at hstep
    obtain ⟨schema, hschema, -, rfl⟩ := hstep
    have hx := Lib.mem_of_lookup hschema
    exact ⟨h.delete hx, fun hright => hright.delete_iff h hx⟩

def empty : System where
  db _ := []
  deletes := []

/-- **What a row refers to is there, and what a delete removes has its event, in
exactly the runs whose deletes are not quiet and leave no row that refers to one
they remove.** -/
theorem deletes_right_iff_careful {evs : List Event} :
    Always (step rs.schemas) (Right rs.schemas) empty evs ↔ Along (step rs.schemas) (Careful rs.schemas) empty evs := by
  have hinv : Inv rs.schemas empty := fun _ _ => List.Pairwise.nil
  have hright : Right rs.schemas empty := ⟨by simp [empty], by simp [empty]⟩
  refine always_iff_along (I := fun s => Inv rs.schemas s ∧ Right rs.schemas s) (fun s h => h.2) ?_ ?_ ⟨hinv, hright⟩
  · rintro s e s' ⟨h, hright⟩ hstep hcareful
    obtain ⟨h', hiff⟩ := h.step hstep
    exact ⟨h', (hiff hright).mpr hcareful⟩
  · rintro s e s' ⟨h, hright⟩ hstep hright'
    exact ((h.step hstep).2 hright).mp hright'

/-- Consumers, their credentials, and the tokens of the credentials. -/
def oauth2 : Related where
  schemas :=
    [("consumers", { table := "consumers", primary_key := ["id"], fields := [("id", ⟨false, none⟩)] }),
      ("oauth2_credentials",
        { table       := "oauth2_credentials"
          primary_key := ["id"]
          fields      := [("id", ⟨false, none⟩), ("consumer_id", ⟨false, some ("consumers", "id")⟩)] }),
      ("oauth2_tokens",
        { table       := "oauth2_tokens"
          primary_key := ["id"]
          fields      := [("id", ⟨false, none⟩), ("credential_id", ⟨false, some ("oauth2_credentials", "id")⟩)] })]
  names := by decide
  tables := by decide
  foreign := by decide

/-- A row of which only the id and one reference are set. -/
def rowOf (id col value : String) : Row := fun c =>
  if c = "id" then some (.str id) else if c = col then some (.str value) else none

/-- A consumer with a credential and a token is deleted. -/
def consumerDeleted : List Event :=
  [.insert "consumers" (rowOf "1" "username" "bob"), .insert "oauth2_credentials" (rowOf "2" "consumer_id" "1"),
    .insert "oauth2_tokens" (rowOf "3" "credential_id" "2"), .delete "consumers" (rowOf "1" "id" "1") false]

/-- The token stays, and refers to a credential that does not. -/
theorem not_right_consumerDeleted : ¬Always (step oauth2.schemas) (Right oauth2.schemas) empty consumerDeleted := by
  intro h
  obtain ⟨s, hrun⟩ : ∃ s, run (step oauth2.schemas) empty consumerDeleted = some s :=
    isSome_iff_exists.mp (by decide +kernel)
  have htoken : (run (step oauth2.schemas) empty consumerDeleted).map
      (fun s => (s.db "oauth2_tokens").map (· "credential_id")) = some [some (.str "2")] := by
    decide +kernel
  have hgone : (run (step oauth2.schemas) empty consumerDeleted).map
      (fun s => (s.db "oauth2_credentials").length) = some 0 := by
    decide +kernel
  rw [hrun, map_some, some.injEq] at htoken hgone
  obtain ⟨token, hmem, hrefers⟩ : ∃ token ∈ s.db "oauth2_tokens", token "credential_id" = some (.str "2") := by
    simpa using mem_map.mp (htoken ▸ mem_cons_self)
  obtain ⟨parent, hparent, -⟩ := (h.reached hrun).parents ("oauth2_tokens", _)
    (mem_cons_of_mem _ (mem_cons_of_mem _ mem_cons_self)) token hmem "oauth2_credentials" "id" (.str "2")
    ⟨"credential_id", { table := "oauth2_credentials", col := "id", f_entity := "oauth2_credentials" },
      by simpa [foreignOf, oauth2, getSchema] using ⟨_, rfl, rfl⟩, rfl, rfl, hrefers⟩
  rw [length_eq_zero_iff.mp hgone] at hparent
  cases hparent

end OpenResty.Kong.DaoCascade
