/-
Concurrent inserts and updates of the Cassandra backend: `check_unique_constraints`,
`check_foreign_constaints`, `insert` and `update` of `kong.dao.db.cassandra`.

Each select and each write is a step, and those of several writers come in any
order. A write is not tied to what was selected before it.
-/
import OpenResty.Kong.Cassandra
import OpenResty.Lib.Assoc
import OpenResty.Lib.Transition

namespace OpenResty.Kong.UniqueColumns

open Cassandra Lua Lib.Transition Function Option List

/-! ## Operations -/

/-- An update comes with the model after `fix`. -/
inductive Operation
  | insert (model : Row)
  | update (model : Row) (full ttl : Bool)

structure Request where
  schema : Schema
  operation : Operation

def Operation.model : Operation → Row
  | .insert model => model
  | .update model _ _ => model

/-- The values whose columns are checked. -/
def Request.values (r : Request) : Row :=
  match r.operation with
  | .insert model => model
  | .update model _ _ => valuesOf r.schema model

inductive Result
  | ok
  /-- the columns and values of the errors -/
  | unique (errors : List (String × Scalar))
  | foreign (errors : List (String × Scalar))
  /-- an update finds no row -/
  | missing
  | db

/-- Where a writer is. -/
inductive Pc
  | findOld
  | unique (cols : List String) (errors : List (String × Scalar))
  | foreign (cols : List (String × Foreign)) (errors : List (String × Scalar))
  /-- an update with a time to live reads the row once more -/
  | findRow
  /-- with the row that is inserted in place of the update -/
  | write (upsert : Option Row)
  | done (result : Result)

structure Writer where
  request : Request
  pc : Pc

/-- A value that was refused, with whether the row that is updated had it. -/
structure Refusal (ι : Type) where
  writer : ι
  col : String
  value : Scalar
  own : Prop

structure System (ι : Type) where
  db : Db
  writers : ι → Option Writer
  refusals : List (Refusal ι)
  /-- who has written -/
  wrote : List ι

inductive Event (ι : Type)
  | begin (i : ι) (m_name : String) (operation : Operation)
  | next (i : ι)

variable {ι : Type} [DecidableEq ι]

def setPc (s : System ι) (i : ι) (w : Writer) (pc : Pc) : System ι :=
  { s with writers := update s.writers i (some { w with pc }) }

/-- `rows[1]` is the row that is updated. -/
def sameRow (r : Request) : List Row → Bool
  | [] => false
  | row :: _ =>
    match r.operation with
    | .insert _ => false
    | .update model _ _ => sameKey r.schema row model

/-- The row that is updated has the value. -/
def Own (db : Db) (r : Request) (col : String) (value : Scalar) : Prop :=
  match r.operation with
  | .insert _ => False
  | .update model _ _ => ∃ row ∈ db r.schema.table, sameKey r.schema row model = true ∧ row col = some value

/-- One round of `check_unique_constraints`. -/
def checkUnique (s : System ι) (i : ι) (w : Writer) (col : String) (cols : List String)
    (errors : List (String × Scalar)) : System ι :=
  match w.request.values col with
  | none => setPc s i w (.unique cols errors)
  | some value =>
    let rows := selectCol (s.db w.request.schema.table) col value
    if rows.length > 0 ∧ !sameRow w.request rows then
      setPc { s with refusals := ⟨i, col, value, Own s.db w.request col value⟩ :: s.refusals } i w
        (.unique cols (errors ++ [(col, value)]))
    else setPc s i w (.unique cols errors)

/-- One round of `check_foreign_constaints`. -/
def checkForeign (s : System ι) (i : ι) (w : Writer) (col : String) (constraint : Foreign)
    (cols : List (String × Foreign)) (errors : List (String × Scalar)) : System ι :=
  match w.request.values col with
  | none => setPc s i w (.foreign cols errors)
  | some value =>
    match selectCol (s.db constraint.table) constraint.col value with
    | [] => setPc s i w (.foreign cols (errors ++ [(col, value)]))
    | [_] => setPc s i w (.foreign cols errors)
    | _ => setPc s i w (.done .db)

/-- What comes after the checks. -/
def afterChecks : Operation → Pc
  | .insert _ => .write none
  | .update _ _ ttl => if ttl then .findRow else .write none

/-- The model of an update with a time to live gets what the row has where its
values are nil or false. -/
def upsertModel (schema : Schema) (model row : Row) : Row := fun col =>
  match valuesOf schema model col with
  | none | some (.bool false) => (row col).or (model col)
  | some _ => model col

/-- What a write does to the row with the primary key. -/
def change (r : Request) (upsert : Option Row) : Row → Row :=
  match upsert, r.operation with
  | some model, _ => mergeRow model
  | none, .insert model => mergeRow model
  | none, .update model full _ => setRow r.schema model full

/-- The database takes no row without its primary key. -/
def write (s : System ι) (i : ι) (w : Writer) (upsert : Option Row) : System ι :=
  let key := w.request.operation.model
  if w.request.schema.primary_key.all fun col => (key col).isSome then
    let table := w.request.schema.table
    let rows := put w.request.schema key (change w.request upsert) (s.db table)
    setPc { s with db := update s.db table rows, wrote := i :: s.wrote } i w (.done .ok)
  else setPc s i w (.done .db)

/-- The next step of a writer. -/
def next (schemas : Schemas) (s : System ι) (i : ι) (w : Writer) : Option (System ι) :=
  match w.pc with
  | .findOld =>
    match find w.request.schema (s.db w.request.schema.table) w.request.operation.model with
    | none => some (setPc s i w (.done .missing))
    | some _ => some (setPc s i w (.unique (uniqueOf w.request.schema) []))
  | .unique (col :: cols) errors => some (checkUnique s i w col cols errors)
  | .unique [] errors =>
    if errors = [] then some (setPc s i w (.foreign (foreignOf schemas w.request.schema) []))
    else some (setPc s i w (.done (.unique errors)))
  | .foreign ((col, constraint) :: cols) errors => some (checkForeign s i w col constraint cols errors)
  | .foreign [] errors =>
    if errors = [] then some (setPc s i w (afterChecks w.request.operation))
    else some (setPc s i w (.done (.foreign errors)))
  | .findRow =>
    if w.request.schema.primary_key.length = 1 then
      let model := w.request.operation.model
      let row := find w.request.schema (s.db w.request.schema.table) model
      some (setPc s i w (.write (row.map (upsertModel w.request.schema model))))
    else some (setPc s i w (.done .db))
  | .write upsert => some (write s i w upsert)
  | .done _ => none

/-- An update looks for the row first. -/
def firstPc (schema : Schema) : Operation → Pc
  | .insert _ => .unique (uniqueOf schema) []
  | .update _ _ _ => .findOld

def step (schemas : Schemas) (s : System ι) : Event ι → Option (System ι)
  | .begin i m_name operation =>
    match s.writers i, getSchema schemas m_name with
    | none, some schema => some (setPc s i ⟨⟨schema, operation⟩, .done .db⟩ (firstPc schema operation))
    | _, _ => none
  | .next i => (s.writers i).bind (next schemas s i)

/-! ## What is to hold -/

/-- No two rows have one value in the column. -/
def UniqueIn (rows : List Row) (col : String) : Prop := rows.Pairwise fun a b => a col = b col → a col = none

structure Right (schemas : Schemas) (s : System ι) : Prop where
  unique : ∀ x ∈ schemas, ∀ col ∈ uniqueOf x.2, UniqueIn (s.db x.2.table) col
  /-- what is refused is not the row's own value -/
  own : ∀ x ∈ s.refusals, ¬x.own
  rejected : ∀ i w result, s.writers i = some w → w.pc = .done result → result ≠ .ok → i ∉ s.wrote

/-- The row that a writer is about to write. -/
def written (db : Db) (r : Request) (upsert : Option Row) : Row :=
  putRow r.schema r.operation.model (change r upsert) (db r.schema.table)

/-- At a write no other row holds any of the unique values that are written. -/
def Careful (s : System ι) : Event ι → Prop
  | .begin _ _ _ => True
  | .next i =>
    ∀ w upsert, s.writers i = some w → w.pc = .write upsert →
      (∀ col ∈ w.request.schema.primary_key, (w.request.operation.model col).isSome = true) →
      ∀ col ∈ uniqueOf w.request.schema, ∀ row ∈ s.db w.request.schema.table,
        sameKey w.request.schema row w.request.operation.model = false →
        row col = written s.db w.request upsert col → row col = none

/-! ## What a step does -/

/-- What is known of a request by where its writer is. -/
def PcOk (r : Request) : Pc → Prop
  | .unique cols _ => ∀ col ∈ cols, col ∈ uniqueOf r.schema
  | .write (some model) => ∀ col ∈ r.schema.primary_key, model col = r.operation.model col
  | _ => True

/-- A step of a writer: it goes on, it goes on with a refusal, or it writes. -/
inductive Effect (s s' : System ι) (i : ι) (w : Writer) : Prop
  | goes (pc : Pc) (heq : s' = setPc s i w pc) (hpc : PcOk w.request pc) (hnot : pc ≠ .done .ok)
      (hwrite : ∀ upsert, w.pc = .write upsert →
        ¬∀ col ∈ w.request.schema.primary_key, (w.request.operation.model col).isSome = true)
  | refused (col : String) (value : Scalar) (cols : List String) (errors : List (String × Scalar))
      (hwas : ∀ upsert, w.pc ≠ .write upsert) (hcol : col ∈ uniqueOf w.request.schema)
      (hcols : ∀ col ∈ cols, col ∈ uniqueOf w.request.schema)
      (hrefused : sameRow w.request (selectCol (s.db w.request.schema.table) col value) = false)
      (heq : s' = setPc { s with refusals := ⟨i, col, value, Own s.db w.request col value⟩ :: s.refusals } i w
        (.unique cols errors))
  | wrote (upsert : Option Row) (hwas : w.pc = .write upsert)
      (hkey : ∀ col ∈ w.request.schema.primary_key, (w.request.operation.model col).isSome = true)
      (heq : s' = setPc
        { s with
          db    := update s.db w.request.schema.table
            (put w.request.schema w.request.operation.model (change w.request upsert) (s.db w.request.schema.table))
          wrote := i :: s.wrote } i w (.done .ok))

variable {schemas : Schemas} {s s' : System ι} {i : ι} {w : Writer}

variable {col : String} {errors : List (String × Scalar)}

theorem checkUnique_effect {cols : List String}
    (hpc : w.pc = .unique (col :: cols) errors) (hok : PcOk w.request w.pc) :
    Effect s (checkUnique s i w col cols errors) i w := by
  rw [hpc] at hok
  have hcols : ∀ col ∈ cols, col ∈ uniqueOf w.request.schema := fun c hc => hok c (mem_cons_of_mem _ hc)
  have hgoes : Effect s (setPc s i w (.unique cols errors)) i w := .goes _ rfl hcols (by simp) (by simp [hpc])
  unfold checkUnique
  split
  · exact hgoes
  · simp only
    split
    · next hrefused =>
      exact .refused col _ cols _ (by simp [hpc]) (hok col mem_cons_self) hcols (by simpa using hrefused.2) rfl
    · exact hgoes

theorem checkForeign_effect {constraint : Foreign} {cols : List (String × Foreign)} (hpc : w.pc = .foreign ((col, constraint) :: cols) errors) :
    Effect s (checkForeign s i w col constraint cols errors) i w := by
  have hgoes : ∀ pc, PcOk w.request pc → pc ≠ .done .ok → Effect s (setPc s i w pc) i w :=
    fun pc hok hnot => .goes pc rfl hok hnot (by simp [hpc])
  unfold checkForeign
  split
  · exact hgoes _ trivial (by simp)
  · split
    · exact hgoes _ trivial (by simp)
    · exact hgoes _ trivial (by simp)
    · exact hgoes _ trivial (by simp)

theorem afterChecks_ok (r : Request) : PcOk r (afterChecks r.operation) ∧ afterChecks r.operation ≠ .done .ok := by
  cases r.operation with
  | insert model => exact ⟨trivial, by simp [afterChecks]⟩
  | update model full ttl => cases ttl <;> exact ⟨trivial, by simp [afterChecks]⟩

theorem upsertModel_key {schema : Schema} {model row : Row} (h : sameKey schema row model = true) :
    ∀ col ∈ schema.primary_key, upsertModel schema model row col = model col := by
  intro col hcol
  have hvalue : valuesOf schema model col = none := if_neg fun h => h.2 hcol
  simp only [upsertModel, hvalue, sameKey_iff.mp h col hcol]
  exact Option.or_self

theorem next_effect (hok : PcOk w.request w.pc) (hstep : next schemas s i w = some s') : Effect s s' i w := by
  unfold next at hstep
  split at hstep
  · next hpc =>
    split at hstep <;> cases hstep
    · exact .goes _ rfl trivial (by simp) (by simp [hpc])
    · exact .goes _ rfl (fun _ h => h) (by simp) (by simp [hpc])
  · next hpc =>
    cases hstep
    exact checkUnique_effect hpc hok
  · next hpc =>
    split at hstep <;> cases hstep <;> exact .goes _ rfl trivial (by simp) (by simp [hpc])
  · next hpc =>
    cases hstep
    exact checkForeign_effect hpc
  · next hpc =>
    split at hstep <;> cases hstep
    · obtain ⟨hok, hnot⟩ := afterChecks_ok w.request
      exact .goes _ rfl hok hnot (by simp [hpc])
    · exact .goes _ rfl trivial (by simp) (by simp [hpc])
  · next hpc =>
    split at hstep <;> cases hstep
    · refine .goes _ rfl ?_ (by simp) (by simp [hpc])
      cases hfind : find w.request.schema (s.db w.request.schema.table) w.request.operation.model with
      | none => trivial
      | some row => exact upsertModel_key (find?_some (p := (sameKey w.request.schema · w.request.operation.model)) hfind)
    · exact .goes _ rfl trivial (by simp) (by simp [hpc])
  · next upsert hpc =>
    cases hstep
    unfold write
    simp only
    split
    · next hkey => exact .wrote upsert hpc (by simpa using hkey) rfl
    · next hkey => exact .goes _ rfl trivial (by simp) fun _ _ h => hkey (by simpa using h)
  · cases hstep

/-! ## What holds in every run -/

/-- What holds whether or not a value is there twice. -/
structure Inv (es : Entities) (s : System ι) : Prop where
  keyed : ∀ x ∈ es.schemas, Keyed x.2 (s.db x.2.table)
  schema : ∀ i w, s.writers i = some w → ∃ m_name, (m_name, w.request.schema) ∈ es.schemas
  pc : ∀ i w, s.writers i = some w → PcOk w.request w.pc
  unwritten : ∀ i, (∀ w, s.writers i = some w → w.pc ≠ .done .ok) → i ∉ s.wrote

variable {es : Entities}

/-- A writer that goes on without writing. -/
theorem Inv.setPc (pc : Pc) (h : Inv es s) (hschema : ∃ m_name, (m_name, w.request.schema) ∈ es.schemas)
    (hpc : PcOk w.request pc) (hnot : i ∉ s.wrote) : Inv es (setPc s i w pc) where
  keyed := h.keyed
  schema j w' hj := by
    simp only [UniqueColumns.setPc] at hj
    by_cases hji : j = i
    · subst hji
      rw [update_self] at hj
      cases hj
      exact hschema
    · rw [update_of_ne hji] at hj
      exact h.schema j w' hj
  pc j w' hj := by
    simp only [UniqueColumns.setPc] at hj
    by_cases hji : j = i
    · subst hji
      rw [update_self] at hj
      cases hj
      exact hpc
    · rw [update_of_ne hji] at hj
      exact h.pc j w' hj
  unwritten j hj := by
    by_cases hji : j = i
    · subst hji
      exact hnot
    · refine h.unwritten j fun w' hj' => hj w' ?_
      simp only [UniqueColumns.setPc, update_of_ne hji]
      exact hj'

theorem change_keepsKey {upsert : Option Row} (hpc : PcOk w.request (.write upsert))
    (hkey : ∀ col ∈ w.request.schema.primary_key, (w.request.operation.model col).isSome = true) :
    KeepsKey w.request.schema w.request.operation.model (change w.request upsert) := by
  cases upsert with
  | some model =>
    refine keepsKey_mergeRow (fun col hcol => ?_) (sameKey_iff.mpr fun col hcol => hpc col hcol)
    rw [hpc col hcol]
    exact hkey col hcol
  | none =>
    unfold change
    cases hop : w.request.operation with
    | insert model =>
      rw [hop] at hkey
      exact keepsKey_mergeRow hkey (sameKey_refl _)
    | update model full ttl => exact keepsKey_setRow model full

theorem Inv.effect (h : Inv es s) (hi : s.writers i = some w) (hrunning : w.pc ≠ .done .ok) (heffect : Effect s s' i w) :
    Inv es s' := by
  obtain ⟨m_name, hschema⟩ := h.schema i w hi
  have hnot : i ∉ s.wrote := by
    refine h.unwritten i fun w' hi' => ?_
    cases hi.symm.trans hi'
    exact hrunning
  cases heffect with
  | goes pc heq hpc hdone =>
    subst heq
    exact h.setPc _ ⟨m_name, hschema⟩ hpc hnot
  | refused col value cols errors hwas hcol hcols hrefused heq =>
    subst heq
    have hs : Inv es { s with refusals := ⟨i, col, value, Own s.db w.request col value⟩ :: s.refusals } :=
      ⟨h.keyed, h.schema, h.pc, h.unwritten⟩
    exact hs.setPc _ ⟨m_name, hschema⟩ hcols hnot
  | wrote upsert hwas hkey heq =>
    subst heq
    have hpc := h.pc i w hi
    rw [hwas] at hpc
    have hgo := h.setPc (i := i) (.done .ok) ⟨m_name, hschema⟩ trivial hnot
    refine ⟨fun x hx => ?_, hgo.schema, hgo.pc, fun j hj => ?_⟩
    · simp only [UniqueColumns.setPc]
      by_cases htable : x.2.table = w.request.schema.table
      · cases es.eq_of_table (y := (m_name, w.request.schema)) hx hschema htable
        rw [update_self]
        exact (h.keyed _ hx).put (change_keepsKey hpc hkey)
      · rw [update_of_ne htable]
        exact h.keyed x hx
    · have hji : j ≠ i := by
        rintro rfl
        exact hj _ (update_self _ _ _) rfl
      exact not_mem_cons_of_ne_of_not_mem hji (hgo.unwritten j hj)

/-- Nothing is there twice, and nothing was refused to the row that has it. -/
structure Sound (schemas : Schemas) (s : System ι) : Prop where
  unique : ∀ x ∈ schemas, ∀ col ∈ uniqueOf x.2, UniqueIn (s.db x.2.table) col
  own : ∀ x ∈ s.refusals, ¬x.own

instance (col : String) : Std.Symm fun a b : Row => a col = b col → a col = none where
  symm a b h heq := by rw [heq]; exact h heq.symm

/-- Where a value is there once, the row that has it is the first that has it. -/
theorem selectCol_of_unique {rows : List Row} {value : Scalar} {row : Row} (h : UniqueIn rows col)
    (hrow : row ∈ rows) (hvalue : row col = some value) : ∃ rest, selectCol rows col value = row :: rest := by
  have hmem : row ∈ selectCol rows col value := mem_filter.mpr ⟨hrow, by simpa using hvalue⟩
  cases hselect : selectCol rows col value with
  | nil => rw [hselect] at hmem; cases hmem
  | cons first rest =>
    have hfirst : first ∈ selectCol rows col value := by rw [hselect]; exact mem_cons_self
    obtain ⟨hfirst, hfirstValue⟩ := mem_filter.mp hfirst
    have hfirstValue : first col = some value := of_decide_eq_true hfirstValue
    by_cases hne : row = first
    · exact ⟨rest, by rw [hne]⟩
    · have hnone := List.Pairwise.forall h hrow hfirst hne (hvalue.trans hfirstValue.symm)
      rw [hvalue] at hnone
      cases hnone

omit [DecidableEq ι] in
theorem not_own {value : Scalar} (hunique : UniqueIn (s.db w.request.schema.table) col)
    (hrefused : sameRow w.request (selectCol (s.db w.request.schema.table) col value) = false) :
    ¬Own s.db w.request col value := by
  intro hown
  unfold Own at hown
  split at hown
  · exact hown
  · next model full ttl hop =>
    obtain ⟨row, hrow, hkey, hvalue⟩ := hown
    obtain ⟨rest, hselect⟩ := selectCol_of_unique hunique hrow hvalue
    rw [hselect] at hrefused
    simp only [sameRow, hop] at hrefused
    rw [hkey] at hrefused
    cases hrefused

/-- A step keeps the tables sound exactly when it is careful. -/
theorem Sound.effect (hsound : Sound es.schemas s) (h : Inv es s) (hi : s.writers i = some w) (heffect : Effect s s' i w) :
    Sound es.schemas s' ↔ Careful s (.next i) := by
  obtain ⟨m_name, hschema⟩ := h.schema i w hi
  cases heffect with
  | goes pc heq hpc hdone hwrite =>
    subst heq
    refine iff_of_true ⟨hsound.unique, hsound.own⟩ fun w' upsert hi' hwas hkey => ?_
    cases hi.symm.trans hi'
    exact absurd hkey (hwrite upsert hwas)
  | refused col value cols errors hwas hcol hcols hrefused heq =>
    subst heq
    refine iff_of_true ⟨hsound.unique, fun x hx => ?_⟩ fun w' upsert hi' hwas' => ?_
    · rcases mem_cons.mp hx with rfl | hx
      · exact not_own (hsound.unique _ hschema col hcol) hrefused
      · exact hsound.own x hx
    · cases hi.symm.trans hi'
      exact absurd hwas' (hwas upsert)
  | wrote upsert hwas hkey heq =>
    subst heq
    have hpc := h.pc i w hi
    rw [hwas] at hpc
    have hput : ∀ col ∈ uniqueOf w.request.schema,
        (UniqueIn (put w.request.schema w.request.operation.model (change w.request upsert)
            (s.db w.request.schema.table)) col ↔
          ∀ row ∈ s.db w.request.schema.table, sameKey w.request.schema row w.request.operation.model = false →
            row col = written s.db w.request upsert col → row col = none) :=
      fun col hcol => (h.keyed _ hschema).pairwise_put (change_keepsKey hpc hkey) (hsound.unique _ hschema col hcol)
    constructor
    · intro hafter w' upsert' hi' hwas' _ col hcol
      cases hi.symm.trans hi'
      cases hwas.symm.trans hwas'
      refine (hput col hcol).mp ?_
      have hunique := hafter.unique _ hschema col hcol
      simp only [UniqueColumns.setPc, update_self] at hunique
      exact hunique
    · intro hcareful
      refine ⟨fun x hx col hcol => ?_, hsound.own⟩
      simp only [UniqueColumns.setPc]
      by_cases htable : x.2.table = w.request.schema.table
      · cases es.eq_of_table (y := (m_name, w.request.schema)) hx hschema htable
        rw [update_self]
        exact (hput col hcol).mpr (hcareful w upsert hi hwas hkey col hcol)
      · rw [update_of_ne htable]
        exact hsound.unique x hx col hcol

theorem Inv.begin (h : Inv es s) {m_name : String} {operation : Operation}
    (hstep : step es.schemas s (.begin i m_name operation) = some s') :
    Inv es s' ∧ s'.db = s.db ∧ s'.refusals = s.refusals := by
  simp only [step] at hstep
  split at hstep
  · next schema hi hschema =>
    cases hstep
    have hmem : (m_name, schema) ∈ es.schemas := Lib.mem_of_lookup hschema
    refine ⟨h.setPc _ ⟨m_name, hmem⟩ ?_ (h.unwritten i (by simp [hi])), rfl, rfl⟩
    cases operation with
    | insert model => exact fun _ hcol => hcol
    | update model full ttl => trivial
  · cases hstep

theorem Inv.step {e : Event ι} (h : Inv es s) (hsound : Sound es.schemas s)
    (hstep : UniqueColumns.step es.schemas s e = some s') : Inv es s' ∧ (Sound es.schemas s' ↔ Careful s e) := by
  cases e with
  | begin i m_name operation =>
    obtain ⟨hinv, hdb, hrefusals⟩ := h.begin hstep
    exact ⟨hinv, iff_of_true ⟨hdb ▸ hsound.unique, hrefusals ▸ hsound.own⟩ trivial⟩
  | next i =>
    simp only [UniqueColumns.step, bind_eq_some_iff] at hstep
    obtain ⟨w, hi, hnext⟩ := hstep
    have hrunning : w.pc ≠ .done .ok := by
      intro hdone
      simp [next, hdone] at hnext
    have heffect := next_effect (h.pc i w hi) hnext
    exact ⟨h.effect hi hrunning heffect, hsound.effect h hi heffect⟩

omit [DecidableEq ι] in
theorem Inv.right_iff (h : Inv es s) : Right es.schemas s ↔ Sound es.schemas s := by
  refine ⟨fun hright => ⟨hright.unique, hright.own⟩, fun hsound => ⟨hsound.unique, hsound.own, ?_⟩⟩
  intro i w result hi hpc hresult
  refine h.unwritten i fun w' hi' => ?_
  cases hi.symm.trans hi'
  rw [hpc]
  simpa using hresult

def empty (ι : Type) : System ι where
  db _ := []
  writers _ := none
  refusals := []
  wrote := []

/-- An entity with a unique column. -/
def consumers : Entities where
  schemas := [("consumers", ⟨"consumers", ["id"], [("id", ⟨false, none⟩), ("username", ⟨true, none⟩)]⟩)]
  names := by decide
  tables := by decide

end OpenResty.Kong.UniqueColumns
