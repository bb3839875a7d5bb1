/-
What `rds.parser` makes of a stream: a table for each row where its booleans are recognized,
and nothing where the row data is not made of whole rows.
-/
import OpenResty.Filter.RdsRowData
import OpenResty.Resty.RdsParser

namespace OpenResty.Resty.RdsParser

open List Prod

open Lib (Bytes toBytes length_toBytes)
open Filter.RdsJson (Column Value Row Head Unread word headerBytes columnBytes fieldAtoms fieldsAtoms rowsAtoms flat
  flat_null flat_value flat_fields flat_row null_front value_front unread_end unread_flag unread_field word_toBytes)

variable {d : Doubles}

/-! ## Header and columns -/

variable {col n row : Nat}

theorem skip_append {a : Bytes} (ha : a.length = n) (o : Nat) (t : Bytes) :
    (RdsBuf.mk o (a ++ t)).skip n = ⟨o + n, t⟩ := by
  rw [RdsBuf.skip, drop_left' ha]

theorem read_toBytes {v : Nat} (hv : v < 256 ^ n) (o : Nat) (t : Bytes) :
    (RdsBuf.mk o (toBytes n v ++ t)).read n = (v, ⟨o + n, t⟩) := by
  rw [RdsBuf.read, word_toBytes hv, skip_append (length_toBytes n v)]

theorem parse_header_eq (head : Head) (o : Nat) (t : Bytes) :
    ∃ b : RdsBuf, rds_parse_header ⟨o, headerBytes head.header ++ t⟩ = .ok (head.header, b) ∧ b.rest = t := by
  obtain ⟨hstd, hdrv, herrstr⟩ := head.codes_lt
  obtain ⟨haffected, hinsert, hcols⟩ := head.counts_lt
  simp only [headerBytes, append_assoc]
  rw [rds_parse_header, if_neg]
  · dsimp only
    rw [skip_append (length_toBytes 1 0), read_toBytes (by decide)]
    dsimp only
    rw [if_neg (by decide), read_toBytes (by decide)]
    dsimp only
    rw [if_neg (by decide), read_toBytes hstd]
    dsimp only
    rw [read_toBytes hdrv]
    dsimp only
    rw [read_toBytes herrstr]
    dsimp only
    rw [if_neg, take_left, skip_append rfl, read_toBytes haffected]
    · dsimp only
      rw [read_toBytes hinsert]
      dsimp only
      rw [read_toBytes hcols]
      exact ⟨_, rfl, rfl⟩
    · simp only [length_append, length_toBytes]
      omega
  · simp only [length_append, length_toBytes]
    omega

theorem parse_col_eq {col : Column}
    (h : col.std_type < 2 ^ 16 ∧ col.drv_type < 2 ^ 16 ∧ col.name.length < 2 ^ 16) (o : Nat)
    (t : Bytes) :
    ∃ b : RdsBuf, b.rest = t ∧ rds_parse_col ⟨o, columnBytes col ++ t⟩ =
      if col.name = [] then .error (Filter.RdsJson.lit "column name empty") else .ok (col, b) := by
  obtain ⟨hstd, hdrv, hname⟩ := h
  refine ⟨⟨o + 2 + 2 + 2 + col.name.length, t⟩, rfl, ?_⟩
  have hlong : ¬ (columnBytes col ++ t).length < 2 + 2 + 2 := by
    simp only [columnBytes, length_append, length_toBytes]
    omega
  rw [rds_parse_col, if_neg hlong]
  simp only [columnBytes, append_assoc]
  rw [read_toBytes hstd]
  dsimp only
  rw [read_toBytes hdrv]
  dsimp only
  rw [read_toBytes hname]
  dsimp only
  by_cases hempty : col.name = []
  · rw [if_pos hempty, if_pos (by rw [hempty]; rfl)]
  · have hshort : ¬ (col.name ++ t).length < col.name.length := by
      rw [length_append]
      omega
    rw [if_neg hempty, if_neg (fun h => hempty (length_eq_zero_iff.mp h)), if_neg hshort, take_left,
      skip_append rfl]

variable {cols : List Column}

theorem parse_cols_eq
    (h : ∀ col ∈ cols, col.std_type < 2 ^ 16 ∧ col.drv_type < 2 ^ 16 ∧ col.name.length < 2 ^ 16) (o : Nat)
    (t : Bytes) :
    if ∃ col ∈ cols, col.name = [] then ∃ e, parseCols cols.length ⟨o, cols.flatMap columnBytes ++ t⟩ = .error e
    else ∃ b : RdsBuf, parseCols cols.length ⟨o, cols.flatMap columnBytes ++ t⟩ = .ok (cols, b) ∧ b.rest = t := by
  induction cols generalizing o with
  | nil =>
    rw [if_neg (by simp)]
    exact ⟨_, rfl, rfl⟩
  | cons col cols ih =>
    obtain ⟨⟨o', rest⟩, rfl, hcol⟩ := parse_col_eq (h col mem_cons_self) o (cols.flatMap columnBytes ++ t)
    rw [flatMap_cons, append_assoc, length_cons, parseCols]
    by_cases hname : col.name = []
    · rw [if_pos ⟨col, mem_cons_self, hname⟩, hcol, if_pos hname]
      exact ⟨_, rfl⟩
    rw [if_neg hname] at hcol
    have hcols := ih (fun c hc => h c (mem_cons_of_mem _ hc)) o'
    have hexists : (∃ c ∈ col :: cols, c.name = []) ↔ ∃ c ∈ cols, c.name = [] := by simp [hname]
    rw [hcol]
    simp only [hexists, bind, Except.bind]
    split
    · next hbad =>
      rw [if_pos hbad] at hcols
      obtain ⟨e, he⟩ := hcols
      rw [he]
      exact ⟨e, rfl⟩
    · next hgood =>
      rw [if_neg hgood] at hcols
      obtain ⟨b, hb, hrest⟩ := hcols
      rw [hb]
      exact ⟨b, rfl, hrest⟩

/-! ## Fields -/

/-- The value of a field in Lua, if `rds_parse_field` recognizes it; `later` comes behind the field. -/
def fieldValue (d : Doubles) (column : Column) (value : Option Value) (later : Bytes) : Option LuaValue :=
  match value with
  | none => some .null
  | some value =>
    match column.roughType with
    | .float => some (.number (lua_tonumber d value.1))
    | .int => some (.number (lua_pushinteger d (lua_tointeger d value.1)))
    | .bool => (booleanAt (value.1 ++ later)).map .boolean
    | .str => some (.string value.1)

theorem parse_field_eq {column : Column} {value : Option Value} {later : Bytes} {b : RdsBuf}
    (hb : b.rest = flat (fieldAtoms value) ++ later) (row col : Nat) :
    match fieldValue d column value later with
    | none => ∃ e, rds_parse_field d column row col b = .error e
    | some v => ∃ b' : RdsBuf, rds_parse_field d column row col b = .ok (v, b') ∧ b'.rest = later := by
  obtain ⟨o, rest⟩ := b
  obtain rfl : rest = flat (fieldAtoms value) ++ later := hb
  cases value with
  | none =>
    rw [flat_null, rds_parse_field, if_neg, read_toBytes (by decide)]
    · exact ⟨_, rfl, rfl⟩
    · rw [length_append, length_toBytes]
      omega
  | some value =>
    have hlt := value.2
    rw [flat_value, append_assoc, rds_parse_field, if_neg, read_toBytes (by omega)]
    · dsimp only
      rw [if_neg (by omega), if_neg, take_left, skip_append rfl, fieldValue]
      · cases column.roughType with
        | float => exact ⟨_, rfl, rfl⟩
        | int => exact ⟨_, rfl, rfl⟩
        | str => exact ⟨_, rfl, rfl⟩
        | bool =>
          dsimp only
          cases booleanAt (value.1 ++ later) with
          | none => exact ⟨_, rfl⟩
          | some t => exact ⟨_, rfl, rfl⟩
      · rw [length_append]
        omega
    · rw [length_append, length_toBytes]
      omega

/-- A field that has been parsed is at the front of the buffer. -/
theorem parse_field_front {column : Column} {b b' : RdsBuf} {v : LuaValue}
    (h : rds_parse_field d column row col b = .ok (v, b')) :
    ∃ value, b.rest = flat (fieldAtoms value) ++ b'.rest := by
  rw [rds_parse_field] at h
  dsimp only [RdsBuf.read] at h
  split_ifs at h with hshort hnull hlong
  · obtain ⟨-, rfl⟩ := mk.inj (Except.ok.inj h)
    exact ⟨none, null_front (Nat.le_of_not_lt hshort) hnull⟩
  · obtain ⟨value, hvalue⟩ := value_front (Nat.le_of_not_lt hshort) hnull (Nat.le_of_not_lt hlong)
    have hskip : b' = (b.skip 4).skip (word 4 b.rest).1 := by
      split at h
      · exact (mk.inj (Except.ok.inj h)).2.symm
      · exact (mk.inj (Except.ok.inj h)).2.symm
      · split at h
        · exact (mk.inj (Except.ok.inj h)).2.symm
        · cases h
      · exact (mk.inj (Except.ok.inj h)).2.symm
    rw [hskip]
    exact ⟨some value, hvalue⟩

/-! ## Rows -/

/-- The table of a row. -/
def rowTable (d : Doubles) : List (Column × Option Value) → Bytes → Table → Option Table
  | [], _, t => some t
  | (column, value) :: fields, later, t => do
    let v ← fieldValue d column value (flat (fieldsAtoms (fields.map snd)) ++ later)
    rowTable d fields later (t.rawset column.name v)

theorem parse_fields_eq {fields : List (Column × Option Value)} {later : Bytes} {b : RdsBuf}
    (hb : b.rest = flat (fieldsAtoms (fields.map snd)) ++ later) (row col : Nat) (t : Table) :
    match rowTable d fields later t with
    | none => ∃ e, parseFields d row col (fields.map fst) b t = .error e
    | some t' => ∃ b' : RdsBuf, parseFields d row col (fields.map fst) b t = .ok (t', b') ∧ b'.rest = later := by
  induction fields generalizing col b t with
  | nil => exact ⟨b, rfl, hb⟩
  | cons field fields ih =>
    obtain ⟨column, value⟩ := field
    rw [map_cons, flat_fields, append_assoc] at hb
    have hfield := @parse_field_eq d column _ _ _ hb row col
    rw [map_cons, parseFields, rowTable]
    cases hvalue : fieldValue d column value (flat (fieldsAtoms (fields.map snd)) ++ later) with
    | none =>
      rw [hvalue] at hfield
      obtain ⟨e, he⟩ := hfield
      rw [he]
      exact ⟨e, rfl⟩
    | some v =>
      rw [hvalue] at hfield
      obtain ⟨b', hb', hrest⟩ := hfield
      rw [hb']
      exact ih hrest (col + 1) (t.rawset column.name v)

theorem parse_fields_front {b b' : RdsBuf} {t t' : Table} {k : Nat}
    (h : parseFields d row col cols b t = .ok (t', b')) (hlater : Unread k 0 b'.rest) :
    Unread k cols.length b.rest := by
  induction cols generalizing col b t with
  | nil =>
    obtain ⟨-, rfl⟩ := mk.inj (Except.ok.inj h)
    exact hlater
  | cons column cols ih =>
    rw [parseFields] at h
    cases hfield : rds_parse_field d column row col b with
    | error e =>
      rw [hfield] at h
      cases h
    | ok r =>
      obtain ⟨v, b''⟩ := r
      rw [hfield] at h
      obtain ⟨value, hvalue⟩ := parse_field_front hfield
      exact unread_field hvalue (ih h)

/-- The tables of the rows, if all of their booleans are recognized. -/
def tables (d : Doubles) (cols : List Column) : List Row → Option (List Table)
  | [] => some []
  | row :: rows => do
    let t ← rowTable d (cols.zip row.fields) (flat (rowsAtoms rows)) .empty
    let ts ← tables d cols rows
    return t :: ts

theorem parse_rows_eq {cols : List Column} {rows : List Row} (hlength : ∀ row ∈ rows, row.fields.length = cols.length)
    {b : RdsBuf} (hb : b.rest = flat (rowsAtoms rows)) (n : Nat) :
    match tables d cols rows with
    | none => ∃ e, parseRows d cols n b = .error e
    | some ts => parseRows d cols n b = .ok ts := by
  induction rows generalizing b n with
  | nil =>
    have hrow : rds_parse_row d cols n b = .ok none := by
      rw [rds_parse_row, hb]
      rfl
    rw [tables, parseRows, hrow]
  | cons row rows ih =>
    rw [flat_row] at hb
    have hflag : row.flag.1 ≠ 0 := row.flag.2
    have hrow : rds_parse_row d cols n b = (parseFields d n 0 cols (b.skip 1) .empty).map some := by
      rw [rds_parse_row, hb]
      exact if_neg hflag
    have hskip : (b.skip 1).rest = flat (fieldsAtoms row.fields) ++ flat (rowsAtoms rows) := by
      rw [RdsBuf.skip, hb, drop_one, List.tail_cons]
    have hfields := hlength row mem_cons_self
    have hsnd : (cols.zip row.fields).map snd = row.fields := map_snd_zip (Nat.le_of_eq hfields)
    have hfst : (cols.zip row.fields).map fst = cols := map_fst_zip (Nat.le_of_eq hfields.symm)
    have hparse := @parse_fields_eq d (cols.zip row.fields) _ _ (by rw [hsnd]; exact hskip) n 0 .empty
    rw [hfst] at hparse
    rw [tables]
    cases htable : rowTable d (cols.zip row.fields) (flat (rowsAtoms rows)) .empty with
    | none =>
      rw [htable] at hparse
      obtain ⟨e, he⟩ := hparse
      refine ⟨e, ?_⟩
      rw [parseRows, hrow, he]
      rfl
    | some t =>
      rw [htable] at hparse
      obtain ⟨b', hb', hrest⟩ := hparse
      have hrows := ih (fun r hr => hlength r (mem_cons_of_mem _ hr)) hrest (n + 1)
      have hstep : parseRows d cols n b = (parseRows d cols (n + 1) b').map (t :: ·) := by
        rw [parseRows, hrow, hb']
        rfl
      rw [hstep]
      cases htables : tables d cols rows with
      | none =>
        rw [htables] at hrows
        obtain ⟨e, he⟩ := hrows
        rw [he]
        exact ⟨e, rfl⟩
      | some ts =>
        rw [htables] at hrows
        rw [show parseRows d cols (n + 1) b' = .ok ts from hrows]
        rfl

/-- Rows that have been parsed are whole. -/
theorem parse_rows_front {b : RdsBuf} {ts : List Table}
    (h : parseRows d cols row b = .ok ts) : Unread cols.length 0 b.rest := by
  induction row, b using parseRows.induct d cols generalizing ts with
  | case1 row b e hrow =>
    rw [parseRows, hrow] at h
    cases h
  | case2 row b hrow =>
    rw [rds_parse_row] at hrow
    split at hrow
    · cases hrow
    · next flag rest hrest =>
      dsimp only at hrow
      split_ifs at hrow with hflag hnil
      · rw [hrest, hflag, not_not.mp hnil]
        exact unread_end _
      · cases hfields : parseFields d row 0 cols (b.skip 1) .empty with
        | error e =>
          rw [hfields] at hrow
          cases hrow
        | ok r =>
          rw [hfields] at hrow
          cases hrow
  | case3 row b t b' hrow ih =>
    have hlater : Unread cols.length 0 b'.rest := by
      rw [parseRows, hrow] at h
      dsimp only at h
      cases hrows : parseRows d cols (row + 1) b' with
      | error e =>
        rw [hrows] at h
        cases h
      | ok ts' => exact ih hrows
    rw [rds_parse_row] at hrow
    split at hrow
    · cases hrow
    · next flag rest hrest =>
      dsimp only at hrow
      split_ifs at hrow with hflag
      · cases hrow
      · cases hfields : parseFields d row 0 cols (b.skip 1) .empty with
        | error e =>
          rw [hfields] at hrow
          cases hrow
        | ok r =>
          rw [hfields] at hrow
          obtain rfl : r = (t, b') := Option.some.inj (Except.ok.inj hrow)
          have hunread := parse_fields_front hfields hlater
          rw [RdsBuf.skip, hrest] at hunread
          rw [hrest]
          exact unread_flag hflag hunread

/-! ## The whole stream -/

variable {head : Head}

theorem parse_unnamed (d : Doubles) (h : ∃ col ∈ head.cols, col.name = []) (data : Bytes) :
    ∃ e, rds_parse d (head.bytes ++ data) = .error e := by
  obtain ⟨⟨o, rest⟩, hheader, rfl⟩ := parse_header_eq head 0 (head.cols.flatMap columnBytes ++ data)
  have hcols := parse_cols_eq head.cols_lt o data
  rw [if_pos h] at hcols
  obtain ⟨e, he⟩ := hcols
  refine ⟨e, ?_⟩
  rw [rds_parse, Head.bytes, append_assoc, hheader]
  simp only [bind, Except.bind, head.col_count_eq, he]

theorem parse_named (d : Doubles) (h : ¬ ∃ col ∈ head.cols, col.name = []) (data : Bytes) :
    ∃ b : RdsBuf, b.rest = data ∧ rds_parse d (head.bytes ++ data) =
      if head.cols = [] then .ok (headerTable d head.header)
      else (parseRows d head.cols 0 b).map fun ts => { headerTable d head.header with resultset := some ts } := by
  obtain ⟨⟨o, rest⟩, hheader, rfl⟩ := parse_header_eq head 0 (head.cols.flatMap columnBytes ++ data)
  have hcols := parse_cols_eq head.cols_lt o data
  rw [if_neg h] at hcols
  obtain ⟨b, hb, hrest⟩ := hcols
  refine ⟨b, hrest, ?_⟩
  rw [rds_parse, Head.bytes, append_assoc, hheader]
  simp only [bind, Except.bind, head.col_count_eq, hb, length_eq_zero_iff]
  split
  · rfl
  · cases parseRows d head.cols 0 b <;> rfl

end OpenResty.Resty.RdsParser
