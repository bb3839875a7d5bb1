/-
`rds.parser` and the RDS-JSON filter on the same stream, which comes to the filter in one buffer:
when one takes it exactly if the other does, and when the rows of Lua are the rows of the JSON.
-/
import OpenResty.Resty.RdsParserFacts

namespace OpenResty.Resty.RdsParser

open List Option

open Lib (Bytes)
open Filter.RdsJson (Column Value Row Head ResultSet RowsOf Conf Accepted headerBytes colsAtoms fieldsAtoms
  rowsAtoms flat
  lit quoted jsonValue jsonHeader Fits RowsFit Wraps isDigit isFalse isTrue intBegins withRows_atoms
    flat_atoms not_wraps
  unread_rows accepted_rows accepted_end accepted_spec)

variable {d : Doubles}

/-! ## Values -/

/-- What may follow the digits of a number in JSON: an exponent. -/
def isExponent : Bytes → Bool
  | [] => true
  | c :: data =>
    let digits := match data with
      | [] => []
      | sign :: more => if sign = 43 || sign = 45 then more else data
    (c = 101 || c = 69) && digits ≠ [] && digits.all isDigit

/-- A fraction, an exponent, or both. -/
def isFraction : Bytes → Bool
  | [] => true
  | c :: data =>
    if c = 46 then data.takeWhile isDigit ≠ [] && isExponent (data.dropWhile isDigit) else isExponent (c :: data)

def isUnsigned : Bytes → Bool
  | [] => false
  | c :: data => if c = 48 then isFraction data else isDigit c && isFraction (data.dropWhile isDigit)

/-- A number in JSON. -/
def isNumber : Bytes → Bool
  | [] => false
  | c :: data => if c = 45 then isUnsigned data else isUnsigned (c :: data)

/-- An integer of a magnitude from `2 ^ 53` on. -/
def isLarge (text : Bytes) : Bool :=
  match numeral text with
  | none => false
  | some n => 2 ^ 53 ≤ n.natAbs

/-- A value of Lua and a text in JSON are the same: a number is what Lua reads from the text, unless the
text is a large integer. -/
def Same (d : Doubles) : LuaValue → Bytes → Prop
  | .null, text => text = lit "null"
  | .boolean b, text => text = if b then lit "true" else lit "false"
  | .number x, text => isNumber text = true ∧ (isLarge text = true ∨ x = lua_tonumber d text)
  | .string s, text => text = quoted s

/-- Each column of a row has the same value in the table. -/
def SameRow (d : Doubles) (cols : List Column) (t : Table) (row : Row) : Prop :=
  ∀ field ∈ cols.zip row.fields, ∃ v, t field.1.name = some v ∧ Same d v (jsonValue field.1 field.2)

/-- The tables are the rows of the JSON; without a resultset, it is that of the header. -/
def SameRows (d : Doubles) (conf : Conf) (head : Head) (data : Bytes) (json : Bytes) : Option (List Table) → Prop
  | none => json = jsonHeader conf head.header
  | some ts => ∃ rows, ∃ h : RowsOf head.cols data rows, ∃ hcols : head.cols ≠ [],
      json = (head.withRows rows h.length_fields fun hnil => absurd hnil hcols).json conf ∧
        Forall₂ (SameRow d head.cols) ts rows

/-- Both take the stream or neither does; and then they agree. -/
def Agree (d : Doubles) (conf : Conf) (head : Head) (data : Bytes) : Prop :=
  ((∃ result, rds_parse d (head.bytes ++ data) = .ok result) ↔ ∃ ctx, Accepted conf (head.bytes ++ data) ctx) ∧
    ∀ result ctx, rds_parse d (head.bytes ++ data) = .ok result → Accepted conf (head.bytes ++ data) ctx →
      SameRows d conf head data ctx.out.sent result.resultset

/-! ## The condition -/

/-- The byte that a boolean is told by; behind an empty one it is the next byte. -/
def FieldKnown (column : Column) (value : Option Value) (later : Bytes) : Prop :=
  match value with
  | none => True
  | some value =>
    column.roughType = .bool → (isFalse ((value.1 ++ later).headD 0) || isTrue ((value.1 ++ later).headD 0)) = true

def FieldsKnown : List (Column × Option Value) → Bytes → Prop
  | [], _ => True
  | (column, value) :: fields, later =>
    FieldKnown column value (flat (fieldsAtoms (fields.map Prod.snd)) ++ later) ∧ FieldsKnown fields later

/-- All booleans are told by a byte that stands for one. -/
def RowsKnown (cols : List Column) : List Row → Prop
  | [] => True
  | row :: rows => FieldsKnown (cols.zip row.fields) (flat (rowsAtoms rows)) ∧ RowsKnown cols rows

/-- The filter has room for its output, the values are of their types, and the length of the buffer does not wrap. -/
def Printable (conf : Conf) (head : Head) (rows : List Row) : Prop :=
  0 < conf.buf_size ∧ RowsFit head.cols rows ∧ ¬ Wraps (head.atoms rows) [head.bytes ++ flat (rowsAtoms rows)]

/-- The last field of a name. -/
def lastOf (name : Bytes) : List (Column × Option Value) → Option (Column × Option Value)
  | [] => none
  | field :: fields => (lastOf name fields).or (if field.1.name = name then some field else none)

/-- `NULL`, a number in JSON, a boolean that is not empty, or a string. -/
def Plain (column : Column) : Option Value → Prop
  | none => True
  | some value =>
    match column.roughType with
    | .int | .float => isNumber value.1 = true
    | .bool => value.1 ≠ []
    | .str => True

/-- The number of a field in Lua. -/
def fieldNumber (d : Doubles) (column : Column) : Option Value → Option Number
  | none => none
  | some value =>
    match column.roughType with
    | .int => some (lua_pushinteger d (lua_tointeger d value.1))
    | .float => some (lua_tonumber d value.1)
    | .bool | .str => none

/-- The text of a field is that of the last one of its name, or stands for the same number. -/
def SameText (d : Doubles) (text : Bytes) (column : Column) (value : Option Value) : Prop :=
  text = jsonValue column value ∨
    ∃ x, fieldNumber d column value = some x ∧ isNumber text = true ∧ (isLarge text = true ∨ x = lua_tonumber d text)

/-- For each field, the last one of its name is plain, and has the same text. -/
def Plainly (d : Doubles) (fields : List (Column × Option Value)) : Prop :=
  ∀ field ∈ fields, ∃ last, lastOf field.1.name fields = some last ∧ Plain last.1 last.2 ∧
    SameText d (jsonValue field.1 field.2) last.1 last.2

/-- A column has no name; or there is nothing behind a header without columns, and room; or the row data is not
made of whole rows, or it is, with booleans that are told exactly if it can be printed, and then with plain fields. -/
def Agreeable (d : Doubles) (conf : Conf) (head : Head) (data : Bytes) : Prop :=
  (∃ col ∈ head.cols, col.name = []) ∨ head.cols = [] ∧ data = [] ∧ 0 < conf.buf_size ∨
    head.cols ≠ [] ∧ ∀ rows, RowsOf head.cols data rows →
      (RowsKnown head.cols rows ↔ Printable conf head rows) ∧
        (RowsKnown head.cols rows → ∀ row ∈ rows, Plainly d (head.cols.zip row.fields))

/-! ## Numbers -/

/-- A number that is made of digits, with or without a minus, is a numeral. -/
theorem numeral_isSome {text : Bytes} (hnumber : isNumber text = true) (hbegins : intBegins text = true) :
    ∃ n, numeral text = some n := by
  cases text with
  | nil => cases hnumber
  | cons c data =>
    simp only [intBegins, Bool.and_eq_true, Bool.or_eq_true, decide_eq_true_eq] at hbegins
    obtain ⟨hc, hdata⟩ := hbegins
    by_cases hminus : c = 45
    · have hne : data ≠ [] := by
        rintro rfl
        subst hminus
        cases hnumber
      rw [numeral, if_pos hminus, if_pos ⟨hne, hdata⟩]
      exact ⟨_, rfl⟩
    · have hall : (c :: data).all isDigit = true := by
        rw [all_cons, hdata, hc.resolve_left hminus]
        rfl
      rw [numeral, if_neg hminus, if_pos hall]
      exact ⟨_, rfl⟩

/-- An integer is the same number when Lua reads it as one. -/
theorem integer_same {text : Bytes} (hnumber : isNumber text = true) (hbegins : intBegins text = true) :
    isLarge text = true ∨ lua_pushinteger d (lua_tointeger d text) = lua_tonumber d text := by
  obtain ⟨n, hn⟩ := numeral_isSome hnumber hbegins
  by_cases hsmall : n.natAbs < 2 ^ 53
  · have htonumber : lua_tonumber d text = .int ⟨n, hsmall⟩ := by
      rw [lua_tonumber, hn]
      exact dif_pos hsmall
    have htointeger : lua_tointeger d text = n := by rw [lua_tointeger, htonumber]
    rw [htonumber, htointeger, lua_pushinteger, dif_pos hsmall]
    exact .inr rfl
  · rw [isLarge, hn]
    exact .inl (decide_eq_true (Nat.le_of_not_lt hsmall))

/-! ## Fields -/

variable {column : Column} {value : Option Value} {later : Bytes} {v : LuaValue}

theorem fieldValue_isSome : (∃ v, fieldValue d column value later = some v) ↔ FieldKnown column value later := by
  cases value with
  | none => exact iff_of_true ⟨_, rfl⟩ trivial
  | some value =>
    rw [fieldValue, FieldKnown]
    cases column.roughType with
    | int => simp
    | float => simp
    | str => simp
    | bool =>
      simp only [booleanAt, true_implies]
      cases hfalse : isFalse ((value.1 ++ later).headD 0) with
      | true => simp
      | false =>
        cases htrue : isTrue ((value.1 ++ later).headD 0) with
        | true => simp
        | false => simp

theorem fieldNumber_eq {x : Number} :
    fieldValue d column value later = some (.number x) ↔ fieldNumber d column value = some x := by
  cases value with
  | none => simp [fieldValue, fieldNumber]
  | some value =>
    rw [fieldValue, fieldNumber]
    cases column.roughType with
    | int => simp
    | float => simp
    | str => simp
    | bool =>
      dsimp only
      cases booleanAt (value.1 ++ later) <;> simp

/-- A field that the filter prints is the same in Lua if it is plain. -/
theorem same_iff_plain (hfits : Fits column value) (hvalue : fieldValue d column value later = some v) :
    Same d v (jsonValue column value) ↔ Plain column value := by
  match value with
  | none =>
    obtain rfl := some.inj hvalue
    exact iff_of_true rfl trivial
  | some ⟨[], hlong⟩ =>
    rw [fieldValue] at hvalue
    rw [Plain]
    cases htype : column.roughType with
    | int =>
      rw [htype] at hvalue
      obtain rfl := some.inj hvalue
      exact iff_of_false (fun h => (by cases h.1)) Bool.false_ne_true
    | float =>
      rw [htype] at hvalue
      obtain rfl := some.inj hvalue
      exact iff_of_false (fun h => (by cases h.1)) Bool.false_ne_true
    | str =>
      rw [htype] at hvalue
      obtain rfl := some.inj hvalue
      exact iff_of_true rfl trivial
    | bool =>
      rw [htype] at hvalue
      obtain ⟨b, -, rfl⟩ := map_eq_some_iff.mp hvalue
      have hquotes (b : Bool) : lit "\"\"" ≠ if b then lit "true" else lit "false" := by
        cases b <;> decide
      exact iff_of_false (hquotes b) (not_not_intro rfl)
  | some ⟨c :: data, hlong⟩ =>
    rw [fieldValue] at hvalue
    rw [Plain, jsonValue]
    rw [Fits] at hfits
    cases htype : column.roughType with
    | int =>
      rw [htype] at hvalue hfits
      obtain rfl := some.inj hvalue
      exact ⟨fun h => h.1, fun h => ⟨h, integer_same h hfits⟩⟩
    | float =>
      rw [htype] at hvalue
      obtain rfl := some.inj hvalue
      exact ⟨fun h => h.1, fun h => ⟨h, .inr rfl⟩⟩
    | str =>
      rw [htype] at hvalue
      obtain rfl := some.inj hvalue
      exact iff_of_true rfl trivial
    | bool =>
      rw [htype] at hvalue hfits
      obtain ⟨b, hb, rfl⟩ := map_eq_some_iff.mp hvalue
      refine iff_of_true ?_ (cons_ne_nil c data)
      rw [booleanAt, cons_append, headD_cons] at hb
      cases hfalse : isFalse c with
      | true =>
        rw [if_pos hfalse] at hb
        obtain rfl := some.inj hb
        rfl
      | false =>
        have htrue : isTrue c = true := by simpa [hfalse] using hfits.2
        rw [hfalse, htrue] at hb
        obtain rfl := some.inj hb
        rfl

/-- What has the text of a plain field, or of the same number, is the same in Lua as the field. -/
theorem same_iff_text (hfits : Fits column value) (hplain : Plain column value)
    (hvalue : fieldValue d column value later = some v) (text : Bytes) :
    Same d v text ↔ SameText d text column value := by
  have hsame := (same_iff_plain hfits hvalue).mpr hplain
  constructor
  · intro h
    cases v with
    | null => exact .inl (Eq.trans h (Eq.symm hsame))
    | boolean b => exact .inl (Eq.trans h (Eq.symm hsame))
    | string s => exact .inl (Eq.trans h (Eq.symm hsame))
    | number x => exact .inr ⟨x, fieldNumber_eq.mp hvalue, h⟩
  · rintro (rfl | ⟨x, hx, hnumber⟩)
    · exact hsame
    · obtain rfl := some.inj (hvalue.symm.trans (fieldNumber_eq.mpr hx))
      exact hnumber

/-! ## Rows -/

theorem rowTable_isSome {fields : List (Column × Option Value)} {t : Table} :
    (∃ t', rowTable d fields later t = some t') ↔ FieldsKnown fields later := by
  induction fields generalizing t with
  | nil => exact iff_of_true ⟨t, rfl⟩ trivial
  | cons field fields ih =>
    obtain ⟨column, value⟩ := field
    rw [rowTable, FieldsKnown, ← @fieldValue_isSome d]
    cases fieldValue d column value (flat (fieldsAtoms (fields.map Prod.snd)) ++ later) with
    | none => simp [bind, Option.bind]
    | some v => simpa [bind, Option.bind] using ih

theorem tables_isSome {cols : List Column} {rows : List Row} :
    (∃ ts, tables d cols rows = some ts) ↔ RowsKnown cols rows := by
  induction rows with
  | nil => exact iff_of_true ⟨[], rfl⟩ trivial
  | cons row rows ih =>
    rw [tables, RowsKnown, ← ih, ← @rowTable_isSome d _ _ .empty]
    cases rowTable d (cols.zip row.fields) (flat (rowsAtoms rows)) .empty with
    | none => simp [bind, Option.bind]
    | some t => cases tables d cols rows <;> simp [bind, Option.bind]

variable {fields : List (Column × Option Value)}

/-- The table has the last field of each name. -/
theorem rowTable_get {t t' : Table} (h : rowTable d fields later t = some t')
    (name : Bytes) :
    match lastOf name fields with
    | none => t' name = t name
    | some last => ∃ later' v, fieldValue d last.1 last.2 later' = some v ∧ t' name = some v := by
  induction fields generalizing t with
  | nil =>
    obtain rfl := some.inj h
    rfl
  | cons field fields ih =>
    obtain ⟨column, value⟩ := field
    rw [rowTable] at h
    obtain ⟨v, hv, hrest⟩ := bind_eq_some_iff.mp h
    have hlast := ih hrest
    rw [lastOf]
    cases hlater : lastOf name fields with
    | some last =>
      rw [hlater] at hlast
      exact hlast
    | none =>
      rw [hlater] at hlast
      dsimp only at hlast
      rw [none_or]
      by_cases hname : column.name = name
      · rw [if_pos hname]
        refine ⟨_, v, hv, ?_⟩
        rw [hlast, Table.rawset, if_pos hname.symm]
      · rw [if_neg hname]
        dsimp only
        rw [hlast, Table.rawset, if_neg (Ne.symm hname)]

theorem lastOf_mem {name : Bytes} {last : Column × Option Value}
    (h : lastOf name fields = some last) : last ∈ fields ∧ last.1.name = name := by
  induction fields with
  | nil => cases h
  | cons field fields ih =>
    rw [lastOf] at h
    cases hlater : lastOf name fields with
    | some last' =>
      rw [hlater, some_or] at h
      obtain ⟨hmem, hname⟩ := ih (hlater.trans h)
      exact ⟨mem_cons_of_mem _ hmem, hname⟩
    | none =>
      rw [hlater, none_or] at h
      split_ifs at h with hname
      obtain rfl := some.inj h
      exact ⟨mem_cons_self, hname⟩

theorem lastOf_isSome {field : Column × Option Value} (h : field ∈ fields) :
    ∃ last, lastOf field.1.name fields = some last := by
  induction fields with
  | nil => cases h
  | cons field' fields ih =>
    rw [lastOf]
    rcases mem_cons.mp h with rfl | hmem
    · rw [if_pos rfl]
      cases lastOf field.1.name fields with
      | none => exact ⟨_, rfl⟩
      | some last => exact ⟨_, rfl⟩
    · obtain ⟨last, hlast⟩ := ih hmem
      rw [hlast]
      exact ⟨last, rfl⟩

/-- A row that the filter prints is the same in Lua if its fields are plain. -/
theorem sameRow_iff {cols : List Column} {row : Row} {t : Table}
    (hfits : ∀ field ∈ cols.zip row.fields, Fits field.1 field.2)
    (h : rowTable d (cols.zip row.fields) later .empty = some t) :
    SameRow d cols t row ↔ Plainly d (cols.zip row.fields) := by
  have hget {field last : Column × Option Value} (hlast : lastOf field.1.name (cols.zip row.fields) = some last) :
      ∃ later' v, fieldValue d last.1 last.2 later' = some v ∧ t field.1.name = some v := by
    have hrow := rowTable_get h field.1.name
    rw [hlast] at hrow
    exact hrow
  constructor
  · intro hsame field hfield
    obtain ⟨last, hlast⟩ := lastOf_isSome hfield
    obtain ⟨hmem, hname⟩ := lastOf_mem hlast
    obtain ⟨later', v, hvalue, ht⟩ := hget hlast
    obtain ⟨v₁, hv₁, hsame₁⟩ := hsame last hmem
    obtain ⟨v₂, hv₂, hsame₂⟩ := hsame field hfield
    rw [hname] at hv₁
    obtain rfl := some.inj (ht.symm.trans hv₁)
    obtain rfl := some.inj (ht.symm.trans hv₂)
    have hplain := (same_iff_plain (hfits last hmem) hvalue).mp hsame₁
    exact ⟨last, hlast, hplain, (same_iff_text (hfits last hmem) hplain hvalue _).mp hsame₂⟩
  · intro hplainly field hfield
    obtain ⟨last, hlast, hplain, htext⟩ := hplainly field hfield
    obtain ⟨later', v, hvalue, ht⟩ := hget hlast
    exact ⟨v, ht, (same_iff_text (hfits last (lastOf_mem hlast).1) hplain hvalue _).mpr htext⟩

theorem sameRows_iff {cols : List Column} {rows : List Row} {ts : List Table} (hfits : RowsFit cols rows)
    (h : tables d cols rows = some ts) :
    Forall₂ (SameRow d cols) ts rows ↔ ∀ row ∈ rows, Plainly d (cols.zip row.fields) := by
  induction rows generalizing ts with
  | nil =>
    obtain rfl := some.inj h
    exact iff_of_true .nil (forall_mem_nil _)
  | cons row rows ih =>
    rw [tables] at h
    obtain ⟨t, ht, hrest⟩ := bind_eq_some_iff.mp h
    obtain ⟨ts', hts, hcons⟩ := bind_eq_some_iff.mp hrest
    obtain rfl := some.inj hcons
    rw [forall₂_cons, forall_mem_cons, sameRow_iff (hfits row mem_cons_self) ht,
      ih (fun r hr => hfits r (mem_cons_of_mem _ hr)) hts]

/-! ## The whole stream -/

variable {conf : Conf} {head : Head} {data : Bytes} {rows : List Row}

theorem parse_rowsOf (d : Doubles) (hnamed : ¬ ∃ col ∈ head.cols, col.name = []) (hcols : head.cols ≠ [])
    (h : RowsOf head.cols data rows) :
    match tables d head.cols rows with
    | none => ∃ e, rds_parse d (head.bytes ++ data) = .error e
    | some ts => rds_parse d (head.bytes ++ data) = .ok { headerTable d head.header with resultset := some ts } := by
  obtain ⟨b, hb, hparse⟩ := parse_named d hnamed data
  rw [if_neg hcols] at hparse
  have hrows := @parse_rows_eq d _ _ h.length_fields b (hb.trans h.data_eq) 0
  rw [hparse]
  cases htables : tables d head.cols rows with
  | none =>
    rw [htables] at hrows
    obtain ⟨e, he⟩ := hrows
    rw [he]
    exact ⟨e, rfl⟩
  | some ts =>
    rw [htables] at hrows
    dsimp only at hrows ⊢
    rw [hrows]
    rfl

theorem parsed_rows {result : Result} (hnamed : ¬ ∃ col ∈ head.cols, col.name = []) (hcols : head.cols ≠ [])
    (h : rds_parse d (head.bytes ++ data) = .ok result) : ∃ rows, RowsOf head.cols data rows := by
  obtain ⟨b, hb, hparse⟩ := parse_named d hnamed data
  rw [if_neg hcols] at hparse
  cases hrows : parseRows d head.cols 0 b with
  | error e =>
    rw [hparse, hrows] at h
    cases h
  | ok ts =>
    rw [← hb]
    exact unread_rows (parse_rows_front hrows)

theorem accepted_rowsOf (conf : Conf) (hnamed : ¬ ∃ col ∈ head.cols, col.name = []) (hcols : head.cols ≠ [])
    (h : RowsOf head.cols data rows) :
    ((∃ ctx, Accepted conf (head.bytes ++ data) ctx) ↔ Printable conf head rows) ∧
      ∀ ctx, Accepted conf (head.bytes ++ data) ctx →
        ctx.out.sent = (head.withRows rows h.length_fields fun hnil => absurd hnil hcols).json conf := by
  have hspec := accepted_spec conf (head.withRows rows h.length_fields fun hnil => absurd hnil hcols)
  rw [withRows_atoms hcols, flat_atoms, ← h.data_eq] at hspec
  have hvalid : (head.withRows rows h.length_fields fun hnil => absurd hnil hcols).Valid ↔ RowsFit head.cols rows :=
    and_iff_right fun col hcol hname => hnamed ⟨col, hcol, hname⟩
  rw [Printable, ← h.data_eq, ← hvalid]
  rcases hspec with ⟨hgood, haccepted, hsent⟩ | ⟨hbad, hnot⟩
  · exact ⟨iff_of_true haccepted hgood, hsent⟩
  · exact ⟨iff_of_false (fun ⟨ctx, h⟩ => hnot ctx h) hbad, fun ctx h => absurd h (hnot ctx)⟩

/-- A stream with a column without a name is not taken. -/
theorem unnamed_agree (d : Doubles) (conf : Conf) (h : ∃ col ∈ head.cols, col.name = []) (data : Bytes) :
    Agree d conf head data := by
  obtain ⟨e, he⟩ := parse_unnamed d h data
  have hcols : head.cols ≠ [] := by
    rintro hnil
    obtain ⟨col, hcol, -⟩ := h
    rw [hnil] at hcol
    cases hcol
  have hnot (ctx : Filter.RdsJson.Ctx) : ¬ Accepted conf (head.bytes ++ data) ctx := by
    intro haccepted
    obtain ⟨rows, hrows⟩ := accepted_rows hcols haccepted
    have hspec := accepted_spec conf (head.withRows rows hrows.length_fields fun hnil => absurd hnil hcols)
    rw [withRows_atoms hcols, flat_atoms, ← hrows.data_eq] at hspec
    rcases hspec with ⟨⟨-, hvalid, -⟩, -⟩ | ⟨-, hnot⟩
    · obtain ⟨col, hcol, hname⟩ := h
      exact hvalid.1 col hcol hname
    · exact hnot ctx haccepted
  refine ⟨iff_of_false ?_ fun ⟨ctx, h⟩ => hnot ctx h, fun result ctx _ h => absurd h (hnot ctx)⟩
  rintro ⟨result, hresult⟩
  cases he.symm.trans hresult

/-- Without columns the parser does not look at what follows the header. -/
theorem header_agree_iff (d : Doubles) (conf : Conf) (hcols : head.cols = []) (data : Bytes) :
    Agree d conf head data ↔ data = [] ∧ 0 < conf.buf_size := by
  have hnamed : ¬ ∃ col ∈ head.cols, col.name = [] := by
    rw [hcols]
    simp
  obtain ⟨b, -, hparse⟩ := parse_named d hnamed data
  rw [if_pos hcols] at hparse
  have hatoms : (head.withRows [] (forall_mem_nil _) fun _ => rfl).atoms =
    [⟨headerBytes head.header, false⟩] := by
    show ⟨headerBytes head.header, false⟩ :: (colsAtoms head.cols ++ if head.cols = [] then [] else rowsAtoms []) = _
    rw [if_pos hcols, hcols]
    rfl
  have hflat : flat [⟨headerBytes head.header, false⟩] = head.bytes ++ [] := by
    rw [Head.bytes, hcols, flat]
    simp
  have hjson : (head.withRows [] (forall_mem_nil _) fun _ => rfl).json conf = jsonHeader conf head.header := by
    rw [ResultSet.json]
    exact if_pos hcols
  have hvalid : (head.withRows [] (forall_mem_nil _) fun _ => rfl).Valid := by
    refine ⟨?_, forall_mem_nil _⟩
    show ∀ col ∈ head.cols, col.name ≠ []
    rw [hcols]
    exact forall_mem_nil _
  have hwraps (bufs : List Bytes) : ¬ Wraps [⟨headerBytes head.header, false⟩] bufs := not_wraps (by simp) bufs
  have hspec := accepted_spec conf (head.withRows [] (forall_mem_nil _) fun _ => rfl)
  rw [hatoms, hflat, hjson] at hspec
  constructor
  · rintro ⟨hiff, -⟩
    obtain ⟨ctx, haccepted⟩ := hiff.mp ⟨_, hparse⟩
    obtain rfl := accepted_end hcols haccepted
    rcases hspec with ⟨⟨hsize, -⟩, -⟩ | ⟨-, hnot⟩
    · exact ⟨rfl, hsize⟩
    · exact absurd haccepted (hnot ctx)
  · rintro ⟨rfl, hsize⟩
    rcases hspec with ⟨-, haccepted, hsent⟩ | ⟨hbad, -⟩
    · refine ⟨iff_of_true ⟨_, hparse⟩ haccepted, fun result ctx h hctx => ?_⟩
      obtain rfl := Except.ok.inj (hparse.symm.trans h)
      exact hsent ctx hctx
    · exact absurd ⟨hsize, hvalid, hwraps _⟩ hbad

/-- Of whole rows, the tables agree with the JSON if the fields are plain. -/
theorem rows_agree_iff (d : Doubles) (conf : Conf) (hnamed : ¬ ∃ col ∈ head.cols, col.name = [])
    (hcols : head.cols ≠ [])
    (h : RowsOf head.cols data rows) :
    Agree d conf head data ↔
      (RowsKnown head.cols rows ↔ Printable conf head rows) ∧
        (RowsKnown head.cols rows → ∀ row ∈ rows, Plainly d (head.cols.zip row.fields)) := by
  have hparse := parse_rowsOf d hnamed hcols h
  obtain ⟨haccepted, hsent⟩ := accepted_rowsOf conf hnamed hcols h
  have hknown := @tables_isSome d head.cols rows
  rw [Agree, haccepted]
  cases htables : tables d head.cols rows with
  | none =>
    rw [htables] at hparse hknown
    obtain ⟨e, he⟩ := hparse
    have hunknown : ¬ RowsKnown head.cols rows := fun hrows => by cases (hknown.mpr hrows).choose_spec
    have hrefused (result : Result) : rds_parse d (head.bytes ++ data) ≠ .ok result := by
      rw [he]
      exact nofun
    have hparsed : (∃ result, rds_parse d (head.bytes ++ data) = .ok result) ↔ RowsKnown head.cols rows :=
      iff_of_false (fun ⟨result, hresult⟩ => hrefused result hresult) hunknown
    rw [hparsed]
    exact and_congr_right fun _ =>
      iff_of_true (fun result ctx hresult => absurd hresult (hrefused result)) fun hrows => absurd hrows hunknown
  | some ts =>
    rw [htables] at hparse hknown
    dsimp only at hparse
    have hrows : RowsKnown head.cols rows := hknown.mp ⟨ts, rfl⟩
    have hparsed : (∃ result, rds_parse d (head.bytes ++ data) = .ok result) ↔ RowsKnown head.cols rows :=
      iff_of_true ⟨_, hparse⟩ hrows
    rw [hparsed]
    refine and_congr_right fun hiff => ?_
    have hprintable := hiff.mp hrows
    obtain ⟨ctx, hctx⟩ := haccepted.mpr hprintable
    have hsame := sameRows_iff hprintable.2.1 htables
    constructor
    · intro hagree _
      obtain ⟨rows', hrows', -, -, hforall⟩ := hagree _ ctx hparse hctx
      obtain rfl := h.unique hrows'
      exact hsame.mp hforall
    · intro hplain result ctx' hresult hctx'
      obtain rfl := Except.ok.inj (hparse.symm.trans hresult)
      exact ⟨rows, h, hcols, hsent ctx' hctx', hsame.mpr (hplain hrows)⟩

/-- **The parser and the filter take the same streams, and make the same rows of them, exactly where the
row data is `Agreeable`.** -/
theorem parser_and_json_agree_iff (d : Doubles) (conf : Conf) (head : Head) (data : Bytes) :
    Agree d conf head data ↔ Agreeable d conf head data := by
  by_cases hnamed : ∃ col ∈ head.cols, col.name = []
  · exact iff_of_true (unnamed_agree d conf hnamed data) (.inl hnamed)
  rw [Agreeable, or_iff_right hnamed]
  by_cases hcols : head.cols = []
  · rw [header_agree_iff d conf hcols data]
    simp [hcols]
  by_cases hwhole : ∃ rows, RowsOf head.cols data rows
  · obtain ⟨rows, h⟩ := hwhole
    rw [rows_agree_iff d conf hnamed hcols h, or_iff_right fun h => hcols h.1]
    constructor
    · intro hrows
      refine ⟨hcols, fun rows' h' => ?_⟩
      obtain rfl := h.unique h'
      exact hrows
    · rintro ⟨-, hrows⟩
      exact hrows rows h
  · -- neither takes rows that are not whole
    have hparsed (result : Result) : rds_parse d (head.bytes ++ data) ≠ .ok result :=
      fun h => hwhole (parsed_rows hnamed hcols h)
    have haccepted (ctx : Filter.RdsJson.Ctx) : ¬ Accepted conf (head.bytes ++ data) ctx :=
      fun h => hwhole (accepted_rows hcols h)
    refine iff_of_true ⟨iff_of_false ?_ ?_, fun result ctx h => absurd h (hparsed result)⟩
      (.inr ⟨hcols, fun rows h => absurd ⟨rows, h⟩ hwhole⟩)
    · rintro ⟨result, h⟩
      exact hparsed result h
    · rintro ⟨ctx, h⟩
      exact haccepted ctx h

/-- A column `b` of booleans. -/
def boolColumn : Column := { std_type := 0xc004, drv_type := 0, name := lit "b" }

theorem boolCodes_lt : 0 < 2 ^ 16 ∧ 0 < 2 ^ 16 ∧ ([] : Bytes).length < 2 ^ 16 := by decide

theorem boolCounts_lt : 0 < 2 ^ 64 ∧ 0 < 2 ^ 64 ∧ 1 < 2 ^ 16 := by decide

theorem boolCount_eq : 1 = [boolColumn].length := rfl

def boolHead : Head where
  header := { std_errcode := 0, drv_errcode := 0, errstr := [], affected_rows := 0, insert_id := 0, col_count := 1 }
  cols := [boolColumn]
  codes_lt := boolCodes_lt
  counts_lt := boolCounts_lt
  col_count_eq := boolCount_eq
  cols_lt := by decide

theorem one_ne : (1 : UInt8) ≠ 0 := by decide

theorem empty_lt : ([] : Bytes).length < 2 ^ 32 - 1 := by decide

/-- A row with an empty boolean. -/
def emptyBool : Row := { flag := ⟨1, one_ne⟩, fields := [some ⟨[], empty_lt⟩] }

/-- Doubles of which nothing is needed. -/
def noDoubles : Doubles where
  scan _ := .double 0
  toInteger _ := 0
  ofInteger _ := .double 0

/-- An empty boolean is printed, but the parser looks for it in the end of the rows. -/
theorem parser_and_json_disagree : ¬ Agree noDoubles Filter.RdsJson.plain boolHead [1, 0, 0, 0, 0, 0] := by
  have hrows : RowsOf boolHead.cols [1, 0, 0, 0, 0, 0] [emptyBool] := ⟨by decide, by decide⟩
  rw [rows_agree_iff _ _ (by decide) (by decide) hrows]
  rintro ⟨hiff, -⟩
  have hprintable : Printable Filter.RdsJson.plain boolHead [emptyBool] := by
    refine ⟨by decide, ?_, ?_⟩
    · intro row hrow field hfield
      obtain rfl := mem_singleton.mp hrow
      obtain rfl := mem_singleton.mp hfield
      trivial
    · exact not_wraps (by decide) _
  obtain ⟨⟨hknown, -⟩, -⟩ := hiff.mpr hprintable
  exact absurd (hknown (by decide)) (by decide)

end OpenResty.Resty.RdsParser
