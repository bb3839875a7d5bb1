/-
What a function of the RDS-JSON processor does with the front of a stream: it takes it
from the buffers, writes its part of the JSON, and leaves the rest for the next function.
-/
import OpenResty.Filter.RdsJsonOutput

namespace OpenResty.Filter.RdsJson

open List Prod

open Lib (toBytes length_toBytes fromBytes fromBytes_toBytes)

variable {conf : Conf} {res : ResultSet}

/-! ## Numbers, headers and columns -/

theorem word_toBytes {n v : Nat} (hv : v < 256 ^ n) (t : Bytes) : word n (toBytes n v ++ t) = (v, t) := by
  have hlen := length_toBytes n v
  rw [word, take_left' hlen, drop_left' hlen, fromBytes_toBytes, Nat.mod_eq_of_lt hv]

theorem parse_header_eq (res : ResultSet) (t : Bytes) :
    ngx_http_rds_parse_header (headerBytes res.header ++ t) = .ok (res.header, t) := by
  obtain ⟨hstd, hdrv, herrstr⟩ := res.codes_lt
  obtain ⟨haffected, hinsert, hcols⟩ := res.counts_lt
  simp only [headerBytes, append_assoc]
  rw [ngx_http_rds_parse_header, if_neg]
  · rw [word_toBytes (by decide)]
    dsimp only
    rw [word_toBytes (by decide)]
    dsimp only
    rw [word_toBytes (by decide)]
    dsimp only
    rw [if_neg (by decide), word_toBytes hstd]
    dsimp only
    rw [word_toBytes hdrv]
    dsimp only
    rw [word_toBytes herrstr]
    dsimp only
    rw [if_neg, take_left, drop_left, word_toBytes haffected]
    · dsimp only
      rw [word_toBytes hinsert]
      dsimp only
      rw [word_toBytes hcols]
    · simp only [length_append, length_toBytes]
      omega
  · simp only [length_append, length_toBytes]
    omega

theorem parse_col_eq {col : Column} (h : col.std_type < 2 ^ 16 ∧ col.drv_type < 2 ^ 16 ∧ col.name.length < 2 ^ 16)
    (t : Bytes) : ngx_http_rds_parse_col (columnBytes col ++ t) = if col.name = [] then .error .error else .ok (col, t) := by
  obtain ⟨hstd, hdrv, hname⟩ := h
  simp only [columnBytes, append_assoc]
  rw [ngx_http_rds_parse_col, if_neg]
  · rw [word_toBytes hstd]
    dsimp only
    rw [word_toBytes hdrv]
    dsimp only
    rw [word_toBytes hname]
    dsimp only
    by_cases hempty : col.name = []
    · rw [if_pos hempty, if_pos (.inl (by rw [hempty]; rfl))]
    · rw [if_neg hempty, if_neg, take_left, drop_left]
      rw [length_append]
      have := length_pos_iff.mpr hempty
      omega
  · simp only [length_append, length_toBytes]
    omega

/-! ## What is left of a stream -/

/-- What a function of the processor expects: fields with their columns, in the row `n` from column `j` on. -/
inductive Rest
  | header
  | cols (cs : List Column)
  | rows (n : Nat) (rs : List Row)
  | fields (n j : Nat) (fs : List (Column × Option Value)) (rs : List Row)
  | more (n j : Nat) (col : Column) (data : Bytes) (fs : List (Column × Option Value)) (rs : List Row)
  | done

def Rest.atoms (res : ResultSet) : Rest → List Atom
  | .header => res.atoms
  | .cols cs => colsAtoms cs ++ rowsAtoms res.rows
  | .rows _ rs => rowsAtoms rs
  | .fields _ _ fs rs => fieldsAtoms (fs.map snd) ++ rowsAtoms rs
  | .more _ _ _ data fs rs => dataAtoms data ++ (fieldsAtoms (fs.map snd) ++ rowsAtoms rs)
  | .done => []

def fieldsText (conf : Conf) (n : Nat) : Nat → List (Column × Option Value) → Bytes
  | _, [] => rowEnd conf
  | j, (col, value) :: fs => opening conf n j col ++ jsonValue col value ++ fieldsText conf n (j + 1) fs

def endText (conf : Conf) : Bytes := if conf.root ≠ [] then lit "]\x7d" else lit "]"

/-- The rows behind the `n`-th. -/
def rowsText (conf : Conf) (cols : List Column) : Nat → List Row → Bytes
  | _, [] => endText conf
  | n, row :: rs => fieldsText conf (n + 1) 0 (cols.zip row.fields) ++ rowsText conf cols (n + 1) rs

/-- The end of a value. -/
def moreJson (col : Column) (data : Bytes) : Bytes :=
  match col.roughType with
  | .int | .float => data
  | .bool => []
  | .str => escape_json_str data ++ lit "\""

/-- The JSON that is still to be written. -/
def Rest.text (conf : Conf) (res : ResultSet) : Rest → Bytes
  | .header | .cols _ => res.json conf
  | .rows n rs => rowsText conf res.cols n rs
  | .fields n j fs rs => fieldsText conf n j fs ++ rowsText conf res.cols n rs
  | .more n j col data fs rs => moreJson col data ++ (fieldsText conf n (j + 1) fs ++ rowsText conf res.cols n rs)
  | .done => []

def RowsFit (cols : List Column) (rs : List Row) : Prop :=
  ∀ row ∈ rs, ∀ field ∈ cols.zip row.fields, Fits field.1 field.2

def Rest.Valid (res : ResultSet) : Rest → Prop
  | .header => res.Valid
  | .cols cs => (∀ col ∈ cs, col.name ≠ []) ∧ RowsFit res.cols res.rows
  | .rows _ rs => RowsFit res.cols rs
  | .fields _ _ fs rs => (∀ field ∈ fs, Fits field.1 field.2) ∧ RowsFit res.cols rs
  | .more _ _ col data fs rs => goesOn col data = true ∧ (∀ field ∈ fs, Fits field.1 field.2) ∧ RowsFit res.cols rs
  | .done => True

/-- The columns, their number and the row of a context in the `n`-th row. -/
structure InRows (res : ResultSet) (cols : List Column) (col_count row n : Nat) (rs : List Row) : Prop where
  cols_eq : cols = res.cols
  count_eq : col_count = res.cols.length
  row_eq : row = n
  length_fields : ∀ row ∈ rs, row.fields.length = res.cols.length
  cols_ne : res.cols ≠ []

/-- The context in which the rest is expected. -/
def Rest.At (res : ResultSet) (ctx : Ctx) : Rest → Prop
  | .header => ctx.state = .expect_header
  | .cols cs =>
    ctx.state = .expect_col ∧ cs ≠ [] ∧ ctx.cols ++ cs = res.cols ∧ ctx.cur_col = ctx.cols.length ∧
      ctx.col_count = res.cols.length
  | .rows n rs => ctx.state = .expect_row ∧ InRows res ctx.cols ctx.col_count ctx.row n rs
  | .fields n j fs rs =>
    ctx.state = .expect_field ∧ InRows res ctx.cols ctx.col_count ctx.row n rs ∧ ctx.cur_col = j ∧ fs ≠ [] ∧
      fs.map fst = res.cols.drop j
  | .more n j col data fs rs =>
    ctx.state = .expect_more_field_data ∧ InRows res ctx.cols ctx.col_count ctx.row n rs ∧ ctx.cur_col = j ∧
      col :: fs.map fst = res.cols.drop j ∧ data ≠ [] ∧ ctx.field_data_rest = data.length ∧ col.roughType ≠ .bool
  | .done => ctx.state = .done

/-! ## The JSON as it is written -/

/-- What is in front of the rows. -/
def beginText (conf : Conf) (cols : List Column) : Bytes :=
  (if conf.root ≠ [] then jsonProps conf else []) ++ (lit "[" ++ match conf.format with
    | .compact => jsonNames cols
    | .normal => [])

theorem fieldsText_eq (n : Nat) (fields : List (Column × Option Value)) (j : Nat) :
    fieldsText conf n (j + 1) fields = fields.flatMap (fun field => lit "," ++ jsonField conf field) ++ rowEnd conf := by
  induction fields generalizing j with
  | nil => rfl
  | cons field fields ih =>
    obtain ⟨col, value⟩ := field
    rw [fieldsText, ih, flatMap_cons]
    have hfield : opening conf n (j + 1) col ++ jsonValue col value = lit "," ++ jsonField conf (col, value) := by
      rw [opening, jsonField]
      cases conf.format <;> simp
    rw [hfield]
    simp

/-- A row, with a comma in front of it unless it is the first item. -/
theorem rowText_eq {cols : List Column} {row : Row} (hcols : cols ≠ []) (hlength : row.fields.length = cols.length) (n : Nat) :
    fieldsText conf (n + 1) 0 (cols.zip row.fields) =
      (match conf.format, n with
        | .normal, 0 => []
        | _, _ => lit ",") ++ jsonRow conf cols row := by
  obtain ⟨col, cols, rfl⟩ := exists_cons_of_ne_nil hcols
  obtain ⟨value, values, hvalues⟩ : ∃ value values, row.fields = value :: values :=
    exists_cons_of_length_eq_add_one hlength
  rw [jsonRow, hvalues, zip_cons_cons, fieldsText, fieldsText_eq, map_cons, intercalate_cons, flatMap_map, opening,
    jsonField, rowEnd]
  cases conf.format with
  | normal =>
    cases n with
    | zero => simp [lit]
    | succ n => simp [lit]
  | compact => simp [lit]

theorem rowsText_succ {cols : List Column} (hcols : cols ≠ []) {rs : List Row}
    (hlength : ∀ row ∈ rs, row.fields.length = cols.length) (n : Nat) :
    rowsText conf cols (n + 1) rs = rs.flatMap (fun row => lit "," ++ jsonRow conf cols row) ++ endText conf := by
  induction rs generalizing n with
  | nil => rfl
  | cons row rs ih =>
    rw [rowsText, rowText_eq hcols (hlength row mem_cons_self), ih fun r hr => hlength r (mem_cons_of_mem _ hr)]
    cases conf.format <;> simp

/-- The JSON of a result set is what is in front of its rows, and the rows. -/
theorem json_eq (hcols : res.cols ≠ []) :
    res.json conf = beginText conf res.cols ++ rowsText conf res.cols 0 res.rows := by
  have hrows : beginText conf res.cols ++ rowsText conf res.cols 0 res.rows =
      (if conf.root ≠ [] then jsonProps conf else []) ++ jsonRows conf res.cols res.rows ++
        if conf.root ≠ [] then lit "\x7d" else [] := by
    have hend : endText conf = lit "]" ++ if conf.root ≠ [] then lit "\x7d" else [] := by
      rw [endText]
      split
      · rfl
      · rw [append_nil]
    rw [beginText, jsonRows, ← jsonNames]
    cases hres : res.rows with
    | nil =>
      rw [rowsText, hend]
      cases conf.format <;> simp
    | cons row rs =>
      have hlength := res.length_fields
      rw [hres] at hlength
      rw [rowsText, rowText_eq hcols (hlength row mem_cons_self),
        rowsText_succ hcols fun r hr => hlength r (mem_cons_of_mem _ hr), hend]
      cases conf.format <;> simp [intercalate_cons, flatMap_map]
  rw [hrows, ResultSet.json, if_neg hcols]
  split_ifs <;> simp

/-! ## The buffers that come in -/

/-- The bytes of the buffers of a chain. -/
def datas (chain : List Buf) : List Bytes := chain.map Buf.data

def InMemory (chain : List Buf) : Prop := ∀ b ∈ chain, b.memory = true

theorem datas_onward (b : Buf) (t : Bytes) (chain : List Buf) : datas (onward b t chain) = put t (datas chain) := by
  rw [onward, put]
  split <;> rfl

variable {b : Buf} {chain : List Buf}

theorem InMemory.onward (h : InMemory (b :: chain)) (t : Bytes) : InMemory (onward b t chain) := by
  rw [RdsJson.onward]
  split
  · exact fun b' hb' => h b' (mem_cons_of_mem _ hb')
  · intro b' hb'
    rcases mem_cons.mp hb' with rfl | hb'
    · exact h b mem_cons_self
    · exact h b' (mem_cons_of_mem _ hb')

variable {data data' t : Bytes}

theorem steps_onward (h : t.length < b.data.length) : steps (onward b t chain) < steps (b :: chain) := by
  rw [onward]
  split
  · simp only [steps, map_cons, sum_cons]
    omega
  · simp only [steps, map_cons, sum_cons]
    omega

theorem nextBuf_memory (h : InMemory (b :: chain)) : nextBuf (b :: chain) = .ok (some (b, chain)) := by
  rw [nextBuf.eq_def]
  exact if_pos (h b mem_cons_self)

/-! ## One function -/

variable {later : List Bytes} {ctx ctx' : Ctx} {rest rest' : Rest}

/-- A function has taken its part of the stream and written its part of the JSON. `later` are the
buffers of the calls to come. -/
structure Goes (conf : Conf) (res : ResultSet) (later : List Bytes) (ctx : Ctx) (bufs : List Bytes) (rest : Rest)
    (ctx' : Ctx) (bufs' : List Bytes) (rest' : Rest) : Prop where
  isAt : rest'.At res ctx'
  text : ctx'.out.bytes ++ rest'.text conf res = ctx.out.bytes ++ rest.text conf res
  ended : rest' = .done → ctx'.out.seen_stream_end = true
  valid : rest.Valid res ↔ rest'.Valid res
  cut : Cut (rest'.atoms res) (bufs' ++ later)
  wraps : Wraps (rest.atoms res) (bufs ++ later) ↔ Wraps (rest'.atoms res) (bufs' ++ later)

/-- How a function may end. -/
inductive Outcome (conf : Conf) (res : ResultSet) (later : List Bytes) (ctx : Ctx) (chain : List Buf) (rest : Rest) :
    Except Failure (Ctx × Option (List Buf)) → Prop
  | on {ctx' : Ctx} {chain' : List Buf} (rest' : Rest)
      (hgoes : Goes conf res later ctx (datas chain) rest ctx' (datas chain') rest') (hmem : InMemory chain')
      (hless : steps chain' < steps chain) : Outcome conf res later ctx chain rest (.ok (ctx', some chain'))
  | stop {ctx' : Ctx} (hgoes : Goes conf res later ctx (datas chain) rest ctx' [] .done) :
      Outcome conf res later ctx chain rest (.ok (ctx', none))
  | refused (h : ¬ rest.Valid res ∨ Wraps (rest.atoms res) (datas chain ++ later)) :
      Outcome conf res later ctx chain rest (.error .error)

/-- The first atom is at the front of the first buffer. -/
theorem front {a : Atom} {as : List Atom} (ha : a.bytes ≠ [])
    (h : Cut (a :: as) (datas (b :: chain) ++ later)) :
    ∃ t, b.data = a.bytes ++ t ∧ Cut as (put t (datas chain) ++ later) := by
  obtain ⟨t, bufs, hbufs, hrest⟩ := cut_cons ha h
  obtain ⟨hdata, rfl⟩ := List.cons.inj hbufs
  exact ⟨t, hdata, by rwa [put_append]⟩

theorem wraps_front (later : List Bytes) (chain : List Buf) (as : List Atom) {a : Atom} (hdata : b.data = a.bytes ++ t)
    (ha : a.opens = false) :
    Wraps (a :: as) (datas (b :: chain) ++ later) ↔ Wraps as (put t (datas chain) ++ later) := by
  rw [put_append, ← wraps_closed ha, ← hdata]
  rfl

/-- Nothing is left behind the last atom. -/
theorem cut_nil (h : Cut [] (put t (datas chain) ++ later)) : t = [] ∧ chain = [] ∧ later = [] := by
  obtain ⟨hput, hlater⟩ := append_eq_nil_iff.mp h
  rw [put] at hput
  split at hput
  · next ht => exact ⟨ht, map_eq_nil_iff.mp hput, hlater⟩
  · cases hput

theorem headerBytes_ne (header : Header) : headerBytes header ≠ [] := by
  intro h
  have hlength := congrArg List.length h
  simp only [headerBytes, length_append, length_toBytes, length_nil] at hlength
  omega

theorem columnBytes_ne (col : Column) : columnBytes col ≠ [] := by
  intro h
  have hlength := congrArg List.length h
  simp only [columnBytes, length_append, length_toBytes, length_nil] at hlength
  omega

theorem length_lt_of_ne {a : Bytes} (ha : a ≠ []) (hdata : b.data = a ++ t) : t.length < b.data.length := by
  rw [hdata, length_append]
  have := length_pos_iff.mpr ha
  omega

theorem process_header_eq {b : Buf} {chain : List Buf} (hmem : InMemory (b :: chain)) {t : Bytes}
    (hdata : b.data = headerBytes res.header ++ t) :
    process_header conf ctx (b :: chain) =
      if res.header.col_count = 0 then
        if t ≠ [] then .error .error
        else output_header conf { ctx with state := .done } res.header >>= fun ctx => .ok (ctx, none)
      else
        .ok ({ ctx with cols := [], state := .expect_col, cur_col := 0, col_count := res.header.col_count },
          some (onward b t chain)) := by
  rw [process_header, nextBuf_memory hmem]
  simp only [bind, Except.bind, pure, Except.pure, hdata, parse_header_eq]

theorem process_header_spec (hsize : 0 < conf.buf_size) (hmem : InMemory (b :: chain))
    (hcut : Cut res.atoms (datas (b :: chain) ++ later)) :
    Outcome conf res later ctx (b :: chain) .header (process_header conf ctx (b :: chain)) := by
  obtain ⟨t, hdata, hrest⟩ := front (headerBytes_ne res.header) hcut
  have hwraps := wraps_front later chain (colsAtoms res.cols ++ if res.cols = [] then [] else rowsAtoms res.rows) hdata rfl
  rw [process_header_eq hmem hdata]
  by_cases hcols : res.cols = []
  · -- the header is all of the stream, and is written itself
    have hcount : res.header.col_count = 0 := by rw [res.col_count_eq, hcols]; rfl
    have hatoms : (colsAtoms res.cols ++ if res.cols = [] then [] else rowsAtoms res.rows) = [] := by
      rw [if_pos hcols, hcols]
      rfl
    rw [hatoms] at hrest hwraps
    obtain ⟨rfl, rfl, rfl⟩ := cut_nil hrest
    obtain ⟨out, hwrite, hwrote⟩ := write_spec hsize
      { ctx with state := State.done, out := { ctx.out with seen_stream_end := true } } (jsonHeader conf res.header)
    rw [if_pos hcount, if_neg (not_not_intro rfl), output_header_eq, hwrite]
    refine .stop ⟨rfl, ?_, fun _ => hwrote.end_eq, ?_, rfl, ?_⟩
    · rw [Rest.text, Rest.text, ResultSet.json, if_pos hcols, append_nil]
      exact hwrote.bytes_eq
    · have hrows := res.rows_nil hcols
      simp [Rest.Valid, ResultSet.Valid, hcols, hrows]
    · rw [Rest.atoms, ResultSet.atoms, hatoms]
      exact hwraps
  · have hcount : res.header.col_count ≠ 0 := by
      rw [res.col_count_eq]
      exact fun h => hcols (length_eq_zero_iff.mp h)
    rw [if_neg hcols] at hrest hwraps
    rw [if_neg hcount]
    refine .on (.cols res.cols) ⟨⟨rfl, hcols, rfl, rfl, res.col_count_eq⟩, rfl, nofun, Iff.rfl, ?_, ?_⟩
      (hmem.onward t) (steps_onward (length_lt_of_ne (headerBytes_ne _) hdata))
    · rwa [datas_onward]
    · rw [Rest.atoms, ResultSet.atoms, if_neg hcols, datas_onward]
      exact hwraps

theorem outputBegin_spec (hsize : 0 < conf.buf_size) (ctx : Ctx) :
    ∃ out, outputBegin conf ctx = .ok { ctx with out } ∧ Wrote ctx.out (beginText conf ctx.cols) out := by
  have hliteral (ctx : Ctx) : output_literal conf ctx (lit "[") false = write conf ctx (lit "[") := by
    rw [output_literal, Bool.or_false]
  obtain ⟨out₁, hprops, hwrote₁⟩ : ∃ out, (if conf.root ≠ [] then output_props conf ctx else .ok ctx) = .ok { ctx with out } ∧
      Wrote ctx.out (if conf.root ≠ [] then jsonProps conf else []) out := by
    split
    · rw [output_props_eq]
      exact write_spec hsize ctx _
    · exact ⟨ctx.out, rfl, (append_nil _).symm, rfl, rfl⟩
  obtain ⟨out₂, hbracket, hwrote₂⟩ := write_spec hsize { ctx with out := out₁ } (lit "[")
  have hwrote := hwrote₁.trans hwrote₂
  have hbind : outputBegin conf ctx =
      (if conf.root ≠ [] then output_props conf ctx else .ok ctx) >>= fun ctx => write conf ctx (lit "[") >>= fun ctx =>
        match conf.format with
        | .compact => output_cols conf ctx
        | .normal => .ok ctx := by
    rw [outputBegin]
    simp only [hliteral]
    split <;> cases conf.format <;> rfl
  have hfirst : outputBegin conf ctx =
      match conf.format with
      | .compact => output_cols conf { ctx with out := out₂ }
      | .normal => .ok { ctx with out := out₂ } := by
    rw [hbind, hprops]
    simp only [bind, Except.bind, hbracket]
  rw [hfirst, beginText]
  cases conf.format with
  | normal => exact ⟨out₂, rfl, by simpa using hwrote⟩
  | compact =>
    obtain ⟨out₃, hcols, hwrote₃⟩ := write_spec hsize { ctx with out := out₂ } (jsonNames ctx.cols)
    rw [output_cols_eq]
    exact ⟨out₃, hcols, by simpa using hwrote.trans hwrote₃⟩

/-- A column specification is read, unless it is without a name. -/
theorem process_col_eq (hmem : InMemory (b :: chain)) {col : Column}
    (hcol : col.std_type < 2 ^ 16 ∧ col.drv_type < 2 ^ 16 ∧ col.name.length < 2 ^ 16) (hdata : b.data = columnBytes col ++ t) :
    process_col conf ctx (b :: chain) =
      if col.name = [] then .error .error
      else if ctx.cur_col + 1 ≥ ctx.col_count then
        outputBegin conf { ctx with cols := ctx.cols ++ [col], cur_col := ctx.cur_col + 1, state := .expect_row, row := 0 } >>=
          fun ctx => .ok (ctx, some (onward b t chain))
      else .ok ({ ctx with cols := ctx.cols ++ [col], cur_col := ctx.cur_col + 1 }, some (onward b t chain)) := by
  rw [process_col, nextBuf_memory hmem]
  simp only [bind, Except.bind, pure, Except.pure, hdata, parse_col_eq hcol]
  by_cases hname : col.name = []
  · simp only [hname, if_true]
  · simp only [hname, if_false]

theorem process_col_spec (hsize : 0 < conf.buf_size) (hmem : InMemory (b :: chain))
    {cs : List Column} (hat : (Rest.cols cs).At res ctx)
    (hcut : Cut ((Rest.cols cs).atoms res) (datas (b :: chain) ++ later)) :
    Outcome conf res later ctx (b :: chain) (.cols cs) (process_col conf ctx (b :: chain)) := by
  obtain ⟨hstate, hne, hcols, hcur, hcount⟩ := hat
  obtain ⟨col, cs, rfl⟩ := exists_cons_of_ne_nil hne
  obtain ⟨t, hdata, hrest⟩ := front (columnBytes_ne col) hcut
  have hwraps := wraps_front later chain (colsAtoms cs ++ rowsAtoms res.rows) hdata rfl
  have hcol := res.cols_lt col (by rw [← hcols]; simp)
  have hless : steps (onward b t chain) < steps (b :: chain) := steps_onward (length_lt_of_ne (columnBytes_ne col) hdata)
  rw [process_col_eq hmem hcol hdata]
  by_cases hname : col.name = []
  · rw [if_pos hname]
    exact .refused (.inl fun hvalid => hvalid.1 col mem_cons_self hname)
  rw [if_neg hname]
  have hvalid : (Rest.cols (col :: cs)).Valid res ↔ (∀ c ∈ cs, c.name ≠ []) ∧ RowsFit res.cols res.rows := by
    simp [Rest.Valid, hname]
  have hlength : res.cols.length = ctx.cur_col + 1 + cs.length := by
    rw [← hcols, hcur, length_append, length_cons]
    omega
  by_cases hlast : cs = []
  · subst hlast
    have hres : res.cols ≠ [] := by
      rw [← hcols]
      simp
    obtain ⟨out, hbegin, hwrote⟩ := outputBegin_spec hsize
      { ctx with cols := ctx.cols ++ [col], cur_col := ctx.cur_col + 1, state := .expect_row, row := 0 }
    rw [if_pos (by rw [hcount, hlength]; exact Nat.le_refl _), hbegin]
    refine .on (.rows 0 res.rows)
      ⟨⟨rfl, hcols, hcount, rfl, res.length_fields, hres⟩, ?_, nofun, ?_, ?_, ?_⟩ (hmem.onward t) hless
    · rw [hwrote.bytes_eq, Rest.text, Rest.text, json_eq hres, append_assoc]
      dsimp only
      rw [hcols]
    · rw [hvalid]
      simp [Rest.Valid]
    · rwa [datas_onward]
    · rw [datas_onward]
      exact hwraps
  · have hlt : ¬ ctx.cur_col + 1 ≥ ctx.col_count := by
      have := length_pos_iff.mpr hlast
      omega
    rw [if_neg hlt]
    refine .on (.cols cs) ⟨⟨hstate, hlast, by simpa using hcols, by simp [hcur], hcount⟩, rfl, nofun, hvalid, ?_, ?_⟩
      (hmem.onward t) hless
    · rwa [datas_onward]
    · rw [datas_onward]
      exact hwraps

theorem process_row_spec (hsize : 0 < conf.buf_size) (hmem : InMemory (b :: chain)) {n : Nat}
    {rs : List Row} (hat : (Rest.rows n rs).At res ctx) (hcut : Cut ((Rest.rows n rs).atoms res) (datas (b :: chain) ++ later)) :
    Outcome conf res later ctx (b :: chain) (.rows n rs) (process_row conf ctx (b :: chain)) := by
  obtain ⟨hstate, hin⟩ := hat
  rw [process_row, nextBuf_memory hmem]
  cases rs with
  | nil =>
    obtain ⟨t, hdata, hrest⟩ := front (cons_ne_nil 0 []) hcut
    have hwraps := wraps_front later chain [] hdata rfl
    obtain ⟨rfl, rfl, rfl⟩ := cut_nil hrest
    obtain ⟨out, hwrite, hwrote⟩ := write_spec hsize
      { ctx with state := State.done, out := { ctx.out with seen_stream_end := true } } (endText conf)
    have hliteral : output_literal conf { ctx with state := State.done } (if conf.root ≠ [] then lit "]\x7d" else lit "]") true =
        .ok { ctx with state := .done, out } := by
      rw [output_literal, Bool.or_true]
      exact hwrite
    simp only [bind, Except.bind, pure, Except.pure, hdata, singleton_append, if_true]
    rw [if_neg (not_not_intro rfl), hliteral]
    refine .stop ⟨rfl, ?_, fun _ => hwrote.end_eq, by simp [Rest.Valid, RowsFit], rfl, hwraps⟩
    rw [Rest.text, Rest.text, rowsText, append_nil]
    exact hwrote.bytes_eq
  | cons row rs =>
    obtain ⟨t, hdata, hrest⟩ := front (cons_ne_nil row.flag.1 []) hcut
    have hwraps := wraps_front later chain (fieldsAtoms row.fields ++ rowsAtoms rs) hdata rfl
    have hlength := hin.length_fields row mem_cons_self
    have hfields : (res.cols.zip row.fields).map snd = row.fields := map_snd_zip (by omega)
    have hcols : (res.cols.zip row.fields).map fst = res.cols := map_fst_zip (by omega)
    have hne : res.cols.zip row.fields ≠ [] := by
      intro hnil
      rw [hnil] at hcols
      exact hin.cols_ne hcols.symm
    simp only [bind, Except.bind, pure, Except.pure, hdata, singleton_append, row.flag.2, if_false]
    refine .on (.fields (n + 1) 0 (res.cols.zip row.fields) rs) ⟨⟨rfl, ⟨hin.cols_eq, hin.count_eq, ?_, ?_, hin.cols_ne⟩,
      rfl, hne, hcols⟩, rfl, nofun, ?_, ?_, ?_⟩ (hmem.onward t) (steps_onward (length_lt_of_ne (cons_ne_nil _ _) hdata))
    · exact congrArg (· + 1) hin.row_eq
    · exact fun r hr => hin.length_fields r (mem_cons_of_mem _ hr)
    · simp [Rest.Valid, RowsFit]
    · rw [Rest.atoms, hfields, datas_onward]
      exact hrest
    · rw [Rest.atoms, Rest.atoms, hfields, datas_onward]
      exact hwraps

/-! ## Fields -/

/-- The context of a field: it is in column `j`, and `fs` are behind it. -/
structure InField (res : ResultSet) (cols : List Column) (col_count row cur_col n j : Nat) (col : Column)
    (fs : List (Column × Option Value)) (rs : List Row) : Prop where
  rows : InRows res cols col_count row n rs
  cur_eq : cur_col = j
  drop_eq : col :: fs.map fst = res.cols.drop j

/-- What is expected behind a field. -/
def Rest.next (n j : Nat) (fs : List (Column × Option Value)) (rs : List Row) : Rest :=
  if fs = [] then .rows n rs else .fields n (j + 1) fs rs

section

variable {n j : Nat} {col : Column} {fs : List (Column × Option Value)} {rs : List Row}

abbrev Ctx.InField (ctx : Ctx) (res : ResultSet) (n j : Nat) (col : Column) (fs : List (Column × Option Value))
    (rs : List Row) : Prop :=
  RdsJson.InField res ctx.cols ctx.col_count ctx.row ctx.cur_col n j col fs rs

theorem InField.col_eq (h : ctx.InField res n j col fs rs) : ctx.col = col := by
  have hhead := congrArg List.head? h.drop_eq
  rw [head?_cons, head?_drop] at hhead
  rw [Ctx.col, h.rows.cols_eq, h.cur_eq, getD_eq_getElem?_getD, ← hhead]
  rfl

theorem InField.length_eq (h : ctx.InField res n j col fs rs) : ctx.col_count = j + 1 + fs.length := by
  have hlength := congrArg List.length h.drop_eq
  rw [length_cons, length_map, length_drop] at hlength
  rw [h.rows.count_eq]
  omega

theorem InField.next_at (h : ctx.InField res n j col fs rs) : (Rest.next n j fs rs).At res (nextField ctx) := by
  have hlength := h.length_eq
  have hcur := h.cur_eq
  rw [Rest.next, nextField]
  by_cases hlast : fs = []
  · have : fs.length = 0 := length_eq_zero_iff.mpr hlast
    rw [if_pos hlast, if_pos (by omega)]
    exact ⟨rfl, h.rows⟩
  · have := length_pos_iff.mpr hlast
    rw [if_neg hlast, if_neg (by omega)]
    refine ⟨rfl, h.rows, by rw [← hcur], hlast, ?_⟩
    have hdrop := congrArg List.tail h.drop_eq
    rwa [List.tail_cons, tail_drop] at hdrop

theorem nextField_out (ctx : Ctx) : (nextField ctx).out = ctx.out := by
  rw [nextField]
  split <;> rfl

/-- The end of the row comes behind its last field. -/
theorem InField.closing (h : ctx.InField res n j col fs rs) (hrest : ctx.field_data_rest = 0) :
    closingText conf ctx ++ (Rest.next n j fs rs).text conf res = fieldsText conf n (j + 1) fs ++ rowsText conf res.cols n rs := by
  have hlength := h.length_eq
  have hcur := h.cur_eq
  rw [closingText, Rest.next]
  by_cases hlast : fs = []
  · have : fs.length = 0 := length_eq_zero_iff.mpr hlast
    rw [if_pos hlast, if_pos ⟨hrest, by omega⟩, hlast]
    rfl
  · have := length_pos_iff.mpr hlast
    rw [if_neg hlast, if_neg (by omega)]
    rfl

theorem closing_more (ctx : Ctx) (h : ctx.field_data_rest ≠ 0) : closingText conf ctx = [] := by
  rw [closingText, if_neg]
  exact fun hrest => h hrest.1

theorem next_atoms : (Rest.next n j fs rs).atoms res = fieldsAtoms (fs.map snd) ++ rowsAtoms rs := by
  rw [Rest.next]
  split
  · next hlast =>
    rw [hlast]
    rfl
  · rfl

theorem next_valid : (Rest.next n j fs rs).Valid res ↔ (∀ field ∈ fs, Fits field.1 field.2) ∧ RowsFit res.cols rs := by
  rw [Rest.next]
  split
  · next hlast => simp [Rest.Valid, hlast]
  · rfl

theorem next_ne_done : Rest.next n j fs rs ≠ .done := by
  rw [Rest.next]
  split <;> nofun

end

/-! ## Values in parts -/

theorem goesOn_append (col : Column) (data data' : Bytes) : goesOn col (data ++ data') = (goesOn col data && goesOn col data') := by
  rw [goesOn, goesOn, goesOn]
  cases col.roughType with
  | int => exact all_append
  | _ => rfl

theorem escape_append (data data' : Bytes) : escape_json_str (data ++ data') = escape_json_str data ++ escape_json_str data' :=
  flatMap_append

/-- The last part of a value. -/
theorem moreText_last (hrest : ctx.field_data_rest = 0) (data : Bytes) : moreText ctx data = moreJson ctx.col data := by
  rw [moreText, moreJson]
  cases ctx.col.roughType with
  | str => simp only [copyOrEscape_eq, hrest, if_true]
  | _ => rfl

/-- A part of a value, and what follows it. -/
theorem moreText_part (ctx : Ctx) (hrest : ctx.field_data_rest ≠ 0) (data data' : Bytes) :
    moreText ctx data ++ moreJson ctx.col data' = moreJson ctx.col (data ++ data') := by
  rw [moreText, moreJson, moreJson]
  cases ctx.col.roughType with
  | str => simp only [copyOrEscape_eq, hrest, if_false, append_nil, escape_append, append_assoc]
  | _ => rfl

variable {c : UInt8}

theorem begins_whole {col : Column} {hdata : (c :: data).length < 2 ^ 32 - 1} :
    begins col 0 (c :: data) = true ↔ Fits col (some ⟨c :: data, hdata⟩) := by
  rw [begins, Fits]
  cases col.roughType with
  | bool => simp [and_comm]
  | _ => simp

theorem valueText_whole (ctx : Ctx) (hrest : ctx.field_data_rest = 0)
    (hdata : (c :: data).length < 2 ^ 32 - 1) :
    valueText ctx (c :: data) false = jsonValue ctx.col (some ⟨c :: data, hdata⟩) := by
  rw [valueText, jsonValue]
  cases ctx.col.roughType with
  | str => simp only [quoted, copyOrEscape_eq, hrest, if_true]
  | _ => rfl

/-- The first part of a value is of its type, and so is what follows. -/
theorem begins_part (col : Column) {n : Nat} (hn : n ≠ 0)
    (hdata' : data' ≠ []) (hdata : (c :: (data ++ data')).length < 2 ^ 32 - 1) :
    begins col n (c :: data) = true ∧ goesOn col data' = true ↔ Fits col (some ⟨c :: (data ++ data'), hdata⟩) := by
  rw [begins, goesOn, Fits]
  cases col.roughType with
  | int => simp [intBegins, all_append, and_assoc]
  | bool => simp [hn, hdata']
  | float => simp
  | str => simp

theorem begins_not_bool {col : Column} {n : Nat} (hn : n ≠ 0) (h : begins col n (c :: data) = true) :
    col.roughType ≠ .bool := by
  intro hbool
  rw [begins, hbool] at h
  simp [hn] at h

theorem valueText_part (ctx : Ctx) (hrest : ctx.field_data_rest ≠ 0) (hbool : ctx.col.roughType ≠ .bool) (hdata : (c :: (data ++ data')).length < 2 ^ 32 - 1) :
    valueText ctx (c :: data) false ++ moreJson ctx.col data' = jsonValue ctx.col (some ⟨c :: (data ++ data'), hdata⟩) := by
  rw [valueText, moreJson, jsonValue]
  cases htype : ctx.col.roughType with
  | str =>
    have happend := escape_append (c :: data) data'
    simp only [quoted, copyOrEscape_eq, hrest, if_false, append_nil, append_assoc]
    rw [← cons_append, happend, append_assoc]
  | bool => exact absurd htype hbool
  | int => rfl
  | float => rfl

section

variable {n j : Nat} {col : Column} {fs : List (Column × Option Value)} {rs : List Row}

/-- A field has been written to its end. -/
theorem goes_next {bufs bufs' : List Bytes} {text : Bytes} (ctx' : Ctx) (hfield : ctx'.InField res n j col fs rs)
    (hrest : ctx'.field_data_rest = 0) (hwrote : Wrote ctx.out (text ++ closingText conf ctx') ctx'.out)
    (htext : rest.text conf res = text ++ (fieldsText conf n (j + 1) fs ++ rowsText conf res.cols n rs))
    (hvalid : rest.Valid res ↔ (∀ field ∈ fs, Fits field.1 field.2) ∧ RowsFit res.cols rs)
    (hcut : Cut (fieldsAtoms (fs.map snd) ++ rowsAtoms rs) (bufs' ++ later))
    (hwraps : Wraps (rest.atoms res) (bufs ++ later) ↔ Wraps (fieldsAtoms (fs.map snd) ++ rowsAtoms rs) (bufs' ++ later)) :
    Goes conf res later ctx bufs rest (nextField ctx') bufs' (Rest.next n j fs rs) := by
  refine ⟨hfield.next_at, ?_, fun h => absurd h next_ne_done, hvalid.trans next_valid.symm, ?_, ?_⟩
  · rw [nextField_out, hwrote.bytes_eq, htext, append_assoc, append_assoc, hfield.closing hrest]
  · rwa [next_atoms]
  · rwa [next_atoms]

theorem process_more_field_data_spec (hsize : 0 < conf.buf_size) {b : Buf} {chain : List Buf} (hmem : InMemory (b :: chain))
    {data : Bytes} (hat : (Rest.more n j col data fs rs).At res ctx)
    (hcut : Cut ((Rest.more n j col data fs rs).atoms res) (datas (b :: chain) ++ later)) :
    Outcome conf res later ctx (b :: chain) (.more n j col data fs rs) (process_more_field_data conf ctx (b :: chain)) := by
  obtain ⟨hstate, hin, hcur, hdrop, hne, hrest, hbool⟩ := hat
  have hfield : ctx.InField res n j col fs rs := ⟨hin, hcur, hdrop⟩
  have hb : b.data ≠ [] := by
    obtain ⟨c, data, rfl⟩ := exists_cons_of_ne_nil hne
    obtain ⟨t, hdata, -⟩ := front (cons_ne_nil c []) hcut
    rw [hdata]
    exact cons_ne_nil c t
  have hput : datas (b :: chain) ++ later = put b.data (datas chain ++ later) := (if_neg hb).symm
  rw [hput] at hcut
  obtain ⟨htake, hcut', hwraps⟩ := cut_data (min b.data.length data.length) (Nat.min_le_right _ _) (Nat.min_le_left _ _) hcut
  rw [← hput] at hwraps
  have hsplit := take_append_drop (min b.data.length data.length) data
  have hlength : (data.drop (min b.data.length data.length)).length = data.length - min b.data.length data.length :=
    length_drop
  have hpos : 0 < min b.data.length data.length := by
    have := length_pos_iff.mpr hb
    have := length_pos_iff.mpr hne
    omega
  have hless : steps (onward b (b.data.drop (min b.data.length data.length)) chain) < steps (b :: chain) := by
    apply steps_onward
    rw [length_drop]
    have := length_pos_iff.mpr hb
    omega
  have hafter : datas (onward b (b.data.drop (min b.data.length data.length)) chain) ++ later =
      put (b.data.drop (min b.data.length data.length)) (datas chain ++ later) := by
    rw [datas_onward, put_append]
  rw [← hafter] at hcut' hwraps
  rw [process_more_field_data, hmem b mem_cons_self]
  simp only [Bool.not_true, Bool.false_eq_true, if_false, hrest, htake]
  generalize hchain : onward b (b.data.drop (min b.data.length data.length)) chain = chain' at *
  have hmem' : InMemory chain' := hchain ▸ hmem.onward _
  rw [← hlength]
  generalize data.take (min b.data.length data.length) = part at *
  generalize data.drop (min b.data.length data.length) = data' at *
  subst hsplit
  rw [output_more_field_data_eq, show Ctx.col { ctx with field_data_rest := data'.length } = col from hfield.col_eq]
  have hgoes := goesOn_append col part data'
  cases hpart : goesOn col part with
  | false =>
    rw [hpart, Bool.false_and] at hgoes
    exact .refused (.inl fun hvalid => Bool.false_ne_true (hgoes.symm.trans hvalid.1))
  | true =>
    rw [hpart, Bool.true_and] at hgoes
    obtain ⟨out, hwrite, hwrote⟩ := write_spec hsize { ctx with field_data_rest := data'.length }
      (moreText { ctx with field_data_rest := data'.length } part ++ closingText conf { ctx with field_data_rest := data'.length })
    simp only [if_true, hwrite, bind, Except.bind]
    by_cases hdata' : data'.length = 0
    · -- the field has been read to its end
      obtain rfl : data' = [] := length_eq_zero_iff.mp hdata'
      rw [moreText_last rfl, show Ctx.col { ctx with field_data_rest := ([] : Bytes).length } = col from hfield.col_eq] at hwrote
      rw [append_nil] at hwraps hgoes ⊢
      rw [if_neg (not_not_intro hdata')]
      refine .on _ (goes_next { ctx with field_data_rest := 0, out } hfield rfl hwrote rfl ?_ hcut' hwraps) hmem' hless
      rw [Rest.Valid, hpart]
      simp
    · rw [if_pos hdata']
      have hpartText := moreText_part { ctx with field_data_rest := data'.length } hdata' part data'
      rw [show Ctx.col { ctx with field_data_rest := data'.length } = col from hfield.col_eq] at hpartText
      rw [closing_more { ctx with field_data_rest := data'.length } hdata', append_nil] at hwrote
      refine .on (.more n j col data' fs rs)
        ⟨⟨hstate, hin, hcur, hdrop, fun h => hdata' (length_eq_zero_iff.mpr h), rfl, hbool⟩, ?_, nofun, ?_, hcut', hwraps⟩
        hmem' hless
      · rw [Rest.text, Rest.text, hwrote.bytes_eq, ← hpartText]
        simp only [append_assoc]
      · rw [Rest.Valid, Rest.Valid, hgoes]

/-- A field whose size is read at the front of the buffer. -/
theorem process_field_eq {b : Buf} {chain : List Buf} (hmem : InMemory (b :: chain)) {total : Nat} (htotal : total < 2 ^ 32)
    {t : Bytes} (hdata : b.data = toBytes 4 total ++ t) :
    process_field conf ctx (b :: chain) =
      if total = 2 ^ 32 - 1 then
        output_field conf { ctx with field_data_rest := 0 } [] true >>= fun ctx => .ok (nextField ctx, some (onward b t chain))
      else
        output_field conf { ctx with field_data_rest := total - min (t.length % 2 ^ 32) total }
            (t.take (min (t.length % 2 ^ 32) total)) false >>= fun ctx =>
          if min (t.length % 2 ^ 32) total < total then
            .ok ({ ctx with state := .expect_more_field_data }, some (onward b (t.drop (min (t.length % 2 ^ 32) total)) chain))
          else .ok (nextField ctx, some (onward b (t.drop (min (t.length % 2 ^ 32) total)) chain)) := by
  have hlong : ¬ (toBytes 4 total ++ t).length < 4 := by
    rw [length_append, length_toBytes]
    omega
  have hword : word 4 (toBytes 4 total ++ t) = (total, t) := word_toBytes htotal t
  rw [process_field, nextBuf_memory hmem]
  simp only [bind, Except.bind, pure, Except.pure, hdata, hlong, if_false, hword]

theorem process_field_spec (hsize : 0 < conf.buf_size) {b : Buf} {chain : List Buf} (hmem : InMemory (b :: chain))
    (hat : (Rest.fields n j fs rs).At res ctx) (hcut : Cut ((Rest.fields n j fs rs).atoms res) (datas (b :: chain) ++ later)) :
    Outcome conf res later ctx (b :: chain) (.fields n j fs rs) (process_field conf ctx (b :: chain)) := by
  obtain ⟨hstate, hin, rfl, hne, hdrop⟩ := hat
  obtain rfl := hin.row_eq
  obtain ⟨⟨col, value⟩, fs, rfl⟩ := exists_cons_of_ne_nil hne
  have hfield : ctx.InField res ctx.row ctx.cur_col col fs rs := ⟨hin, rfl, hdrop⟩
  have hsizes (total : Nat) : toBytes 4 total ≠ [] := by
    intro h
    have hlength := congrArg List.length h
    rw [length_toBytes] at hlength
    cases hlength
  have hvalid (hfits : Fits col value) :
      (Rest.fields ctx.row ctx.cur_col ((col, value) :: fs) rs).Valid res ↔ (∀ field ∈ fs, Fits field.1 field.2) ∧ RowsFit res.cols rs := by
    simp [Rest.Valid, hfits]
  have htext : (Rest.fields ctx.row ctx.cur_col ((col, value) :: fs) rs).text conf res =
      opening conf ctx.row ctx.cur_col col ++ jsonValue col value ++ (fieldsText conf ctx.row (ctx.cur_col + 1) fs ++ rowsText conf res.cols ctx.row rs) := by
    rw [Rest.text, fieldsText, append_assoc]
  have hcol (rest : Nat) : Ctx.col { ctx with field_data_rest := rest } = col := hfield.col_eq
  rcases value with _ | ⟨_ | ⟨c, data⟩, hlong⟩
  · obtain ⟨t, hdata, hrest⟩ := front (hsizes (2 ^ 32 - 1)) hcut
    have hwraps := wraps_front later chain (fieldsAtoms (fs.map snd) ++ rowsAtoms rs) hdata rfl
    obtain ⟨out, hwrite, hwrote⟩ := write_spec hsize { ctx with field_data_rest := 0 }
      (opening conf ctx.row ctx.cur_col col ++ lit "null" ++ closingText conf { ctx with field_data_rest := 0 })
    rw [← datas_onward b] at hrest hwraps
    rw [process_field_eq hmem (by decide) hdata, if_pos rfl, output_null_eq _ rfl, hcol, hwrite]
    exact .on _ (goes_next { ctx with field_data_rest := 0, out } hfield rfl hwrote htext (hvalid trivial) hrest hwraps)
      (hmem.onward t) (steps_onward (length_lt_of_ne (hsizes _) hdata))
  · obtain ⟨t, hdata, hrest⟩ := front (hsizes 0) hcut
    have hwraps := wraps_front later chain (fieldsAtoms (fs.map snd) ++ rowsAtoms rs) hdata rfl
    obtain ⟨out, hwrite, hwrote⟩ := write_spec hsize { ctx with field_data_rest := 0 }
      (opening conf ctx.row ctx.cur_col col ++ lit "\"\"" ++ closingText conf { ctx with field_data_rest := 0 })
    rw [← datas_onward b] at hrest hwraps
    rw [process_field_eq hmem (by decide) hdata, if_neg (by decide), Nat.min_zero, take_zero, drop_zero,
      Nat.sub_self, output_field_eq, hcol, if_pos (show begins col 0 [] = true from rfl), valueText, hwrite]
    exact .on _ (goes_next { ctx with field_data_rest := 0, out } hfield rfl hwrote htext (hvalid trivial) hrest hwraps)
      (hmem.onward t) (steps_onward (length_lt_of_ne (hsizes _) hdata))
  · have htotal : data.length + 1 < 2 ^ 32 - 1 := hlong
    obtain ⟨t, hdata, hrest⟩ := front (by simp) hcut
    replace hdata : b.data = toBytes 4 (data.length + 1) ++ (c :: t) := by simpa using hdata
    have hless (k : Nat) : steps (onward b (t.drop k) chain) < steps (b :: chain) := by
      apply steps_onward
      rw [hdata, length_append, length_cons, length_drop]
      omega
    have hwraps : Wraps ((Rest.fields ctx.row ctx.cur_col ((col, some ⟨c :: data, hlong⟩) :: fs) rs).atoms res) (datas (b :: chain) ++ later) ↔
        (t.length + 1) % 2 ^ 32 = 0 ∨
          Wraps (dataAtoms data ++ (fieldsAtoms (fs.map snd) ++ rowsAtoms rs)) (put t (datas chain ++ later)) := by
      have h := wraps_cons ⟨toBytes 4 (data.length + 1) ++ [c], true⟩
        (dataAtoms data ++ (fieldsAtoms (fs.map snd) ++ rowsAtoms rs)) t (datas chain ++ later)
      have hsize : (toBytes 4 (data.length + 1) ++ [c] ++ t).length - 4 = t.length + 1 := by
        simp only [length_append, length_toBytes, length_singleton]
        omega
      rw [hsize, append_assoc, singleton_append, ← hdata] at h
      simpa [Rest.atoms, fieldsAtoms, fieldAtoms, datas] using h
    rw [process_field_eq hmem (by omega) hdata, if_neg (by omega), output_field_eq, hcol, length_cons]
    cases hk : min ((t.length + 1) % 2 ^ 32) (data.length + 1) with
    | zero =>
      -- `len` is the length of the buffer up to multiples of `2 ^ 32`
      have hzero : (t.length + 1) % 2 ^ 32 = 0 := by omega
      exact .refused (.inr (hwraps.mpr (.inl hzero)))
    | succ k =>
      have hfits : ¬ (t.length + 1) % 2 ^ 32 = 0 := by omega
      have hkt : k ≤ t.length := by
        have := Nat.mod_le (t.length + 1) (2 ^ 32)
        omega
      have hkdata : k ≤ data.length := by omega
      have hput : Cut (dataAtoms data ++ (fieldsAtoms (fs.map snd) ++ rowsAtoms rs)) (put t (datas chain ++ later)) := by
        rw [← put_append, ← append_assoc]
        exact hrest
      obtain ⟨htake, hcut', hwraps'⟩ := cut_data k hkdata hkt hput
      have hafter : datas (onward b (t.drop k) chain) ++ later = put (t.drop k) (datas chain ++ later) := by
        rw [datas_onward, put_append]
      rw [← hafter] at hcut' hwraps'
      replace hwraps := (hwraps.trans (or_iff_right hfits)).trans hwraps'
      have hsplit := take_append_drop k data
      have hlength : data.length + 1 - (k + 1) = (data.drop k).length := by
        rw [length_drop]
        omega
      have hlt : k + 1 < data.length + 1 ↔ (data.drop k).length ≠ 0 := by
        rw [length_drop]
        omega
      rw [take_succ_cons, drop_succ_cons, htake, hlength]
      simp only [hlt]
      generalize data.take k = part at *
      generalize data.drop k = data' at *
      subst hsplit
      replace hless := hless k
      have hmem' := hmem.onward (t.drop k)
      generalize onward b (t.drop k) chain = chain' at *
      have hunfit : ¬ Fits col (some ⟨c :: (part ++ data'), hlong⟩) →
          ¬ (Rest.fields ctx.row ctx.cur_col ((col, some ⟨c :: (part ++ data'), hlong⟩) :: fs) rs).Valid res :=
        fun hfits hvalid => hfits (hvalid.1 _ mem_cons_self)
      by_cases hdata' : data' = []
      · -- the value is whole
        subst hdata'
        have hwhole : (c :: part).length < 2 ^ 32 - 1 := by simpa using hlong
        simp only [append_nil] at hvalid htext hwraps hunfit ⊢
        by_cases hbegins : begins col 0 (c :: part) = true
        · obtain ⟨out, hwrite, hwrote⟩ := write_spec hsize { ctx with field_data_rest := 0 }
            (opening conf ctx.row ctx.cur_col col ++ jsonValue col (some ⟨c :: part, hwhole⟩) ++
              closingText conf { ctx with field_data_rest := 0 })
          have hvalue := valueText_whole { ctx with field_data_rest := 0 } rfl hwhole
          rw [hcol] at hvalue
          rw [length_nil, if_pos hbegins, hvalue, hwrite]
          exact .on _ (goes_next { ctx with field_data_rest := 0, out } hfield rfl hwrote htext
            (hvalid (begins_whole.mp hbegins)) hcut' hwraps) hmem' hless
        · rw [length_nil, if_neg hbegins]
          exact .refused (.inl (hunfit fun h => hbegins (begins_whole.mpr h)))
      · -- a first part of it
        have hn : data'.length ≠ 0 := fun h => hdata' (length_eq_zero_iff.mp h)
        have hpart := begins_part col hn hdata' hlong
        by_cases hbegins : begins col data'.length (c :: part) = true
        · have hbool := begins_not_bool hn hbegins
          have hvalue := valueText_part { ctx with field_data_rest := data'.length } hn (by rwa [hcol]) hlong
          rw [hcol] at hvalue
          obtain ⟨out, hwrite, hwrote⟩ := write_spec hsize { ctx with field_data_rest := data'.length }
            (opening conf ctx.row ctx.cur_col col ++ valueText { ctx with field_data_rest := data'.length } (c :: part) false ++
              closingText conf { ctx with field_data_rest := data'.length })
          rw [if_pos hbegins, hwrite]
          simp only [bind, Except.bind, hn, ne_eq, not_false_eq_true, if_true]
          rw [closing_more { ctx with field_data_rest := data'.length } hn, append_nil] at hwrote
          refine .on (.more ctx.row ctx.cur_col col data' fs rs)
            ⟨⟨rfl, hin, rfl, hdrop, hdata', rfl, hbool⟩, ?_, (fun heq => by cases heq), ?_, hcut', hwraps⟩ hmem' hless
          · rw [htext, ← hvalue, hwrote.bytes_eq, Rest.text]
            simp only [append_assoc]
          · have hfits : Fits col (some ⟨c :: (part ++ data'), hlong⟩) ↔ goesOn col data' = true := by
              rw [← hpart]
              exact and_iff_right hbegins
            rw [Rest.Valid, Rest.Valid, forall_mem_cons, hfits, and_assoc]
        · rw [if_neg hbegins]
          exact .refused (.inl (hunfit fun h => hbegins (hpart.mpr h).1))

end

end OpenResty.Filter.RdsJson
