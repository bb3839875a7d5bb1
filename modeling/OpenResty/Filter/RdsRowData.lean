/-
What comes behind the columns of a stream, in one buffer: the RDS-JSON processor reads it to
its end only where it is made of whole rows, with a field for each column.
-/
import OpenResty.Filter.RdsJsonRuns

namespace OpenResty.Filter.RdsJson

open List

open Lib (toBytes fromBytes)

/-! ## Rows of bytes -/

/-- What comes before the rows, in numbers and sizes of the width that the format has for them. -/
structure Head where
  header : Header
  cols : List Column
  codes_lt : header.std_errcode < 2 ^ 16 ∧ header.drv_errcode < 2 ^ 16 ∧ header.errstr.length < 2 ^ 16
  counts_lt : header.affected_rows < 2 ^ 64 ∧ header.insert_id < 2 ^ 64 ∧ header.col_count < 2 ^ 16
  col_count_eq : header.col_count = cols.length
  cols_lt : ∀ col ∈ cols, col.std_type < 2 ^ 16 ∧ col.drv_type < 2 ^ 16 ∧ col.name.length < 2 ^ 16

def Head.bytes (head : Head) : Bytes := headerBytes head.header ++ head.cols.flatMap columnBytes

/-- The bytes are rows with a field for each column, and their end. -/
structure RowsOf (cols : List Column) (data : Bytes) (rows : List Row) : Prop where
  data_eq : data = flat (rowsAtoms rows)
  length_fields : ∀ row ∈ rows, row.fields.length = cols.length

/-- The result set of a stream. -/
def Head.withRows (head : Head) (rows : List Row) (hlength : ∀ row ∈ rows, row.fields.length = head.cols.length)
    (hrows : head.cols = [] → rows = []) : ResultSet where
  header := head.header
  cols := head.cols
  rows := rows
  codes_lt := head.codes_lt
  counts_lt := head.counts_lt
  col_count_eq := head.col_count_eq
  cols_lt := head.cols_lt
  length_fields := hlength
  rows_nil := hrows

theorem flat_append (as as' : List Atom) : flat (as ++ as') = flat as ++ flat as' := flatMap_append

/-- The atoms of a stream with columns. -/
def Head.atoms (head : Head) (rows : List Row) : List Atom :=
  ⟨headerBytes head.header, false⟩ :: (colsAtoms head.cols ++ rowsAtoms rows)

theorem withRows_atoms {head : Head} (hcols : head.cols ≠ []) {rows : List Row}
    (hlength : ∀ row ∈ rows, row.fields.length = head.cols.length) (hrows : head.cols = [] → rows = []) :
    (head.withRows rows hlength hrows).atoms = head.atoms rows := by
  have hatoms : (head.withRows rows hlength hrows).atoms =
      ⟨headerBytes head.header, false⟩ ::
        (colsAtoms head.cols ++ if head.cols = [] then [] else rowsAtoms rows) := rfl
  rw [hatoms, if_neg hcols, Head.atoms]

theorem flat_atoms (head : Head) (rows : List Row) :
    flat (head.atoms rows) = head.bytes ++ flat (rowsAtoms rows) := by
  have hcols : flat (colsAtoms head.cols) = head.cols.flatMap columnBytes := by rw [flat, colsAtoms, flatMap_map]
  rw [Head.atoms, flat, flatMap_cons, ← flat, flat_append, hcols, Head.bytes, append_assoc]

theorem flat_data (data : Bytes) : flat (dataAtoms data) = data := by
  rw [flat, dataAtoms, flatMap_map]
  exact flatMap_singleton' data

theorem flat_null : flat (fieldAtoms none) = toBytes 4 (2 ^ 32 - 1) := append_nil _

theorem flat_value (value : Value) : flat (fieldAtoms (some value)) = toBytes 4 value.1.length ++ value.1 := by
  match value with
  | ⟨[], _⟩ => rfl
  | ⟨c :: data, _⟩ =>
    rw [fieldAtoms, flat, flatMap_cons, ← flat, flat_data, append_assoc]
    rfl

theorem flat_fields (value : Option Value) (fields : List (Option Value)) :
    flat (fieldsAtoms (value :: fields)) = flat (fieldAtoms value) ++ flat (fieldsAtoms fields) := by
  rw [fieldsAtoms, flatMap_cons, flat_append]
  rfl

theorem flat_row (row : Row) (rows : List Row) :
    flat (rowsAtoms (row :: rows)) = row.flag.1 :: (flat (fieldsAtoms row.fields) ++ flat (rowsAtoms rows)) := by
  rw [rowsAtoms, flat, flatMap_cons, ← flat, flat_append]
  rfl

/-- No length wraps where no field has a byte. -/
theorem not_wraps {as : List Atom} (h : ∀ a ∈ as, a.opens = false) (bufs : List Bytes) : ¬ Wraps as bufs := by
  induction as generalizing bufs with
  | nil => exact id
  | cons a as ih =>
    rintro (⟨hopens, -⟩ | hwraps)
    · exact Bool.false_ne_true ((h a mem_cons_self).symm.trans hopens)
    · exact ih (fun a' ha' => h a' (mem_cons_of_mem _ ha')) _ hwraps

/-! ## A field at the front -/

theorem toBytes_fromBytes (bs : Bytes) : toBytes bs.length (fromBytes bs) = bs := by
  induction bs with
  | nil => rfl
  | cons b bs ih =>
    have hbyte : UInt8.ofNat (b.toNat + 256 * fromBytes bs) = b := by
      apply UInt8.toNat_inj.mp
      have := b.toNat_lt
      rw [UInt8.toNat_ofNat']
      omega
    have hrest : (b.toNat + 256 * fromBytes bs) / 256 = fromBytes bs := by
      have := b.toNat_lt
      omega
    rw [length_cons, toBytes, fromBytes, hbyte, hrest, ih]

theorem fromBytes_lt (bs : Bytes) : fromBytes bs < 256 ^ bs.length := by
  induction bs with
  | nil => exact Nat.one_pos
  | cons b bs ih =>
    have := b.toNat_lt
    rw [fromBytes, length_cons, Nat.pow_succ]
    omega

variable {data : Bytes}

theorem size_front (h : 4 ≤ data.length) : data = toBytes 4 (word 4 data).1 ++ data.drop 4 := by
  have hlength : (data.take 4).length = 4 := length_take_of_le h
  have hsize := toBytes_fromBytes (data.take 4)
  rw [hlength] at hsize
  rw [word, hsize, take_append_drop]

theorem null_front (h : 4 ≤ data.length) (hnull : (word 4 data).1 = 2 ^ 32 - 1) :
    data = flat (fieldAtoms none) ++ data.drop 4 := by
  rw [flat_null, ← hnull]
  exact size_front h

theorem value_front (h : 4 ≤ data.length) (hsize : (word 4 data).1 ≠ 2 ^ 32 - 1)
    (hlong : (word 4 data).1 ≤ (data.drop 4).length) :
    ∃ value, data = flat (fieldAtoms (some value)) ++ (data.drop 4).drop (word 4 data).1 := by
  have hlength : ((data.drop 4).take (word 4 data).1).length = (word 4 data).1 := length_take_of_le hlong
  have hlt : (word 4 data).1 < 2 ^ 32 - 1 := by
    have h4 : (data.take 4).length = 4 := length_take_of_le h
    have hbound := fromBytes_lt (data.take 4)
    rw [h4] at hbound
    have hword : (word 4 data).1 = fromBytes (data.take 4) := rfl
    omega
  refine ⟨⟨(data.drop 4).take (word 4 data).1, by rwa [hlength]⟩, ?_⟩
  rw [flat_value]
  dsimp only
  rw [hlength, append_assoc, take_append_drop]
  exact size_front h

variable {t t' text : Bytes}

theorem field_unique {value value' : Option Value}
    (h : flat (fieldAtoms value) ++ t = flat (fieldAtoms value') ++ t') : value = value' ∧ t = t' := by
  have hlt (value : Value) : value.1.length < 256 ^ 4 := by
    have := value.2
    omega
  have hword := congrArg (word 4) h
  match value, value' with
  | none, none => exact ⟨rfl, append_cancel_left h⟩
  | none, some value =>
    rw [flat_null, flat_value, append_assoc, word_toBytes (by decide), word_toBytes (hlt value)] at hword
    have hsize : 2 ^ 32 - 1 = value.1.length := congrArg Prod.fst hword
    have := value.2
    omega
  | some value, none =>
    rw [flat_null, flat_value, append_assoc, word_toBytes (hlt value), word_toBytes (by decide)] at hword
    have hsize : value.1.length = 2 ^ 32 - 1 := congrArg Prod.fst hword
    have := value.2
    omega
  | some value, some value' =>
    rw [flat_value, flat_value, append_assoc, append_assoc, word_toBytes (hlt value),
      word_toBytes (hlt value')] at hword
    obtain ⟨hsize, hrest⟩ := Prod.mk.inj hword
    obtain ⟨hdata, rfl⟩ := append_inj hrest hsize
    obtain rfl : value = value' := Subtype.ext hdata
    exact ⟨rfl, rfl⟩

theorem fields_unique {fields fields' : List (Option Value)} (hlength : fields.length = fields'.length)
    (h : flat (fieldsAtoms fields) ++ t = flat (fieldsAtoms fields') ++ t') : fields = fields' ∧ t = t' := by
  induction fields generalizing fields' with
  | nil =>
    obtain rfl := length_eq_zero_iff.mp hlength.symm
    exact ⟨rfl, h⟩
  | cons value fields ih =>
    obtain ⟨value', fields', rfl⟩ := exists_cons_of_length_eq_add_one hlength.symm
    rw [flat_fields, flat_fields, append_assoc, append_assoc] at h
    obtain ⟨rfl, hrest⟩ := field_unique h
    obtain ⟨rfl, rfl⟩ := ih (Nat.succ.inj hlength) hrest
    exact ⟨rfl, rfl⟩

variable {cols : List Column}

/-- Row data is read in one way only. -/
theorem RowsOf.unique {data : Bytes} {rows rows' : List Row} (h : RowsOf cols data rows)
    (h' : RowsOf cols data rows') : rows = rows' := by
  induction rows generalizing data rows' with
  | nil =>
    cases rows' with
    | nil => rfl
    | cons row' rows' =>
      have hdata := h.data_eq.symm.trans h'.data_eq
      rw [flat_row] at hdata
      exact absurd (List.cons.inj hdata).1.symm row'.flag.2
  | cons row rows ih =>
    cases rows' with
    | nil =>
      have hdata := h.data_eq.symm.trans h'.data_eq
      rw [flat_row] at hdata
      exact absurd (List.cons.inj hdata).1 row.flag.2
    | cons row' rows' =>
      have hdata := h.data_eq.symm.trans h'.data_eq
      rw [flat_row, flat_row] at hdata
      obtain ⟨hflag, hrest⟩ := List.cons.inj hdata
      have hlength := (h.length_fields row mem_cons_self).trans (h'.length_fields row' mem_cons_self).symm
      obtain ⟨hfields, hrows⟩ := fields_unique hlength hrest
      obtain rfl := ih ⟨rfl, fun r hr => h.length_fields r (mem_cons_of_mem _ hr)⟩
        ⟨hrows, fun r hr => h'.length_fields r (mem_cons_of_mem _ hr)⟩
      obtain ⟨flag, fields⟩ := row
      obtain ⟨flag', fields'⟩ := row'
      obtain rfl : flag = flag' := Subtype.ext hflag
      obtain rfl : fields = fields' := hfields
      rfl

/-! ## What is still to be read -/

/-- Fields of the row, and rows of `k` fields. -/
def Unread (k m : Nat) (data : Bytes) : Prop :=
  ∃ fields rows, fields.length = m ∧ (∀ row ∈ rows, row.fields.length = k) ∧
    data = flat (fieldsAtoms fields) ++ flat (rowsAtoms rows)

variable {k m : Nat}

theorem unread_end (k : Nat) : Unread k 0 [0] := ⟨[], [], rfl, forall_mem_nil _, rfl⟩

theorem unread_flag {flag : UInt8} (hflag : flag ≠ 0) (h : Unread k k data) : Unread k 0 (flag :: data) := by
  obtain ⟨fields, rows, hfields, hrows, rfl⟩ := h
  refine ⟨[], ⟨⟨flag, hflag⟩, fields⟩ :: rows, rfl, forall_mem_cons.mpr ⟨hfields, hrows⟩, ?_⟩
  rw [flat_row]
  rfl

theorem unread_field {value : Option Value} (hdata : data = flat (fieldAtoms value) ++ t)
    (h : Unread k m t) :
    Unread k (m + 1) data := by
  obtain ⟨fields, rows, hfields, hrows, rfl⟩ := h
  refine ⟨value :: fields, rows, congrArg (· + 1) hfields, hrows, ?_⟩
  rw [hdata, flat_fields, append_assoc]

theorem unread_rows (h : Unread cols.length 0 data) : ∃ rows, RowsOf cols data rows := by
  obtain ⟨fields, rows, hfields, hrows, rfl⟩ := h
  obtain rfl := length_eq_zero_iff.mp hfields
  exact ⟨rows, rfl, hrows⟩

/-! ## The processor on one buffer -/

variable {conf : Conf} {ctx ctx' : Ctx}

theorem bind_ok_iff {α β : Type} {x : Except Failure α} {f : α → Except Failure β} {b : β} :
    (x >>= f) = .ok b ↔ ∃ a, x = .ok a ∧ f a = .ok b := by
  cases x <;> simp [bind, Except.bind]

/-- Nothing but the output has changed. -/
def Written (ctx ctx' : Ctx) : Prop := ∃ out, ctx' = { ctx with out }

theorem Written.trans {ctx'' : Ctx} (h : Written ctx ctx') (h' : Written ctx' ctx'') : Written ctx ctx'' := by
  obtain ⟨out, rfl⟩ := h
  obtain ⟨out', rfl⟩ := h'
  exact ⟨out', rfl⟩

theorem write_ok (h : write conf ctx text = .ok ctx') : Written ctx ctx' := by
  rw [write] at h
  dsimp only at h
  split_ifs at h
  · split at h
    · cases h
    · exact ⟨_, (Except.ok.inj h).symm⟩
  · exact ⟨_, (Except.ok.inj h).symm⟩
  · exact ⟨_, (Except.ok.inj h).symm⟩

theorem writeSized_ok {size : Nat} (h : writeSized conf ctx size text = .ok ctx') : Written ctx ctx' := by
  rw [writeSized] at h
  split_ifs at h
  exact write_ok h

theorem literal_ok {last_buf : Bool} (h : output_literal conf ctx text last_buf = .ok ctx') : Written ctx ctx' :=
  Written.trans ⟨_, rfl⟩ (write_ok h)

theorem field_ok {is_null : Bool} (h : output_field conf ctx text is_null = .ok ctx') : Written ctx ctx' := by
  obtain ⟨size, -, hwrite⟩ := bind_ok_iff.mp h
  exact writeSized_ok hwrite

theorem more_ok (h : output_more_field_data conf ctx text = .ok ctx') : Written ctx ctx' := by
  obtain ⟨size, -, hwrite⟩ := bind_ok_iff.mp h
  exact writeSized_ok hwrite

theorem names_ok (h : (match conf.format with
    | .compact => output_cols conf ctx
    | .normal => .ok ctx) = .ok ctx') : Written ctx ctx' := by
  split at h
  · rw [output_cols_eq] at h
    exact write_ok h
  · exact ⟨ctx.out, (Except.ok.inj h).symm⟩

theorem outputBegin_ok (h : outputBegin conf ctx = .ok ctx') : Written ctx ctx' := by
  have hrows {ctx : Ctx} {names : Ctx → Except Failure Ctx} (hnames : ∀ ctx₁, names ctx₁ = .ok ctx' → Written ctx₁ ctx')
      (h : (output_literal conf ctx (lit "[") false >>= names) = .ok ctx') : Written ctx ctx' := by
    obtain ⟨ctx₁, hbracket, hrest⟩ := bind_ok_iff.mp h
    exact (literal_ok hbracket).trans (hnames ctx₁ hrest)
  rw [outputBegin] at h
  split_ifs at h
  · obtain ⟨ctx₁, hprops, hrest⟩ := bind_ok_iff.mp h
    exact (writeSized_ok hprops).trans (hrows (fun _ => names_ok) hrest)
  · exact hrows (fun _ => names_ok) h

/-- The data is what a context asks for until the end of the rows. -/
def Awaits (ctx : Ctx) (data : Bytes) : Prop :=
  match ctx.state with
  | .expect_row => Unread ctx.col_count 0 data
  | .expect_field => ctx.cur_col < ctx.col_count → Unread ctx.col_count (ctx.col_count - ctx.cur_col) data
  | .expect_more_field_data =>
    ctx.cur_col < ctx.col_count →
      ctx.field_data_rest ≤ data.length ∧
        Unread ctx.col_count (ctx.col_count - (ctx.cur_col + 1)) (data.drop ctx.field_data_rest)
  | _ => True

theorem awaits_next (ctx : Ctx) (h : Awaits (nextField ctx) data) (hcol : ctx.cur_col < ctx.col_count) :
    Unread ctx.col_count (ctx.col_count - (ctx.cur_col + 1)) data := by
  by_cases hlast : ctx.cur_col + 1 ≥ ctx.col_count
  · have hzero : ctx.col_count - (ctx.cur_col + 1) = 0 := by omega
    rw [nextField, if_pos hlast] at h
    rw [hzero]
    exact h
  · rw [nextField, if_neg hlast] at h
    exact h (Nat.lt_of_not_le hlast)

variable {b : Buf} {r : Ctx × Option (List Buf)}

theorem row_ok (hmem : InMemory [b]) (h : process_row conf ctx [b] = .ok r) :
    b.data = [0] ∨ ∃ flag t, flag ≠ 0 ∧ b.data = flag :: t ∧
      r = ({ ctx with row := ctx.row + 1, cur_col := 0, state := .expect_field }, some (onward b t [])) := by
  rw [process_row, nextBuf_memory hmem] at h
  simp only [bind, Except.bind, pure, Except.pure] at h
  split at h
  · cases h
  · next flag t hdata =>
    by_cases hflag : flag = 0
    · rw [if_pos hflag] at h
      by_cases ht : t = []
      · exact .inl (by rw [hdata, hflag, ht])
      · rw [if_pos ht] at h
        cases h
    · rw [if_neg hflag] at h
      exact .inr ⟨flag, t, hflag, hdata, (Except.ok.inj h).symm⟩

/-- A field has been read, or as much of it as `len` says. -/
theorem process_field_ok (hmem : InMemory [b]) (h : process_field conf ctx [b] = .ok r) :
    4 ≤ b.data.length ∧ ∃ out,
      ((word 4 b.data).1 = 2 ^ 32 - 1 ∧
          r = (nextField { ctx with field_data_rest := 0, out }, some (onward b (b.data.drop 4) [])) ∨
        (word 4 b.data).1 ≠ 2 ^ 32 - 1 ∧ ∃ len ≤ (b.data.drop 4).length, len ≤ (word 4 b.data).1 ∧
          r = (if len < (word 4 b.data).1 then
              { ctx with field_data_rest := (word 4 b.data).1 - len, out, state := .expect_more_field_data }
            else nextField { ctx with field_data_rest := (word 4 b.data).1 - len, out },
            some (onward b ((b.data.drop 4).drop len) []))) := by
  rw [process_field, nextBuf_memory hmem] at h
  simp only [bind, Except.bind, pure, Except.pure] at h
  by_cases hshort : b.data.length < 4
  · rw [if_pos hshort] at h
    cases h
  rw [if_neg hshort] at h
  refine ⟨Nat.le_of_not_lt hshort, ?_⟩
  have hdrop : (word 4 b.data).2 = b.data.drop 4 := rfl
  rw [hdrop] at h
  by_cases hnull : (word 4 b.data).1 = 2 ^ 32 - 1
  · rw [if_pos hnull] at h
    obtain ⟨ctx₁, hfield, hnext⟩ := bind_ok_iff.mp h
    obtain ⟨out, rfl⟩ := field_ok hfield
    exact ⟨out, .inl ⟨hnull, (Except.ok.inj hnext).symm⟩⟩
  · rw [if_neg hnull] at h
    obtain ⟨ctx₁, hfield, hnext⟩ := bind_ok_iff.mp h
    obtain ⟨out, rfl⟩ := field_ok hfield
    refine ⟨out, .inr ⟨hnull, min ((b.data.drop 4).length % 2 ^ 32) (word 4 b.data).1,
      (Nat.min_le_left _ _).trans (Nat.mod_le _ _), Nat.min_le_right _ _, ?_⟩⟩
    split_ifs at hnext ⊢
    · exact (Except.ok.inj hnext).symm
    · exact (Except.ok.inj hnext).symm

theorem process_more_ok (hmem : b.memory = true) (h : process_more_field_data conf ctx [b] = .ok r) :
    ∃ len out, len = min b.data.length ctx.field_data_rest ∧
      r = (if ctx.field_data_rest - len ≠ 0 then { ctx with field_data_rest := ctx.field_data_rest - len, out }
        else nextField { ctx with field_data_rest := ctx.field_data_rest - len, out },
        some (onward b (b.data.drop len) [])) := by
  rw [process_more_field_data, hmem] at h
  simp only [Bool.not_true, Bool.false_eq_true, if_false] at h
  obtain ⟨ctx₁, hmore, hnext⟩ := bind_ok_iff.mp h
  obtain ⟨out, rfl⟩ := more_ok hmore
  refine ⟨_, out, rfl, ?_⟩
  split_ifs at hnext ⊢
  · exact (Except.ok.inj hnext).symm
  · exact (Except.ok.inj hnext).symm

@[simp] theorem nextField_count (ctx : Ctx) : (nextField ctx).col_count = ctx.col_count := by
  rw [nextField]
  split <;> rfl

/-- A processor that comes to the end of the rows has read all that it asked for. -/
theorem process_awaits {n : Nat} (hmem : b.memory = true) (hcount : 0 < ctx.col_count)
    (h : process conf n ctx (onward b data []) = .ok ctx') (hdone : ctx'.state = .done) : Awaits ctx data := by
  induction n generalizing ctx data with
  | zero => cases h
  | succ n ih =>
    rw [process] at h
    by_cases hdata : data = []
    · -- without data the processor waits
      rw [onward, if_pos hdata, process_step_nil] at h
      obtain rfl : ctx = ctx' := Except.ok.inj h
      rw [Awaits, hdone]
      trivial
    have hbuf : InMemory [{ b with data }] := by simpa [InMemory] using hmem
    rw [onward, if_neg hdata] at h
    obtain ⟨r, hstep, hrun⟩ := bind_ok_iff.mp h
    have hgo {ctx₁ : Ctx} {t : Bytes} (hr : r = (ctx₁, some (onward { b with data } t [])))
        (hsame : ctx₁.col_count = ctx.col_count) : Awaits ctx₁ t := by
      subst hr
      exact ih (by rwa [hsame]) hrun
    rw [process_step] at hstep
    rw [Awaits]
    split
    · next hstate =>
      rw [hstate] at hstep
      rcases row_ok hbuf hstep with hend | ⟨flag, t, hflag, hrow, hr⟩
      · obtain rfl : data = [0] := hend
        exact unread_end _
      · obtain rfl : data = flag :: t := hrow
        exact unread_flag hflag (hgo hr rfl hcount)
    · next hstate =>
      intro hcol
      have hsucc : ctx.col_count - ctx.cur_col = ctx.col_count - (ctx.cur_col + 1) + 1 := by omega
      rw [hstate] at hstep
      rw [hsucc]
      obtain ⟨hlength, out, ⟨hnull, hr⟩ | ⟨hsize, len, hlen, hle, hr⟩⟩ := process_field_ok hbuf hstep
      · exact unread_field (null_front hlength hnull)
          (awaits_next { ctx with field_data_rest := 0, out } (hgo hr (nextField_count _)) hcol)
      · obtain ⟨hlong, hrest⟩ : (word 4 data).1 ≤ (data.drop 4).length ∧
            Unread ctx.col_count (ctx.col_count - (ctx.cur_col + 1)) ((data.drop 4).drop (word 4 data).1) := by
          by_cases hlt : len < (word 4 data).1
          · -- the length of the buffer has wrapped, or the field is not whole
            rw [if_pos hlt] at hr
            obtain ⟨hmore, hrest⟩ := hgo hr rfl hcol
            dsimp only at hmore hrest hlen hle
            rw [length_drop] at hmore
            rw [drop_drop, Nat.add_sub_cancel' hle] at hrest
            exact ⟨by omega, hrest⟩
          · rw [if_neg hlt] at hr
            obtain rfl : len = (word 4 data).1 := Nat.le_antisymm hle (Nat.le_of_not_lt hlt)
            exact ⟨hlen, awaits_next { ctx with out, field_data_rest := _ } (hgo hr (nextField_count _)) hcol⟩
        obtain ⟨value, hvalue⟩ := value_front hlength hsize hlong
        exact unread_field hvalue hrest
    · next hstate =>
      intro hcol
      rw [hstate] at hstep
      obtain ⟨len, out, hlen, hr⟩ := process_more_ok (b := { b with data }) hmem hstep
      by_cases hrest : ctx.field_data_rest - len ≠ 0
      · -- the buffer has no more of it
        rw [if_pos hrest] at hr
        have hawaits := hgo hr rfl
        simp only [Awaits, hstate] at hawaits
        obtain ⟨hmore, -⟩ := hawaits hcol
        dsimp only at hlen
        rw [length_drop] at hmore
        omega
      · rw [if_neg hrest] at hr
        obtain rfl : len = ctx.field_data_rest := by omega
        dsimp only at hlen
        exact ⟨by omega, awaits_next { ctx with out, field_data_rest := _ } (hgo hr (nextField_count _)) hcol⟩
    · trivial

/-- The columns are read, and then the rows. -/
theorem process_cols_awaits {n : Nat} (hmem : b.memory = true) (hstate : ctx.state = .expect_col)
    (hcols : ∀ col ∈ cols, col.std_type < 2 ^ 16 ∧ col.drv_type < 2 ^ 16 ∧ col.name.length < 2 ^ 16)
    (hne : cols ≠ []) (hcount : ctx.cur_col + cols.length = ctx.col_count)
    (h : process conf n ctx (onward b (cols.flatMap columnBytes ++ data) []) = .ok ctx')
    (hdone : ctx'.state = .done) :
    Unread ctx.col_count 0 data := by
  induction cols generalizing n ctx with
  | nil => exact absurd rfl hne
  | cons col cols ih =>
    cases n with
    | zero => cases h
    | succ n =>
      rw [flatMap_cons, append_assoc] at h
      have hdata : columnBytes col ++ (cols.flatMap columnBytes ++ data) ≠ [] :=
        append_ne_nil_of_left_ne_nil (columnBytes_ne col) _
      rw [onward, if_neg hdata, process] at h
      have hbuf : InMemory [{ b with data := columnBytes col ++ (cols.flatMap columnBytes ++ data) }] := by
        simpa [InMemory] using hmem
      obtain ⟨r, hstep, hrun⟩ := bind_ok_iff.mp h
      have hgo {ctx₁ : Ctx} {bs t : Bytes} (hr : r = (ctx₁, some (onward { b with data := bs } t []))) :
          process conf n ctx₁ (onward b t []) = .ok ctx' := by
        subst hr
        exact hrun
      rw [process_step, hstate] at hstep
      dsimp only at hstep
      rw [process_col_eq hbuf (hcols col mem_cons_self) rfl] at hstep
      rw [length_cons] at hcount
      have hpos : 0 < ctx.col_count := by omega
      split_ifs at hstep with hname hlast
      · obtain rfl : cols = [] := length_eq_zero_iff.mp (by omega)
        obtain ⟨ctx₁, hbegin, hnext⟩ := bind_ok_iff.mp hstep
        obtain ⟨out, rfl⟩ := outputBegin_ok hbegin
        have hrows := process_awaits hmem (by exact hpos) (hgo (Except.ok.inj hnext).symm) hdone
        exact hrows
      · have hrest : cols ≠ [] := by
          rintro rfl
          exact hlast (Nat.le_of_eq hcount.symm)
        have hcount' : ctx.cur_col + 1 + cols.length = ctx.col_count := by omega
        have hunread := ih (by exact hstate) (fun c hc => hcols c (mem_cons_of_mem _ hc)) hrest (by exact hcount')
          (hgo (Except.ok.inj hstep).symm)
        exact hunread

/-! ## Acceptance -/

/-- The processor comes to the end of the stream. -/
def Accepted (conf : Conf) (stream : Bytes) (ctx : Ctx) : Prop :=
  filterCalls conf .init [[temp_buf stream]] = .ok ctx ∧ ctx.state = .done

theorem Accepted.process {stream : Bytes} (h : Accepted conf stream ctx) :
    ∃ ctx₁, process conf (steps [temp_buf stream]) .init [temp_buf stream] = .ok ctx₁ ∧ ctx₁.state = .done := by
  obtain ⟨hcalls, hdone⟩ := h
  obtain ⟨ctx₁, hcall, hnil⟩ := bind_ok_iff.mp hcalls
  rw [body_filter, if_neg (by simp [Ctx.init])] at hcall
  obtain ⟨ctx₂, hprocess, hsent⟩ := bind_ok_iff.mp hcall
  obtain rfl := Except.ok.inj hsent
  obtain rfl := Except.ok.inj hnil
  exact ⟨ctx₂, hprocess, hdone⟩

theorem process_header_start (conf : Conf) (head : Head) (data : Bytes) :
    process_header conf .init [temp_buf (head.bytes ++ data)] =
      if head.cols.length = 0 then
        if head.cols.flatMap columnBytes ++ data ≠ [] then .error .error
        else output_header conf { Ctx.init with state := .done } head.header >>= fun ctx => .ok (ctx, none)
      else
        .ok ({ Ctx.init with state := .expect_col, col_count := head.cols.length },
          some (onward (temp_buf (head.bytes ++ data)) (head.cols.flatMap columnBytes ++ data) [])) := by
  have hmem : InMemory [temp_buf (head.bytes ++ data)] := by simp [InMemory, temp_buf]
  rw [← head.col_count_eq]
  exact @process_header_eq conf (head.withRows [] (forall_mem_nil _) fun _ => rfl) .init _ [] hmem _
    (append_assoc _ _ _)

/-- A processor that comes to the end of the stream has read whole rows. -/
theorem accepted_rows {head : Head} (hcols : head.cols ≠ []) (h : Accepted conf (head.bytes ++ data) ctx) :
    ∃ rows, RowsOf head.cols data rows := by
  obtain ⟨ctx₁, hrun, hdone⟩ := h.process
  have hlength : head.cols.length ≠ 0 := fun h => hcols (length_eq_zero_iff.mp h)
  rw [steps, process] at hrun
  obtain ⟨r, hstep, hrest⟩ := bind_ok_iff.mp hrun
  have hheader := (process_header_start conf head data).symm.trans hstep
  rw [if_neg hlength] at hheader
  obtain rfl := Except.ok.inj hheader
  exact unread_rows (process_cols_awaits rfl rfl head.cols_lt hcols (Nat.zero_add _) hrest hdone)

/-- Behind a header without columns nothing is accepted. -/
theorem accepted_end {head : Head} (hcols : head.cols = []) (h : Accepted conf (head.bytes ++ data) ctx) :
    data = [] := by
  obtain ⟨ctx₁, hrun, -⟩ := h.process
  rw [steps, process] at hrun
  obtain ⟨r, hstep, -⟩ := bind_ok_iff.mp hrun
  have hheader := (process_header_start conf head data).symm.trans hstep
  rw [hcols, if_pos (show ([] : List Column).length = 0 from rfl)] at hheader
  by_contra hdata
  rw [if_pos (show List.flatMap columnBytes [] ++ data ≠ [] from hdata)] at hheader
  cases hheader

/-- What an accepted stream of whole rows has, and what has been sent for it. -/
theorem accepted_spec (conf : Conf) (res : ResultSet) :
    (0 < conf.buf_size ∧ res.Valid ∧ ¬ Wraps res.atoms [flat res.atoms]) ∧
        (∃ ctx, Accepted conf (flat res.atoms) ctx) ∧
          (∀ ctx, Accepted conf (flat res.atoms) ctx → ctx.out.sent = res.json conf) ∨
      ¬ (0 < conf.buf_size ∧ res.Valid ∧ ¬ Wraps res.atoms [flat res.atoms]) ∧ ∀ ctx,
        ¬ Accepted conf (flat res.atoms) ctx := by
  obtain ⟨hmem, hcut⟩ := single_delivered res
  rcases Nat.eq_zero_or_pos conf.buf_size with hsize | hsize
  · refine .inr ⟨fun h => Nat.lt_irrefl 0 (hsize ▸ h.1), fun ctx h => ?_⟩
    rcases filterCalls_roomless hsize hmem (show Rest.header.At res .init from rfl) rfl hcut with ⟨hrun, -⟩ |
      ⟨hrun, -⟩
    · cases hrun.symm.trans h.1
    · cases hrun.symm.trans h.1
  · rcases filterCalls_spec hsize hmem (show Rest.header.At res .init from rfl) nofun hcut with
      ⟨ctx, hrun, hstate, hsent, hvalid, hwraps⟩ | ⟨hrun, hbad⟩
    · refine .inl ⟨⟨hsize, hvalid, hwraps⟩, ⟨ctx, hrun, hstate⟩, fun ctx' h => ?_⟩
      obtain rfl := Except.ok.inj (hrun.symm.trans h.1)
      exact hsent
    · refine .inr ⟨fun h => ?_, fun ctx h => ?_⟩
      · exact hbad.elim (· h.2.1) h.2.2
      · cases hrun.symm.trans h.1

end OpenResty.Filter.RdsJson
