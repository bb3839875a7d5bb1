/-
What the functions of `ngx_http_rds_json_output.c` write: the bytes of a text, whatever
buffers it goes to, since each text is as long as has been calculated.
-/
import OpenResty.Filter.RdsStream

namespace OpenResty.Filter.RdsJson

open List Nat

variable {conf : Conf}

/-! ## The buffers that go out -/

/-- The bytes that have been written, sent or not. -/
def Out.bytes (out : Out) : Bytes := out.sent ++ out.linked.flatten ++ if out.avail_out > 0 then out.out_buf else []

/-- A text has been written. -/
structure Wrote (out : Out) (text : Bytes) (out' : Out) : Prop where
  bytes_eq : out'.bytes = out.bytes ++ text
  sent_eq : out'.sent = out.sent
  end_eq : out'.seen_stream_end = out.seen_stream_end

variable {text : Bytes}

theorem Wrote.trans {out out' out'' : Out} {text' : Bytes} (h : Wrote out text out') (h' : Wrote out' text' out'') :
    Wrote out (text ++ text') out'' :=
  ⟨by rw [h'.bytes_eq, h.bytes_eq, append_assoc], h'.sent_eq.trans h.sent_eq, h'.end_eq.trans h.end_eq⟩

theorem get_buf_wrote (conf : Conf) (out : Out) : Wrote out [] (get_buf conf out) := by
  rw [get_buf]
  split
  · exact ⟨(append_nil _).symm, rfl, rfl⟩
  · next h => exact ⟨by simp [Out.bytes, h], rfl, rfl⟩

theorem get_buf_avail (hsize : 0 < conf.buf_size) (out : Out) : 0 < (get_buf conf out).avail_out := by
  rw [get_buf]
  split
  · assumption
  · exact hsize

theorem copyPostponed_spec (hsize : 0 < conf.buf_size) {n : Nat} {out : Out} (hout : 0 < out.avail_out)
    (hn : text.length < n) : ∃ out', copyPostponed conf n out text = some out' ∧ Wrote out text out' := by
  induction n generalizing out text with
  | zero => exact absurd hn (Nat.not_lt_zero _)
  | succ n ih =>
    rw [copyPostponed]
    dsimp only
    by_cases hroom : out.avail_out - min text.length out.avail_out > 0
    · -- all of the text fits
      have hlen : min text.length out.avail_out = text.length := by omega
      rw [if_pos hroom]
      refine ⟨_, rfl, ?_, rfl, rfl⟩
      rw [hlen] at hroom ⊢
      simp [Out.bytes, hroom, hout, append_assoc]
    · have hlen : min text.length out.avail_out = out.avail_out := by omega
      rw [if_neg hroom, hlen]
      have hlinked : Wrote out (text.take out.avail_out)
          { out with
            out_buf := out.out_buf ++ text.take out.avail_out
            avail_out := out.avail_out - out.avail_out
            linked := out.linked ++ [out.out_buf ++ text.take out.avail_out] } :=
        ⟨by simp [Out.bytes, hout, append_assoc], rfl, rfl⟩
      split
      · next hall =>
        have htake : text.take out.avail_out = text := take_of_length_le (drop_eq_nil_iff.mp hall)
        rw [htake] at hlinked ⊢
        exact ⟨_, rfl, hlinked⟩
      · -- the rest goes to a new buffer
        have hshorter : (text.drop out.avail_out).length < n := by
          rw [length_drop]
          omega
        obtain ⟨out', hcopy, hwrote⟩ := ih (get_buf_avail hsize _) hshorter
        have htext := (hlinked.trans (get_buf_wrote conf _)).trans hwrote
        rw [append_nil, take_append_drop] at htext
        exact ⟨out', hcopy, htext⟩

theorem write_spec (hsize : 0 < conf.buf_size) (ctx : Ctx) (text : Bytes) :
    ∃ out, write conf ctx text = .ok { ctx with out } ∧ Wrote ctx.out text out := by
  have hget := get_buf_wrote conf ctx.out
  have havail := get_buf_avail hsize ctx.out
  rw [write]
  dsimp only
  split
  · obtain ⟨out, hcopy, hwrote⟩ := copyPostponed_spec hsize havail (lt_succ_self text.length)
    rw [hcopy]
    exact ⟨out, rfl, by simpa using hget.trans hwrote⟩
  · next hfits =>
    split
    · next hfull =>
      refine ⟨_, rfl, ?_⟩
      have hwrote : Wrote (get_buf conf ctx.out) text
          { get_buf conf ctx.out with
            out_buf := (get_buf conf ctx.out).out_buf ++ text
            avail_out := (get_buf conf ctx.out).avail_out - text.length
            linked := (get_buf conf ctx.out).linked ++ [(get_buf conf ctx.out).out_buf ++ text] } :=
        ⟨by simp [Out.bytes, hfull, havail, append_assoc], rfl, rfl⟩
      simpa using hget.trans hwrote
    · next hroom =>
      refine ⟨_, rfl, ?_⟩
      have hwrote : Wrote (get_buf conf ctx.out) text
          { get_buf conf ctx.out with
            out_buf := (get_buf conf ctx.out).out_buf ++ text
            avail_out := (get_buf conf ctx.out).avail_out - text.length } :=
        ⟨by simp [Out.bytes, Nat.pos_of_ne_zero hroom, havail, append_assoc], rfl, rfl⟩
      simpa using hget.trans hwrote

/-- Without room in a buffer there is no end. -/
theorem write_endless (hsize : conf.buf_size = 0) {ctx : Ctx} (havail : ctx.out.avail_out = 0) (htext : text ≠ []) :
    write conf ctx text = .error .endless := by
  have hget (out : Out) (h : out.avail_out = 0) : (get_buf conf out).avail_out = 0 := by
    rw [get_buf, h, if_neg (Nat.lt_irrefl 0)]
    exact hsize
  have hloop (n : Nat) (out : Out) (h : out.avail_out = 0) : copyPostponed conf n out text = none := by
    induction n generalizing out with
    | zero => rfl
    | succ n ih =>
      rw [copyPostponed]
      simp only [h, Nat.min_zero, Nat.sub_self, Nat.lt_irrefl, gt_iff_lt, if_false, drop_zero, htext]
      exact ih _ (hget _ rfl)
  rw [write]
  dsimp only
  rw [hget _ havail, if_pos (length_pos_iff.mpr htext), hloop _ _ (hget _ havail)]

/-- All is sent at the end of the stream, and before it no more than has been written. -/
theorem output_bufs_bytes (out : Out) :
    (output_bufs out).bytes = out.bytes ∧ (out.seen_stream_end = true → (output_bufs out).sent = out.bytes) := by
  cases hend : out.seen_stream_end with
  | false => simp [output_bufs, hend, Out.bytes]
  | true =>
    by_cases havail : out.avail_out > 0
    · simp [output_bufs, hend, Out.bytes, havail]
    · simp [output_bufs, hend, Out.bytes, havail]

/-! ## The texts -/

theorem length_escapeByte (c : UInt8) : (escapeByte c).length = escapeByteCount c + 1 := by
  rw [escapeByte, escapeByteCount]
  by_cases h : c &&& 0x80 = 0
  · rw [if_pos h, if_pos h]
    split_ifs <;> simp_all [lit]
  · rw [if_neg h, if_neg h]
    rfl

theorem length_escape (src : Bytes) : (escape_json_str src).length = src.length + escapeCount src := by
  induction src with
  | nil => rfl
  | cons c src ih =>
    have hcons : escape_json_str (c :: src) = escapeByte c ++ escape_json_str src := rfl
    rw [hcons, length_append, ih, length_escapeByte, escapeCount, length_cons]
    omega

theorem escapeByte_of_count {c : UInt8} (h : escapeByteCount c = 0) : escapeByte c = [c] := by
  rw [escapeByteCount] at h
  rw [escapeByte]
  split at h
  · next hlow =>
    rw [if_pos hlow]
    split at h
    · cases h
    · next hplain =>
      split at h
      · cases h
      · next hcontrol =>
        simp only [not_or] at hplain
        simp [hplain, hcontrol]
  · next hhigh => rw [if_neg hhigh]

theorem copyOrEscape_eq (src : Bytes) : copyOrEscape src = escape_json_str src := by
  rw [copyOrEscape]
  split
  · next h =>
    induction src with
    | nil => rfl
    | cons c src ih =>
      rw [escapeCount, Nat.add_eq_zero_iff] at h
      have hcons : escape_json_str (c :: src) = escapeByte c ++ escape_json_str src := rfl
      rw [hcons, escapeByte_of_count h.1, ← ih h.2]
      rfl
  · rfl

theorem length_copyOrEscape (src : Bytes) : (copyOrEscape src).length = src.length + escapeCount src := by
  rw [copyOrEscape_eq, length_escape]

theorem length_decimal (n : Nat) : (decimal n).length = ngx_get_num_size n := by
  induction n using Nat.strongRecOn with
  | ind n ih =>
    have hdigits (n : Nat) : (decimal n).length = (toDigits 10 n).length := by
      rw [decimal, lit, length_map, toString_eq_ofList_toDigits, String.toList_ofList]
    rw [hdigits, ngx_get_num_size, toDigits_eq_if (by decide)]
    by_cases hn : n < 10
    · rw [if_pos hn, if_neg (by omega)]
      rfl
    · rw [if_neg hn, if_pos (by omega), length_append, ← hdigits, ih (n / 10) (by omega)]
      rfl

theorem propText_eq : propText = jsonProp := by
  funext prop
  simp [propText, jsonProp, quoted, copyOrEscape_eq, lit]

theorem length_propText (prop : Bytes × Bytes) : (propText prop).length = propSize prop := by
  simp [propText, propSize, length_copyOrEscape, lit]
  omega

theorem length_propTexts (props : List (Bytes × Bytes)) : (props.flatMap propText).length = (props.map propSize).sum := by
  rw [length_flatMap]
  simp only [length_propText]

theorem writeSized_eq {ctx : Ctx} {size : Nat} (h : text.length = size) :
    writeSized conf ctx size text = write conf ctx text := by
  rw [writeSized, if_neg (not_not_intro h)]

theorem output_header_eq (ctx : Ctx) (header : Header) :
    output_header conf ctx header =
      write conf { ctx with out := { ctx.out with seen_stream_end := true } } (jsonHeader conf header) := by
  rw [output_header, writeSized_eq]
  · simp [jsonHeader, quoted, copyOrEscape_eq, propText_eq, lit]
  · simp only [length_append, length_propTexts, length_decimal]
    split_ifs <;> simp [length_copyOrEscape, length_decimal, lit] <;> omega

theorem output_props_eq (ctx : Ctx) : output_props conf ctx = write conf ctx (jsonProps conf) := by
  rw [output_props, writeSized_eq]
  · rw [jsonProps, propText_eq]
  · simp only [length_append, length_propTexts]
    split_ifs <;> simp [lit] <;> omega

/-- The items with a comma between them. -/
theorem intercalate_cons (sep : Bytes) (item : Bytes) (items : List Bytes) :
    sep.intercalate (item :: items) = item ++ items.flatMap (sep ++ ·) := by
  induction items generalizing item with
  | nil => simp [List.intercalate]
  | cons next items ih =>
    have hstep : sep.intercalate (item :: next :: items) = item ++ (sep ++ sep.intercalate (next :: items)) := by
      simp [List.intercalate]
    rw [hstep, ih, flatMap_cons, append_assoc]

/-- The array of the names. -/
def jsonNames (cols : List Column) : Bytes :=
  lit "[" ++ (lit ",").intercalate (cols.map fun col => quoted col.name) ++ lit "]"

theorem colNames_eq (cols : List Column) : colNames cols = (lit ",").intercalate (cols.map fun col => quoted col.name) := by
  induction cols with
  | nil => rfl
  | cons col cols ih =>
    rw [map_cons, intercalate_cons]
    cases cols with
    | nil => simp [colNames, quoted]
    | cons next cols =>
      rw [colNames, ih, map_cons, flatMap_cons, intercalate_cons]
      · simp [quoted]
      · exact cons_ne_nil _ _

theorem length_colNames (cols : List Column) : (colNames cols).length = colNamesSize cols := by
  induction cols with
  | nil => rfl
  | cons col cols ih =>
    cases cols with
    | nil =>
      simp [colNames, colNamesSize, length_escape, lit]
    | cons next cols =>
      rw [colNames, colNamesSize, length_append, ih]
      · simp [length_escape, lit]
      all_goals exact cons_ne_nil _ _

theorem output_cols_eq (ctx : Ctx) : output_cols conf ctx = write conf ctx (jsonNames ctx.cols) := by
  rw [output_cols, if_neg]
  · rw [colNames_eq, jsonNames]
  · rw [not_not, length_append, length_append, length_colNames]
    simp [lit]
    omega

/-- What comes before the value of the field in column `j` of the `n`-th row. -/
def opening (conf : Conf) (n j : Nat) (col : Column) : Bytes :=
  match conf.format with
  | .normal => (if j = 0 then if n = 1 then lit "\x7b" else lit ",\x7b" else lit ",") ++ quoted col.name ++ lit ":"
  | .compact => if j = 0 then lit ",[" else lit ","

theorem openingText_eq (ctx : Ctx) : openingText conf ctx = opening conf ctx.row ctx.cur_col ctx.col := by
  rw [openingText, opening]
  cases conf.format with
  | normal => simp [quoted, copyOrEscape_eq, lit]
  | compact => rfl

theorem length_openingText (ctx : Ctx) : (openingText conf ctx).length = openingSize conf ctx := by
  rw [openingText, openingSize]
  cases conf.format with
  | normal => split_ifs <;> simp [length_copyOrEscape, lit] <;> omega
  | compact => split_ifs <;> rfl

/-- The first part of a value that is of its type, with `rest` bytes to follow. -/
def begins (col : Column) (rest : Nat) : Bytes → Bool
  | [] => rest = 0
  | c :: more =>
    match col.roughType with
    | .int => intBegins (c :: more)
    | .bool => (isFalse c || isTrue c) && more = [] && rest = 0
    | .float | .str => true

theorem valueSize_eq (ctx : Ctx) (data : Bytes) :
    valueSize ctx data false =
      if begins ctx.col ctx.field_data_rest data then .ok (valueText ctx data false).length else .error .error := by
  cases data with
  | nil =>
    by_cases hrest : ctx.field_data_rest = 0
    · simp [valueSize, begins, valueText, hrest]
    · simp [valueSize, begins, hrest, Nat.pos_of_ne_zero hrest]
  | cons c more =>
    rw [valueSize.eq_def, begins, valueText.eq_def]
    cases ctx.col.roughType with
    | float => simp
    | int => simp
    | str =>
      simp only [cons_ne_nil, false_and, if_false, if_true, Except.ok.injEq]
      split_ifs <;> simp [length_copyOrEscape, lit] <;> omega
    | bool =>
      simp only [cons_ne_nil, false_and, if_false]
      split_ifs <;> simp_all

theorem output_field_eq (ctx : Ctx) (data : Bytes) :
    output_field conf ctx data false =
      if begins ctx.col ctx.field_data_rest data then
        write conf ctx (opening conf ctx.row ctx.cur_col ctx.col ++ valueText ctx data false ++ closingText conf ctx)
      else .error .error := by
  rw [output_field, valueSize_eq]
  split
  · rw [← openingText_eq]
    refine (writeSized_eq ?_ : _)
    rw [length_append, length_append, length_openingText]
  · rfl

theorem output_null_eq (ctx : Ctx) (hrest : ctx.field_data_rest = 0) :
    output_field conf ctx [] true =
      write conf ctx (opening conf ctx.row ctx.cur_col ctx.col ++ lit "null" ++ closingText conf ctx) := by
  have hsize : valueSize ctx [] true = .ok (lit "null").length := by simp [valueSize, hrest]
  rw [output_field, hsize, ← openingText_eq]
  refine (writeSized_eq ?_ : _)
  rw [length_append, length_append, length_openingText, valueText]

/-- A further part of a value that is of its type. -/
def goesOn (col : Column) (data : Bytes) : Bool :=
  match col.roughType with
  | .int => data.all isDigit
  | .float | .bool | .str => true

theorem output_more_field_data_eq (ctx : Ctx) (data : Bytes) :
    output_more_field_data conf ctx data =
      if goesOn ctx.col data then write conf ctx (moreText ctx data ++ closingText conf ctx) else .error .error := by
  have hsize : moreSize ctx data = if goesOn ctx.col data then .ok (moreText ctx data).length else .error .error := by
    rw [moreSize, moreText, goesOn]
    cases ctx.col.roughType with
    | int => rfl
    | float => rfl
    | bool => rfl
    | str =>
      simp only [if_true, Except.ok.injEq]
      split_ifs <;> simp [length_copyOrEscape, lit]
  rw [output_more_field_data, hsize]
  split
  · refine (writeSized_eq ?_ : _)
    rw [length_append]
  · rfl

end OpenResty.Filter.RdsJson
