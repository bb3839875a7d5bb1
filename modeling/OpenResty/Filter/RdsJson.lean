/-
The body filter of `ngx_rds_json`: `ngx_http_rds_json_processor.c`, which reads a result
set as its buffers come, and `ngx_http_rds_json_output.c`, which writes it as JSON.

A function of the processor that ends in the call of another one returns the chain for
it here; `ctx->state` says which one it is. The names are without `ngx_http_rds_json_`. The
allocations succeed, and so do the next filters. Logging, the response header and the flags
of the buffers that go out are left out.
-/
import OpenResty.Filter.Buf
import OpenResty.Lib.Memory

namespace OpenResty.Filter.RdsJson

open Lib (fromBytes)

inductive Failure
  /-- `NGX_ERROR` -/
  | error
  /-- What is submitted is not what has been written. -/
  | wild
  | endless

/-- The bytes of a text in ASCII. -/
def lit (s : String) : Bytes := s.toList.map fun c => UInt8.ofNat c.toNat

inductive Format
  | normal
  | compact

/-- `ngx_http_rds_json_loc_conf_t`: the keys have their quotes, and the user properties their values. -/
structure Conf where
  format : Format
  root : Bytes
  success : Bytes
  user_props : List (Bytes × Bytes)
  errcode_key : Bytes
  errstr_key : Bytes
  buf_size : Nat

/-- `ngx_http_rds_header_t` -/
structure Header where
  std_errcode : Nat
  drv_errcode : Nat
  errstr : Bytes
  affected_rows : Nat
  insert_id : Nat
  col_count : Nat

/-- `ngx_http_rds_column_t` -/
structure Column where
  std_type : Nat
  drv_type : Nat
  name : Bytes
deriving Inhabited

/-- `rds_rough_col_type_t` -/
inductive RoughType
  | int
  | float
  | str
  | bool
  deriving DecidableEq

/-- `col->std_type & 0xc000` -/
def Column.roughType (col : Column) : RoughType :=
  match col.std_type &&& 0xc000 with
  | 0 => .int
  | 0x4000 => .float
  | 0xc000 => .bool
  | _ => .str

/-- `ngx_http_rds_json_state_t` -/
inductive State
  | expect_header
  | expect_col
  | expect_row
  | expect_field
  | expect_more_field_data
  | done
  deriving DecidableEq

/-- The bytes that the next filter has got, the buffers of `ctx->out`, and the buffer that is
being filled, with room for `avail_out` bytes. -/
structure Out where
  sent : Bytes
  linked : List Bytes
  out_buf : Bytes
  avail_out : Nat
  seen_stream_end : Bool

/-- `ngx_http_rds_json_ctx_t` -/
structure Ctx where
  state : State
  cols : List Column
  col_count : Nat
  cur_col : Nat
  row : Nat
  field_data_rest : Nat
  out : Out

def Ctx.init : Ctx :=
  { state := .expect_header, cols := [], col_count := 0, cur_col := 0, row := 0, field_data_rest := 0,
    out := { sent := [], linked := [], out_buf := [], avail_out := 0, seen_stream_end := false } }

/-! ## The output -/

/-- `get_buf` -/
def get_buf (conf : Conf) (out : Out) : Out :=
  if out.avail_out > 0 then out else { out with out_buf := [], avail_out := conf.buf_size }

/-- The loop of `submit_mem` over the postponed bytes. -/
def copyPostponed (conf : Conf) : Nat → Out → Bytes → Option Out
  | 0, _, _ => none
  | n + 1, out, postponed =>
    let len := min postponed.length out.avail_out
    let out := { out with out_buf := out.out_buf ++ postponed.take len, avail_out := out.avail_out - len }
    if out.avail_out > 0 then some out
    else
      let out := { out with linked := out.linked ++ [out.out_buf] }
      if postponed.drop len = [] then some out else copyPostponed conf n (get_buf conf out) (postponed.drop len)

/-- `request_mem`, the text written there, and `submit_mem`. A loop that goes on for longer than
the text does not end. -/
def write (conf : Conf) (ctx : Ctx) (text : Bytes) : Except Failure Ctx :=
  let out := get_buf conf ctx.out
  if out.avail_out < text.length then
    match copyPostponed conf (text.length + 1) out text with
    | none => .error .endless
    | some out => .ok { ctx with out }
  else
    let out := { out with out_buf := out.out_buf ++ text, avail_out := out.avail_out - text.length }
    if out.avail_out = 0 then .ok { ctx with out := { out with linked := out.linked ++ [out.out_buf] } }
    else .ok { ctx with out }

/-- The text is written if it is as long as has been calculated. -/
def writeSized (conf : Conf) (ctx : Ctx) (size : Nat) (text : Bytes) : Except Failure Ctx :=
  if text.length ≠ size then .error .error else write conf ctx text

/-- `output_literal` -/
def output_literal (conf : Conf) (ctx : Ctx) (data : Bytes) (last_buf : Bool) : Except Failure Ctx :=
  write conf { ctx with out := { ctx.out with seen_stream_end := ctx.out.seen_stream_end || last_buf } } data

/-- `output_bufs` -/
def output_bufs (out : Out) : Out :=
  let out :=
    if out.seen_stream_end then
      { out with
        seen_stream_end := false
        linked := if out.avail_out > 0 then out.linked ++ [out.out_buf] else out.linked
        avail_out := 0 }
    else out
  { out with sent := out.sent ++ out.linked.flatten, linked := [] }

/-- What `escape_json_str` adds to a byte. -/
def escapeByteCount (c : UInt8) : Nat :=
  if c &&& 0x80 = 0 then
    if c = 13 ∨ c = 10 ∨ c = 92 ∨ c = 34 ∨ c = 12 ∨ c = 8 ∨ c = 9 then 1
    else if c < 32 then (lit "\\u00xx").length - 1
    else 0
  else 0

/-- `escape_json_str` without a destination. -/
def escapeCount : Bytes → Nat
  | [] => 0
  | c :: src => escapeByteCount c + escapeCount src

def hex (n : UInt8) : UInt8 := (lit "0123456789abcdef").getD n.toNat 0

def escapeByte (c : UInt8) : Bytes :=
  if c &&& 0x80 = 0 then
    if c = 13 then lit "\\r"
    else if c = 10 then lit "\\n"
    else if c = 92 then lit "\\\\"
    else if c = 34 then lit "\\\""
    else if c = 12 then lit "\\f"
    else if c = 8 then lit "\\b"
    else if c = 9 then lit "\\t"
    else if c < 32 then lit "\\u00" ++ [hex (c >>> 4), hex (c &&& 0x0f)]
    else [c]
  else [c]

/-- `escape_json_str` -/
def escape_json_str (src : Bytes) : Bytes := src.flatMap escapeByte

/-- A text is copied when there is nothing to escape. -/
def copyOrEscape (src : Bytes) : Bytes := if escapeCount src = 0 then src else escape_json_str src

/-- `ngx_get_num_size` -/
def ngx_get_num_size (i : Nat) : Nat := if i / 10 > 0 then ngx_get_num_size (i / 10) + 1 else 1
decreasing_by omega

/-- `%uD` and `%uL` -/
def decimal (n : Nat) : Bytes := lit (toString n)

def propSize (prop : Bytes × Bytes) : Nat :=
  (lit ":\"\",").length + prop.1.length + prop.2.length + escapeCount prop.2

def propText (prop : Bytes × Bytes) : Bytes := prop.1 ++ lit ":\"" ++ copyOrEscape prop.2 ++ lit "\","

/-- `output_header` -/
def output_header (conf : Conf) (ctx : Ctx) (header : Header) : Except Failure Ctx :=
  let size := (lit "\x7b").length + conf.errcode_key.length + (lit ":").length + ngx_get_num_size header.std_errcode +
    (lit "\x7d").length
  let size := if conf.success ≠ [] then
      size + conf.success.length + (lit ":,").length +
        if header.std_errcode = 0 then (lit "true").length else (lit "false").length
    else size
  let size := size + (conf.user_props.map propSize).sum
  let size := if header.errstr ≠ [] then
      size + (lit ",").length + conf.errstr_key.length + (lit ":").length + (lit "\"").length + header.errstr.length +
        escapeCount header.errstr + (lit "\"").length
    else size
  let size := if header.insert_id ≠ 0 then size + (lit ",\"insert_id\":").length + ngx_get_num_size header.insert_id else size
  let size := if header.affected_rows ≠ 0 then
      size + (lit ",\"affected_rows\":").length + ngx_get_num_size header.affected_rows
    else size
  let text := lit "\x7b" ++
    (if conf.success ≠ [] then conf.success ++ (if header.std_errcode = 0 then lit ":true," else lit ":false,") else []) ++
    conf.user_props.flatMap propText ++ conf.errcode_key ++ lit ":" ++ decimal header.std_errcode ++
    (if header.errstr ≠ [] then lit "," ++ conf.errstr_key ++ lit ":\"" ++ copyOrEscape header.errstr ++ lit "\"" else []) ++
    (if header.insert_id ≠ 0 then lit ",\"insert_id\":" ++ decimal header.insert_id else []) ++
    (if header.affected_rows ≠ 0 then lit ",\"affected_rows\":" ++ decimal header.affected_rows else []) ++ lit "\x7d"
  writeSized conf { ctx with out := { ctx.out with seen_stream_end := true } } size text

/-- `output_props` -/
def output_props (conf : Conf) (ctx : Ctx) : Except Failure Ctx :=
  let size := (lit "\x7b:").length + conf.root.length
  let size := if conf.success ≠ [] then size + (lit ",:true").length + conf.success.length else size
  let size := size + (conf.user_props.map propSize).sum
  let text := lit "\x7b" ++ (if conf.success ≠ [] then conf.success ++ lit ":true," else []) ++
    conf.user_props.flatMap propText ++ conf.root ++ lit ":"
  writeSized conf ctx size text

/-- The size of the names of `output_cols`, with a comma behind all but the last. -/
def colNamesSize : List Column → Nat
  | [] => 0
  | [col] => col.name.length + escapeCount col.name + (lit "\"\"").length
  | col :: cols => col.name.length + escapeCount col.name + (lit "\"\"").length + (lit ",").length + colNamesSize cols

def colNames : List Column → Bytes
  | [] => []
  | [col] => lit "\"" ++ escape_json_str col.name ++ lit "\""
  | col :: cols => lit "\"" ++ escape_json_str col.name ++ lit "\"" ++ lit "," ++ colNames cols

/-- `output_cols`; the size is not checked. -/
def output_cols (conf : Conf) (ctx : Ctx) : Except Failure Ctx :=
  let size := (lit "[]").length + colNamesSize ctx.cols
  let text := lit "[" ++ colNames ctx.cols ++ lit "]"
  if text.length ≠ size then .error .wild else write conf ctx text

def Ctx.col (ctx : Ctx) : Column := ctx.cols.getD ctx.cur_col default

def isDigit (c : UInt8) : Bool := 48 ≤ c && c ≤ 57

/-- The bytes that an integer may begin with. -/
def intBegins : Bytes → Bool
  | [] => true
  | c :: data => (c = 45 || isDigit c) && data.all isDigit

def isFalse (c : UInt8) : Bool := c = 48 || c = 102 || c = 70

def isTrue (c : UInt8) : Bool := c = 49 || c = 116 || c = 84

/-- What comes before the value of a field: its size. -/
def openingSize (conf : Conf) (ctx : Ctx) : Nat :=
  match conf.format with
  | .normal =>
    (if ctx.cur_col = 0 then
        if ctx.row = 1 then (lit "\x7b\"").length else (lit ",\x7b\"").length
      else (lit ",\"").length) +
      (ctx.col.name.length + escapeCount ctx.col.name + (lit "\":").length)
  | .compact => if ctx.cur_col = 0 then (lit ",[").length else (lit ",").length

def openingText (conf : Conf) (ctx : Ctx) : Bytes :=
  match conf.format with
  | .normal =>
    (if ctx.cur_col = 0 then
        if ctx.row = 1 then lit "\x7b" else lit ",\x7b"
      else lit ",") ++ lit "\"" ++ copyOrEscape ctx.col.name ++ lit "\":"
  | .compact => if ctx.cur_col = 0 then lit ",[" else lit ","

/-- The size of the value, or of its first part, when it is of its type. -/
def valueSize (ctx : Ctx) (data : Bytes) (is_null : Bool) : Except Failure Nat :=
  -- at least one octet should go with the field size in one buf
  if data = [] ∧ ctx.field_data_rest > 0 then .error .error
  else
    match data, is_null with
    | _, true => .ok (lit "null").length
    | [], false => .ok (lit "\"\"").length
    | c :: more, false =>
      match ctx.col.roughType with
      | .float => .ok data.length
      | .int => if intBegins data then .ok data.length else .error .error
      | .bool =>
        if isFalse c || isTrue c then
          if more ≠ [] ∨ ctx.field_data_rest ≠ 0 then .error .error
          else .ok (if isFalse c then (lit "false").length else (lit "true").length)
        else .error .error
      | .str =>
        .ok ((lit "\"").length + data.length + escapeCount data + if ctx.field_data_rest = 0 then (lit "\"").length else 0)

def valueText (ctx : Ctx) (data : Bytes) (is_null : Bool) : Bytes :=
  match data, is_null with
  | _, true => lit "null"
  | [], false => lit "\"\""
  | c :: _, false =>
    match ctx.col.roughType with
    | .int | .float => data
    | .bool => if isFalse c then lit "false" else lit "true"
    | .str => lit "\"" ++ copyOrEscape data ++ if ctx.field_data_rest = 0 then lit "\"" else []

/-- What comes behind the last field of a row. -/
def rowEnd (conf : Conf) : Bytes :=
  match conf.format with
  | .normal => lit "\x7d"
  | .compact => lit "]"

def closingText (conf : Conf) (ctx : Ctx) : Bytes :=
  if ctx.field_data_rest = 0 ∧ ctx.cur_col = ctx.col_count - 1 then rowEnd conf else []

/-- `output_field` -/
def output_field (conf : Conf) (ctx : Ctx) (data : Bytes) (is_null : Bool) : Except Failure Ctx := do
  let size ← valueSize ctx data is_null
  writeSized conf ctx (openingSize conf ctx + size + (closingText conf ctx).length)
    (openingText conf ctx ++ valueText ctx data is_null ++ closingText conf ctx)

/-- The size of a further part of a value. -/
def moreSize (ctx : Ctx) (data : Bytes) : Except Failure Nat :=
  match ctx.col.roughType with
  | .int => if data.all isDigit then .ok data.length else .error .error
  | .float => .ok data.length
  | .bool => .ok 0
  | .str => .ok (data.length + escapeCount data + if ctx.field_data_rest = 0 then (lit "\"").length else 0)

def moreText (ctx : Ctx) (data : Bytes) : Bytes :=
  match ctx.col.roughType with
  | .int | .float => data
  | .bool => []
  | .str => copyOrEscape data ++ if ctx.field_data_rest = 0 then lit "\"" else []

/-- `output_more_field_data` -/
def output_more_field_data (conf : Conf) (ctx : Ctx) (data : Bytes) : Except Failure Ctx := do
  let size ← moreSize ctx data
  writeSized conf ctx (size + (closingText conf ctx).length) (moreText ctx data ++ closingText conf ctx)

/-! ## The processor -/

/-- A number of `n` bytes, and the data behind it. -/
def word (n : Nat) (data : Bytes) : Nat × Bytes := (fromBytes (data.take n), data.drop n)

/-- `ngx_http_rds_parse_header`, and the data behind the header. -/
def ngx_http_rds_parse_header (data : Bytes) : Except Failure (Header × Bytes) :=
  if data.length < 1 + 4 + 1 + 2 + 2 + 2 + 8 + 8 + 2 then .error .error
  else
    let (endian, data) := word 1 data
    let (version, data) := word 4 data
    let (result, data) := word 1 data
    if endian ≠ 0 ∨ version ≠ 3 ∨ result ≠ 0 then .error .error
    else
      let (std_errcode, data) := word 2 data
      let (drv_errcode, data) := word 2 data
      let (len, data) := word 2 data
      if data.length < len + 8 + 8 + 2 then .error .error
      else
        let errstr := data.take len
        let (affected_rows, data) := word 8 (data.drop len)
        let (insert_id, data) := word 8 data
        let (col_count, data) := word 2 data
        .ok ({ std_errcode, drv_errcode, errstr, affected_rows, insert_id, col_count }, data)

/-- `ngx_http_rds_parse_col` -/
def ngx_http_rds_parse_col (data : Bytes) : Except Failure (Column × Bytes) :=
  if data.length < 2 + 2 + 2 then .error .error
  else
    let (std_type, data) := word 2 data
    let (drv_type, data) := word 2 data
    let (len, data) := word 2 data
    if len = 0 ∨ data.length < len then .error .error
    else .ok ({ std_type, drv_type, name := data.take len }, data.drop len)

/-- The buffer to read, behind one that carries no more than a flag. -/
def nextBuf : List Buf → Except Failure (Option (Buf × List Buf))
  | [] => .ok none
  | b :: chain =>
    if b.memory then .ok (some (b, chain))
    else if b.special then
      match chain with
      | [] => .ok none
      | b :: chain => .ok (some (b, chain))
    else .error .error

/-- The chain when `data` is left in its first buffer. -/
def onward (b : Buf) (data : Bytes) (chain : List Buf) : List Buf :=
  if data = [] then chain else { b with data } :: chain

/-- `process_header`; without a chain it has returned `NGX_OK`. -/
def process_header (conf : Conf) (ctx : Ctx) (chain : List Buf) : Except Failure (Ctx × Option (List Buf)) := do
  match ← nextBuf chain with
  | none => return (ctx, none)
  | some (b, chain) =>
    let (header, data) ← ngx_http_rds_parse_header b.data
    if header.col_count = 0 then
      if data ≠ [] then .error .error
      else
        let ctx ← output_header conf { ctx with state := .done } header
        return (ctx, none)
    else
      return ({ ctx with cols := [], state := .expect_col, cur_col := 0, col_count := header.col_count },
        some (onward b data chain))

/-- What `process_col` writes at the end of the column list. -/
def outputBegin (conf : Conf) (ctx : Ctx) : Except Failure Ctx := do
  let ctx ← if conf.root ≠ [] then output_props conf ctx else pure ctx
  let ctx ← output_literal conf ctx (lit "[") false
  match conf.format with
    | .compact => output_cols conf ctx
    | .normal => pure ctx

/-- `process_col` -/
def process_col (conf : Conf) (ctx : Ctx) (chain : List Buf) : Except Failure (Ctx × Option (List Buf)) := do
  match ← nextBuf chain with
  | none => return (ctx, none)
  | some (b, chain) =>
    let (col, data) ← ngx_http_rds_parse_col b.data
    let ctx := { ctx with cols := ctx.cols ++ [col], cur_col := ctx.cur_col + 1 }
    if ctx.cur_col ≥ ctx.col_count then
      let ctx ← outputBegin conf { ctx with state := .expect_row, row := 0 }
      return (ctx, some (onward b data chain))
    else return (ctx, some (onward b data chain))

/-- `process_row` -/
def process_row (conf : Conf) (ctx : Ctx) (chain : List Buf) : Except Failure (Ctx × Option (List Buf)) := do
  match ← nextBuf chain with
  | none => return (ctx, none)
  | some (b, chain) =>
    match b.data with
    | [] => .error .error
    | flag :: data =>
      if flag = 0 then
        if data ≠ [] then .error .error
        else
          let ctx ← output_literal conf { ctx with state := .done } (if conf.root ≠ [] then lit "]\x7d" else lit "]") true
          return (ctx, none)
      else
        return ({ ctx with row := ctx.row + 1, cur_col := 0, state := .expect_field }, some (onward b data chain))

/-- What follows a field that has been read to its end. -/
def nextField (ctx : Ctx) : Ctx :=
  if ctx.cur_col + 1 ≥ ctx.col_count then { ctx with cur_col := ctx.cur_col + 1, state := .expect_row }
  else { ctx with cur_col := ctx.cur_col + 1, state := .expect_field }

/-- The loop body of `process_field`. -/
def process_field (conf : Conf) (ctx : Ctx) (chain : List Buf) : Except Failure (Ctx × Option (List Buf)) := do
  match ← nextBuf chain with
  | none => return (ctx, none)
  | some (b, chain) =>
    if b.data.length < 4 then .error .error
    else
      let (total, data) := word 4 b.data
      if total = 2 ^ 32 - 1 then
        let ctx ← output_field conf { ctx with field_data_rest := 0 } [] true
        return (nextField ctx, some (onward b data chain))
      else
        -- `(uint32_t) (b->last - b->pos)`
        let len := min (data.length % 2 ^ 32) total
        let ctx ← output_field conf { ctx with field_data_rest := total - len } (data.take len) false
        let chain := onward b (data.drop len) chain
        if len < total then return ({ ctx with state := .expect_more_field_data }, some chain)
        else return (nextField ctx, some chain)

/-- The loop body of `process_more_field_data`. -/
def process_more_field_data (conf : Conf) (ctx : Ctx) : List Buf → Except Failure (Ctx × Option (List Buf))
  | [] => .ok (ctx, none)
  | b :: chain =>
    if !b.memory then .error .error
    else do
      let len := min b.data.length ctx.field_data_rest
      let ctx ← output_more_field_data conf { ctx with field_data_rest := ctx.field_data_rest - len } (b.data.take len)
      let chain := onward b (b.data.drop len) chain
      if ctx.field_data_rest ≠ 0 then return (ctx, some chain)
      else return (nextField ctx, some chain)

/-- One function of the processor. -/
def process_step (conf : Conf) (ctx : Ctx) (chain : List Buf) : Except Failure (Ctx × Option (List Buf)) :=
  match ctx.state with
  | .expect_header => process_header conf ctx chain
  | .expect_col => process_col conf ctx chain
  | .expect_row => process_row conf ctx chain
  | .expect_field => process_field conf ctx chain
  | .expect_more_field_data => process_more_field_data conf ctx chain
  | .done => .ok (ctx, none)

/-- The functions of the processor, one after the other. -/
def process (conf : Conf) : Nat → Ctx → List Buf → Except Failure Ctx
  | 0, _, _ => .error .endless
  | n + 1, ctx, chain => do
    match ← process_step conf ctx chain with
    | (ctx, none) => return ctx
    | (ctx, some chain) => process conf n ctx chain

/-- More steps than there are bytes and buffers are not taken. -/
def steps (chain : List Buf) : Nat := (chain.map fun b => b.data.length + 1).sum + 1

/-- `ngx_http_rds_json_body_filter` -/
def body_filter (conf : Conf) (ctx : Ctx) (chain : List Buf) : Except Failure Ctx :=
  if chain = [] ∨ ctx.state = .done then .ok ctx
  else do
    let ctx ← process conf (steps chain) ctx chain
    return { ctx with out := output_bufs ctx.out }

/-- The calls of the filter for a response, up to the first error. -/
def filterCalls (conf : Conf) (ctx : Ctx) : List (List Buf) → Except Failure Ctx
  | [] => .ok ctx
  | chain :: calls => do
    let ctx ← body_filter conf ctx chain
    filterCalls conf ctx calls

end OpenResty.Filter.RdsJson
