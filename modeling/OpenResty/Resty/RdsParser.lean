/-
`rds_parser.c`, the Lua module `rds.parser`: a whole stream of a result set becomes a table.

A function that pushes `nil` and a text returns the text as an error. The stack of Lua has room,
and the allocations succeed.
-/
import OpenResty.Filter.RdsJson

namespace OpenResty.Resty.RdsParser

open Prod

open Lib (Bytes)
open Filter.RdsJson (Header Column lit word isDigit isFalse isTrue)

/-! ## Values of Lua -/

/-- An integer of a magnitude below `2 ^ 53`, or the bits of any other number. -/
inductive Number
  | int (n : { n : Int // n.natAbs < 2 ^ 53 })
  | double (bits : UInt64)

inductive LuaValue
  /-- `parser.null` -/
  | null
  | boolean (b : Bool)
  | number (x : Number)
  | string (s : Bytes)

/-- Where a number is not an integer of a magnitude below `2 ^ 53`: what it is read as, and
what the conversions to and from an integer make of it. -/
structure Doubles where
  scan : Bytes → Number
  toInteger : UInt64 → Int
  ofInteger : Int → Number

def digitsValue (data : Bytes) : Nat := data.foldl (fun n c => 10 * n + (c.toNat - 48)) 0

/-- The number of a text that is made of digits, with or without a minus. -/
def numeral : Bytes → Option Int
  | [] => none
  | c :: data =>
    if c = 45 then if data ≠ [] ∧ data.all isDigit then some (-digitsValue data) else none
    else if (c :: data).all isDigit then some (digitsValue (c :: data)) else none

/-- `lua_tonumber` of a string -/
def lua_tonumber (d : Doubles) (text : Bytes) : Number :=
  match numeral text with
  | none => d.scan text
  | some n => if h : n.natAbs < 2 ^ 53 then .int ⟨n, h⟩ else d.scan text

/-- `lua_tointeger` of a string -/
def lua_tointeger (d : Doubles) (text : Bytes) : Int :=
  match lua_tonumber d text with
  | .int n => n.1
  | .double bits => d.toInteger bits

/-- `lua_pushinteger` -/
def lua_pushinteger (d : Doubles) (n : Int) : Number := if h : n.natAbs < 2 ^ 53 then .int ⟨n, h⟩ else d.ofInteger n

/-- `(lua_Integer) n`, of 64 bits without a sign -/
def lua_Integer (n : Nat) : Int := (BitVec.ofNat 64 n).toInt

/-- The fields of a table with strings for keys. -/
abbrev Table := Bytes → Option LuaValue

def Table.empty : Table := fun _ => none

/-- `lua_rawset` -/
def Table.rawset (t : Table) (k : Bytes) (v : LuaValue) : Table := fun k' => if k' = k then some v else t k'

/-- The table that `rds_parse` returns. -/
structure Result where
  errcode : Number
  errstr : Option Bytes
  insert_id : Option Number
  affected_rows : Option Number
  resultset : Option (List Table)

/-! ## The parser -/

/-- `rds_buf_t`: `b->pos - b->start`, and the bytes from `b->pos` to `b->last`. -/
structure RdsBuf where
  offset : Nat
  rest : Bytes

/-- `b->pos += n` -/
def RdsBuf.skip (b : RdsBuf) (n : Nat) : RdsBuf := { offset := b.offset + n, rest := b.rest.drop n }

/-- A number of `n` bytes, and the buffer behind it. -/
def RdsBuf.read (b : RdsBuf) (n : Nat) : Nat × RdsBuf := ((word n b.rest).1, b.skip n)

/-- `%d`, of an `(int)` -/
def decimalInt (n : Nat) : Bytes := lit (toString (Int.bmod n (2 ^ 32)))

def resty_dbd_stream_version : Nat := 3

/-- `rds_parse_header` -/
def rds_parse_header (b : RdsBuf) : Except Bytes (Header × RdsBuf) :=
  if b.rest.length < 1 + 4 + 1 + 2 + 2 + 2 + 0 + 8 + 8 + 2 then .error (lit "header part is incomplete")
  else
    -- the endian type is not checked
    let b := b.skip 1
    let (version, b) := b.read 4
    if version ≠ resty_dbd_stream_version then
      .error (lit "found RDS format version " ++ decimalInt version ++ lit ", but we can only handle version " ++
        decimalInt resty_dbd_stream_version)
    else
      let (result, b) := b.read 1
      if result ≠ 0 then .error (lit "RDS result type must be 0 for now but got " ++ decimalInt result)
      else
        let (std_errcode, b) := b.read 2
        let (drv_errcode, b) := b.read 2
        let (len, b) := b.read 2
        if b.rest.length < len + 8 + 8 + 2 then .error (lit "header part is incomplete")
        else
          let errstr := b.rest.take len
          let (affected_rows, b) := (b.skip len).read 8
          let (insert_id, b) := b.read 8
          let (col_count, b) := b.read 2
          .ok ({ std_errcode, drv_errcode, errstr, affected_rows, insert_id, col_count }, b)

/-- `rds_parse_col` -/
def rds_parse_col (b : RdsBuf) : Except Bytes (Column × RdsBuf) :=
  if b.rest.length < 2 + 2 + 2 then .error (lit "column spec is incomplete")
  else
    let (std_type, b) := b.read 2
    let (drv_type, b) := b.read 2
    let (len, b) := b.read 2
    if len = 0 then .error (lit "column name empty")
    else if b.rest.length < len then .error (lit "column name string is incomplete")
    else .ok ({ std_type, drv_type, name := b.rest.take len }, b.skip len)

/-- The loop over the columns in `rds_parse`. -/
def parseCols : Nat → RdsBuf → Except Bytes (List Column × RdsBuf)
  | 0, b => .ok ([], b)
  | n + 1, b => do
    let (col, b) ← rds_parse_col b
    let (cols, b) ← parseCols n b
    return (col :: cols, b)

/-- `row %d, col %d` -/
def place (row col : Nat) : Bytes := lit "row " ++ decimalInt (row + 1) ++ lit ", col " ++ decimalInt (col + 1)

/-- The boolean that begins at `b->pos`; the zero byte that ends a string may be read. -/
def booleanAt (data : Bytes) : Option Bool :=
  if isFalse (data.headD 0) then some false else if isTrue (data.headD 0) then some true else none

/-- `rds_parse_field`, up to `lua_rawset` -/
def rds_parse_field (d : Doubles) (column : Column) (row col : Nat) (b : RdsBuf) : Except Bytes (LuaValue × RdsBuf) :=
  if b.rest.length < 4 then
    .error (lit "field size is incomplete at offset " ++ decimalInt b.offset ++ lit ", " ++ place row col)
  else
    let (len, b) := b.read 4
    if len = 2 ^ 32 - 1 then .ok (.null, b)
    else if b.rest.length < len then
      .error (lit "field value is incomplete at offset " ++ decimalInt b.offset ++ lit ", " ++ place row col)
    else
      match column.roughType with
      | .float => .ok (.number (lua_tonumber d (b.rest.take len)), b.skip len)
      | .int => .ok (.number (lua_pushinteger d (lua_tointeger d (b.rest.take len))), b.skip len)
      | .bool =>
        -- the first byte is looked at even when there is none
        match booleanAt b.rest with
        | some value => .ok (.boolean value, b.skip len)
        | none =>
          .error (lit "unrecognized boolean value at offset " ++ decimalInt b.offset ++ lit ", " ++ place row col)
      | .str => .ok (.string (b.rest.take len), b.skip len)

/-- The loop of `rds_parse_row`, from the column `col` on. -/
def parseFields (d : Doubles) (row : Nat) : Nat → List Column → RdsBuf → Table → Except Bytes (Table × RdsBuf)
  | _, [], b, t => .ok (t, b)
  | col, column :: cols, b, t => do
    let (value, b) ← rds_parse_field d column row col b
    parseFields d row (col + 1) cols b (t.rawset column.name value)

/-- `rds_parse_row`; without a row it has returned 0. -/
def rds_parse_row (d : Doubles) (cols : List Column) (row : Nat) (b : RdsBuf) :
    Except Bytes (Option (Table × RdsBuf)) :=
  match b.rest with
  | [] => .error (lit "row flag is incomplete")
  | flag :: rest =>
    let b := b.skip 1
    if flag = 0 then
      if rest ≠ [] then
        .error (lit "seen unexpected leve-over data bytes at offset " ++ decimalInt b.offset ++ lit ", row " ++
          decimalInt (row + 1))
      else .ok none
    else (parseFields d row 0 cols b .empty).map some

theorem skip_length_le (b : RdsBuf) (n : Nat) : (b.skip n).rest.length ≤ b.rest.length := by
  rw [RdsBuf.skip, List.length_drop]
  omega

variable {b b' : RdsBuf}

theorem field_length_le {d : Doubles} {column : Column} {row col : Nat} {v : LuaValue}
    (h : rds_parse_field d column row col b = .ok (v, b')) : b'.rest.length ≤ b.rest.length := by
  have hword := skip_length_le b 4
  have hskip (n : Nat) := (skip_length_le (b.skip 4) n).trans hword
  rw [rds_parse_field] at h
  dsimp only [RdsBuf.read] at h
  split_ifs at h
  · obtain ⟨-, rfl⟩ := mk.inj (Except.ok.inj h)
    exact hword
  · split at h
    · obtain ⟨-, rfl⟩ := mk.inj (Except.ok.inj h)
      exact hskip _
    · obtain ⟨-, rfl⟩ := mk.inj (Except.ok.inj h)
      exact hskip _
    · split at h
      · obtain ⟨-, rfl⟩ := mk.inj (Except.ok.inj h)
        exact hskip _
      · cases h
    · obtain ⟨-, rfl⟩ := mk.inj (Except.ok.inj h)
      exact hskip _

theorem fields_length_le {d : Doubles} {row col : Nat} {cols : List Column} {t t' : Table}
    (h : parseFields d row col cols b t = .ok (t', b')) : b'.rest.length ≤ b.rest.length := by
  induction cols generalizing col b t with
  | nil =>
    obtain ⟨-, rfl⟩ := mk.inj (Except.ok.inj h)
    exact Nat.le_refl _
  | cons column cols ih =>
    rw [parseFields] at h
    cases hfield : rds_parse_field d column row col b with
    | error e =>
      rw [hfield] at h
      cases h
    | ok r =>
      obtain ⟨v, b''⟩ := r
      rw [hfield] at h
      exact (ih h).trans (field_length_le hfield)

/-- A row takes a byte at least. -/
theorem row_length_lt {d : Doubles} {cols : List Column} {row : Nat} {t : Table}
    (h : rds_parse_row d cols row b = .ok (some (t, b'))) : b'.rest.length < b.rest.length := by
  rw [rds_parse_row] at h
  split at h
  · cases h
  · next flag rest hrest =>
    dsimp only at h
    split_ifs at h
    · cases h
    · cases hfields : parseFields d row 0 cols (b.skip 1) .empty with
      | error e =>
        rw [hfields] at h
        cases h
      | ok r =>
        rw [hfields] at h
        obtain rfl : r = (t, b') := Option.some.inj (Except.ok.inj h)
        have hskip : (b.skip 1).rest = rest := by rw [RdsBuf.skip, hrest, List.drop_one, List.tail_cons]
        have hle := fields_length_le hfields
        rw [hskip] at hle
        rw [hrest, List.length_cons]
        omega

/-- The loop over the rows in `rds_parse`. -/
def parseRows (d : Doubles) (cols : List Column) (row : Nat) (b : RdsBuf) : Except Bytes (List Table) :=
  match h : rds_parse_row d cols row b with
  | .error e => .error e
  | .ok none => .ok []
  | .ok (some (t, b')) => (parseRows d cols (row + 1) b').map (t :: ·)
termination_by b.rest.length
decreasing_by exact row_length_lt h

/-- The table that `rds_parse` returns, before `resultset` is set. -/
def headerTable (d : Doubles) (h : Header) : Result where
  errcode := lua_pushinteger d h.std_errcode
  errstr := if h.errstr.length > 0 then some h.errstr else none
  insert_id := if h.insert_id ≠ 0 then some (lua_pushinteger d (lua_Integer h.insert_id)) else none
  affected_rows := if h.affected_rows ≠ 0 then some (lua_pushinteger d (lua_Integer h.affected_rows)) else none
  resultset := none

/-- `rds_parse` -/
def rds_parse (d : Doubles) (data : Bytes) : Except Bytes Result := do
  let (h, b) ← rds_parse_header { offset := 0, rest := data }
  let (cols, b) ← parseCols h.col_count b
  if h.col_count = 0 then return headerTable d h
  else
    let rows ← parseRows d cols 0 b
    return { headerTable d h with resultset := some rows }

end OpenResty.Resty.RdsParser
