/-
`read_result` of `resty.mysql`, and the responses that the client protocol
prescribes for a query.

An integer of eight bytes stands for the double nearest to it. The sequence
numbers of the packets are left out: `read_result` does not look at them.
-/
import OpenResty.Lib.Resp
import OpenResty.Resty.Cosocket

namespace OpenResty.Resty.Mysql

open Cosocket

abbrev Bytes := List UInt8

/-! ## Strings -/

/-- The bytes that `sub(data, i, j)` and `strbyte(data, i, j)` are about. -/
def range (data : Bytes) (i j : Int) : Bytes :=
  let n : Int := data.length
  let last := if j < 0 then j + n + 1 else if n < j then n else j
  let first := if i < 0 then i + n + 1 else i
  let first := if first ≤ 0 then 1 else first
  (data.take last.toNat).drop (first - 1).toNat

/-- `strbyte(data, i)` -/
def strbyte (data : Bytes) (i : Int) : Option UInt8 := (range data i i).head?

/-- Bytes, the lowest first. -/
def littleEndian : Bytes → Nat
  | [] => 0
  | b :: bs => b.toNat + 256 * littleEndian bs

/-- The number that `bor` makes of four bytes. -/
def signed32 (n : Nat) : Int := (BitVec.ofNat 32 n).toInt

/-- `_get_byte2`, `_get_byte3`; `none` when bytes are missing and `lshift` raises an error. -/
def get_bytes (size : Nat) (data : Bytes) (i : Int) : Option (Nat × Int) :=
  let bs := range data i (i + size - 1)
  if bs.length = size then some (littleEndian bs, i + size) else none

def get_byte2 : Bytes → Int → Option (Nat × Int) := get_bytes 2

def get_byte3 : Bytes → Int → Option (Nat × Int) := get_bytes 3

def get_byte4 (data : Bytes) (i : Int) : Option (Int × Int) :=
  (get_bytes 4 data i).map fun (n, i) => (signed32 n, i)

def get_byte8 (data : Bytes) (i : Int) : Option (Int × Int) :=
  (get_bytes 8 data i).map fun (n, i) => (signed32 (n % 2 ^ 32) + signed32 (n / 2 ^ 32) * 4294967296, i)

/-! ## Length coded values -/

inductive Coded
  | nil
  | null
  | number (n : Int)
deriving DecidableEq

/-- `_from_length_coded_bin`; `none` when an error is raised. -/
def from_length_coded_bin (data : Bytes) (pos : Int) : Option (Coded × Int) :=
  match strbyte data pos with
  | none => some (.nil, pos)
  | some first =>
    if first ≤ 250 then some (.number first.toNat, pos + 1)
    else if first = 251 then some (.null, pos + 1)
    else if first = 252 then (get_byte2 data (pos + 1)).map fun (n, pos) => (.number n, pos)
    else if first = 253 then (get_byte3 data (pos + 1)).map fun (n, pos) => (.number n, pos)
    else if first = 254 then (get_byte8 data (pos + 1)).map fun (n, pos) => (.number n, pos)
    else some (.nil, pos + 1)

/-- `_from_length_coded_str`; the string is `none` for `null`. -/
def from_length_coded_str (data : Bytes) (pos : Int) : Option (Option Bytes × Int) :=
  (from_length_coded_bin data pos).map fun (len, pos) =>
    match len with
    | .nil | .null => (none, pos)
    | .number len => (some (range data pos (pos + len - 1)), pos + len)

/-! ## Packets -/

inductive Typ
  | OK | ERR | EOF | DATA
deriving DecidableEq

def Typ.text : Typ → String
  | .OK => "OK"
  | .ERR => "ERR"
  | .EOF => "EOF"
  | .DATA => "DATA"

/-- Why there is no result. -/
inductive Stop
  | err (msg : String)
  /-- The error of the server: its message, number and SQL state. -/
  | server (msg : Bytes) (errno : Nat) (sqlstate : Option Bytes)
  | raised

/-- A packet is classified by its first byte. -/
def typOf (data : Bytes) : Option Typ :=
  match strbyte data 1 with
  | none => none
  | some field_count =>
    if field_count = 0x00 then some .OK
    else if field_count = 0xff then some .ERR
    else if field_count = 0xfe then some .EOF
    else if field_count ≤ 250 then some .DATA
    else none

/-- `_recv_packet` -/
def recv_packet (max_packet_size : Nat) (w : Wire) : ReadingE Stop (Bytes × Option Typ) :=
  andThen (failing Stop.err (named "failed to receive packet header: " (receive 4 w))) fun header w =>
  let len := littleEndian (header.take 3)
  if len = 0 then answer (.error (.err "empty packet")) w
  else if len > max_packet_size then answer (.error (.err s!"packet size too big: {len}")) w
  else
    andThen (failing Stop.err (named "failed to read packet content: " (receive len w))) fun data w =>
    answer (.ok (data, typOf data)) w

inductive Value
  | null
  | string (s : Bytes)
  | number (q : Rat)

/-- An entry of a row: by its place, or under the name of its column, which may be `null`. -/
inductive Row
  | compact (values : List (Option Value))
  | named (fields : List (Option Bytes × Value))

inductive Result
  | ok (affected_rows insert_id : Coded) (server_status warning_count : Nat) (message : Option Bytes)
  | rows (rows : List Row)

/-- `_parse_ok_packet` -/
def parse_ok_packet (packet : Bytes) : Option (Result × Nat) := do
  let (affected_rows, pos) ← from_length_coded_bin packet 2
  let (insert_id, pos) ← from_length_coded_bin packet pos
  let (server_status, pos) ← get_byte2 packet pos
  let (warning_count, pos) ← get_byte2 packet pos
  let (message, _) ← from_length_coded_str packet pos
  return (.ok affected_rows insert_id server_status warning_count message, server_status)

/-- `_parse_eof_packet`: the number of warnings and the status flags. -/
def parse_eof_packet (packet : Bytes) : Option (Nat × Nat) := do
  let (warning_count, pos) ← get_byte2 packet 2
  let (status_flags, _) ← get_byte2 packet pos
  return (warning_count, status_flags)

/-- `_parse_err_packet` -/
def parse_err_packet (packet : Bytes) : Stop :=
  match get_byte2 packet 2 with
  | none => .raised
  | some (errno, pos) =>
    if range packet pos pos = [35] then
      .server (range packet (pos + 6) (-1)) errno (some (range packet (pos + 1) (pos + 5)))
    else .server (range packet pos (-1)) errno none

structure Col where
  name : Option Bytes
  typ : Option UInt8

/-- `_parse_field_packet` -/
def parse_field_packet (data : Bytes) : Option Col := do
  let (_catalog, pos) ← from_length_coded_str data 1
  let (_db, pos) ← from_length_coded_str data pos
  let (_table, pos) ← from_length_coded_str data pos
  let (_orig_table, pos) ← from_length_coded_str data pos
  let (name, pos) ← from_length_coded_str data pos
  let (_orig_name, pos) ← from_length_coded_str data pos
  -- ignore the filler
  let pos := pos + 1
  let (_charsetnr, pos) ← get_byte2 data pos
  let (_length, pos) ← get_byte4 data pos
  return { name, typ := strbyte data pos }

/-- Whether the converter of a type is `tonumber`. -/
def converts (typ : UInt8) : Bool := typ ≤ 0x05 || typ = 0x09 || typ = 0x0d || typ = 0xf6

/-- The value of a field; `tonumber` may give nil. -/
def convert (typ : Option UInt8) : Option Bytes → Option Value
  | none => some .null
  | some value =>
    if typ.any converts then (Lua.tonumber (Lib.Resp.asText value)).map .number else some (.string value)

/-- The values of a row, from a position on. -/
def parseFields (data : Bytes) : List Col → Int → Option (List (Option Value))
  | [], _ => some []
  | col :: cols, pos => do
    let (value, pos) ← from_length_coded_str data pos
    let values ← parseFields data cols pos
    return convert col.typ value :: values

/-- `row[name] = value` -/
def assign (row : List (Option Bytes × Value)) (name : Option Bytes) : Option Value → List (Option Bytes × Value)
  | none => row.filter fun e => e.1 ≠ name
  | some value =>
    if row.any (·.1 == name) then row.map fun e => if e.1 = name then (name, value) else e else row ++ [(name, value)]

/-- `_parse_row_data_packet` -/
def parse_row_data_packet (data : Bytes) (cols : List Col) (compact : Bool) : Option Row :=
  (parseFields data cols 1).map fun values =>
    if compact then .compact values
    else .named ((cols.zip values).foldl (fun row e => assign row e.1.name e.2) [])

/-- `_recv_field_packet` -/
def recv_field_packet (max_packet_size : Nat) (w : Wire) : ReadingE Stop Col :=
  andThen (recv_packet max_packet_size w) fun (packet, typ) w =>
  match typ with
  | some .ERR => answer (.error (parse_err_packet packet)) w
  | some .DATA =>
    match parse_field_packet packet with
    | some col => answer (.ok col) w
    | none => answer (.error .raised) w
  | some typ => answer (.error (.err ("bad field packet type: " ++ typ.text))) w
  | none => answer (.error .raised) w

def recvCols (max_packet_size : Nat) : Nat → Wire → ReadingE Stop (List Col)
  | 0, w => answer (.ok []) w
  | n + 1, w =>
    andThen (recv_field_packet max_packet_size w) fun col w =>
    andThen (recvCols max_packet_size n w) fun cols w =>
    answer (.ok (col :: cols)) w

/-- The rows, and the status flags of the packet behind them. Each turn takes bytes from the
wire, so there are enough turns. -/
def recvRows (max_packet_size : Nat) (cols : List Col) (compact : Bool) : Nat → Wire → ReadingE Stop (List Row × Nat)
  | 0, _ => none
  | turns + 1, w =>
    andThen (recv_packet max_packet_size w) fun (packet, typ) w =>
    if typ = some .EOF then
      match parse_eof_packet packet with
      | some (_, status_flags) => answer (.ok ([], status_flags)) w
      | none => answer (.error .raised) w
    else
      match parse_row_data_packet packet cols compact with
      | some row =>
        andThen (recvRows max_packet_size cols compact turns w) fun (rows, status_flags) w =>
        answer (.ok (row :: rows, status_flags)) w
      | none => answer (.error .raised) w

inductive State
  | closed
  | CONNECTED
  | COMMAND_SENT
deriving DecidableEq

def State.text : State → String
  | .closed => "nil"
  | .CONNECTED => "1"
  | .COMMAND_SENT => "2"

def SERVER_MORE_RESULTS_EXISTS : Nat := 8

/-- A result, and whether `again` comes with it. -/
abbrev Answer := Except Stop (Result × Bool)

/-- The result for the status flags, and the state after it. -/
def withStatus (status : Nat) (res : Result) : State × Answer :=
  if status &&& SERVER_MORE_RESULTS_EXISTS ≠ 0 then (.COMMAND_SENT, .ok (res, true)) else (.CONNECTED, .ok (res, false))

/-- The columns, the packet between them and the rows, and the rows. -/
def recvResultSet (max_packet_size : Nat) (compact : Bool) (packet : Bytes) (w : Wire) : ReadingE Stop (List Row × Nat) :=
  match from_length_coded_bin packet 1 with
  | some (.number field_count, pos) =>
    if from_length_coded_bin packet pos = none then answer (.error .raised) w
    else
      andThen (recvCols max_packet_size field_count.toNat w) fun cols w =>
      andThen (recv_packet max_packet_size w) fun (_, typ) w =>
      match typ with
      | some .EOF => recvRows max_packet_size cols compact (w.bytes.length + 1) w
      | some typ =>
        answer (.error (.err ("unexpected packet type " ++ typ.text ++ " while eof packet is expected"))) w
      | none => answer (.error .raised) w
  | _ => answer (.error .raised) w

def read_result (max_packet_size : Nat) (compact : Bool) (state : State) (w : Wire) : Option (State × Answer × Wire) :=
  if state ≠ .COMMAND_SENT then
    some (state, .error (.err ("cannot read result in the current context: " ++ state.text)), w)
  else
    (recv_packet max_packet_size w).bind fun (r, w) =>
      match r with
      | .error stop => some (state, .error stop, w)
      | .ok (packet, some .ERR) => some (.CONNECTED, .error (parse_err_packet packet), w)
      | .ok (packet, some .OK) =>
        match parse_ok_packet packet with
        | some (res, server_status) =>
          let (state, a) := withStatus server_status res
          some (state, a, w)
        | none => some (state, .error .raised, w)
      | .ok (packet, some .DATA) =>
        (recvResultSet max_packet_size compact packet w).map fun (r, w) =>
          match r with
          | .error stop => (state, .error stop, w)
          | .ok (rows, status_flags) =>
            let (state, a) := withStatus status_flags (.rows rows)
            (state, a, w)
      | .ok (_, some .EOF) => some (.CONNECTED, .error (.err "packet type EOF not supported"), w)
      | .ok (_, none) => some (.CONNECTED, .error .raised, w)

/-! ## Responses of the server -/

/-- `n` in `k` bytes, the lowest first. -/
def toLittleEndian : Nat → Nat → Bytes
  | 0, _ => []
  | k + 1, n => UInt8.ofNat n :: toLittleEndian k (n / 256)

/-- A length coded integer. -/
def lenenc (n : Nat) : Bytes :=
  if n ≤ 250 then [UInt8.ofNat n]
  else if n < 2 ^ 16 then 252 :: toLittleEndian 2 n
  else if n < 2 ^ 24 then 253 :: toLittleEndian 3 n
  else 254 :: toLittleEndian 8 n

/-- A length coded string. -/
def lenencStr (s : Bytes) : Bytes := lenenc s.length ++ s

/-- The text of an OK packet: as servers send it, or as the rest of the packet. -/
inductive Info
  | absent
  | coded (s : Bytes)
  | rest (s : Bytes)

def Info.bytes : Info → Bytes
  | .absent => []
  | .coded s => lenencStr s
  | .rest s => s

structure OkPacket where
  affected_rows : BitVec 64
  insert_id : BitVec 64
  status : BitVec 16
  warnings : BitVec 16
  info : Info

def OkPacket.payload (p : OkPacket) : Bytes :=
  [0x00] ++ lenenc p.affected_rows.toNat ++ lenenc p.insert_id.toNat ++ toLittleEndian 2 p.status.toNat ++
    toLittleEndian 2 p.warnings.toNat ++ p.info.bytes

structure ErrPacket where
  errno : BitVec 16
  sqlstate : { s : Bytes // s.length = 5 }
  message : Bytes

def ErrPacket.payload (p : ErrPacket) : Bytes :=
  [0xff] ++ toLittleEndian 2 p.errno.toNat ++ [35] ++ p.sqlstate.1 ++ p.message

structure Column where
  db : Bytes
  table : Bytes
  orig_table : Bytes
  name : Bytes
  orig_name : Bytes
  charset : BitVec 16
  length : BitVec 32
  /-- A type without numeric converter. -/
  typ : { t : UInt8 // converts t = false }
  flags : BitVec 16
  decimals : UInt8

def Column.payload (c : Column) : Bytes :=
  lenencStr [100, 101, 102] ++ lenencStr c.db ++ lenencStr c.table ++ lenencStr c.orig_table ++ lenencStr c.name ++
    lenencStr c.orig_name ++ [0x0c] ++ toLittleEndian 2 c.charset.toNat ++ toLittleEndian 4 c.length.toNat ++ [c.typ.1] ++
    toLittleEndian 2 c.flags.toNat ++ [c.decimals, 0, 0]

structure EofPacket where
  warnings : BitVec 16
  status : BitVec 16

def EofPacket.payload (p : EofPacket) : Bytes :=
  [0xfe] ++ toLittleEndian 2 p.warnings.toNat ++ toLittleEndian 2 p.status.toNat

/-- What a field holds in a row. -/
def fieldBytes : Option Bytes → Bytes
  | none => [251]
  | some s => lenencStr s

/-- The packet behind the rows. -/
inductive Ending
  | eof (p : EofPacket)
  | err (p : ErrPacket)

def Ending.payload : Ending → Bytes
  | .eof p => p.payload
  | .err p => p.payload

structure ResultSet where
  columns : List Column
  columns_ne : columns ≠ []
  distinct : (columns.map Column.name).Nodup
  between : EofPacket
  rows : List { row : List (Option Bytes) // row.length = columns.length }
  ending : Ending

def ResultSet.payloads (r : ResultSet) : List Bytes :=
  [lenenc r.columns.length] ++ r.columns.map Column.payload ++ [r.between.payload] ++
    r.rows.map (fun row => row.1.flatMap fieldBytes) ++ [r.ending.payload]

inductive Response
  | ok (p : OkPacket)
  | err (p : ErrPacket)
  | resultSet (r : ResultSet)

def Response.payloads : Response → List Bytes
  | .ok p => [p.payload]
  | .err p => [p.payload]
  | .resultSet r => r.payloads

/-- A packet: the length of its payload, its number, and its payload. -/
def packetBytes (number : UInt8) (payload : Bytes) : Bytes := toLittleEndian 3 payload.length ++ [number] ++ payload

/-- Packets, numbered one after the other. -/
def packets : UInt8 → List Bytes → Bytes
  | _, [] => []
  | number, payload :: payloads => packetBytes number payload ++ packets (number + 1) payloads

def Response.bytes (r : Response) : Bytes := packets 1 r.payloads

/-- Each packet is below the maximum size. -/
def Response.Fits (max_packet_size : Nat) (r : Response) : Prop :=
  ∀ payload ∈ r.payloads, payload.length ≤ max_packet_size ∧ payload.length < 2 ^ 24 - 1

instance (max_packet_size : Nat) (r : Response) : Decidable (r.Fits max_packet_size) :=
  inferInstanceAs (Decidable (∀ payload ∈ r.payloads, payload.length ≤ max_packet_size ∧ payload.length < 2 ^ 24 - 1))

end OpenResty.Resty.Mysql
