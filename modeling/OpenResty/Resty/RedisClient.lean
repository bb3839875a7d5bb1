/-
`resty.redis`: commands on one connection, alone or in a pipeline, whose replies
are read from a socket that a timeout or another error may strike after any byte.
-/
import OpenResty.Lib.Resp
import OpenResty.Resty.Cosocket

namespace OpenResty.Resty.RedisClient

open Cosocket Lib.Resp

/-- What a reply is returned as. An error reply is `false, msg`, or `{false, msg}`
within a table. -/
inductive Value
  | str (s : Bytes)
  | num (q : Rat)
  | null
  | list (vs : List Value)
  | error (msg : Bytes)

/-- `nil, err`, and whether the socket is closed for reading then; or a Lua error. -/
inductive Failure
  | err (err : Option String) (closed : Bool)
  | raised (msg : String)

def Failure.closed : Failure → Bool
  | .err _ closed => closed
  | .raised _ => false

abbrev Read (α : Type) := ReadingE Failure α

/-! ## Reading a reply -/

/-- A timeout leaves the socket open unless it is closed here; any other error closes
it for reading. -/
def closing (close : Bool) (err : String) : Failure := .err (some err) (close || decide (err ≠ "timeout"))

/-- `tonumber(sub(line, 2))` -/
def tonumber (s : Bytes) : Option Rat := Lua.tonumber (asText s)

/-- The loop over the elements of a multi-bulk reply. -/
def readMany (read : Wire → Read Value) : Nat → Wire → Read (List Value)
  | 0, w => answer (.ok []) w
  | n + 1, w =>
    andThen (read w) fun v w =>
    andThen (readMany read n w) fun vs w =>
    answer (.ok (v :: vs)) w

/-- What follows a line; `read` reads an element of a multi-bulk reply. -/
def readRest (read : Wire → Read Value) (line : Bytes) (w : Wire) : Read Value :=
  match line with
  -- bulk reply
  | 36 :: rest =>
    match tonumber rest with
    | none => answer (.error (.raised "attempt to compare nil with number")) w
    | some size =>
      if size < 0 then answer (.ok .null) w
      else
        andThen (failing (closing true) (receive size.floor.toNat w)) fun data w =>
        -- ignore CRLF
        andThen (failing (closing false) (receive 2 w)) fun _ w =>
        answer (.ok (.str data)) w
  -- status reply
  | 43 :: rest => answer (.ok (.str rest)) w
  -- multi-bulk reply
  | 42 :: rest =>
    match tonumber rest with
    | none => answer (.error (.raised "attempt to compare nil with number")) w
    | some n =>
      if n < 0 then answer (.ok .null) w
      else
        andThen (readMany read n.floor.toNat w) fun vals w =>
        answer (.ok (.list vals)) w
  -- integer reply
  | 58 :: rest =>
    match tonumber rest with
    | none => answer (.error (.err none false)) w
    | some n => answer (.ok (.num n)) w
  -- error reply
  | 45 :: rest => answer (.ok (.error rest)) w
  | c :: _ => answer (.error (.err (some ("unkown prefix: \"" ++ toString c ++ "\"")) false)) w
  | [] => answer (.error (.err (some "unkown prefix: \"nil\"") false)) w

/-- `_read_reply`, outside of the subscribed mode; `fuel` bounds how deep replies are nested. -/
def _read_reply : Nat → Wire → Read Value
  | 0, _ => none
  | fuel + 1, w => andThen (failing (closing true) (receiveLine w)) (readRest (_read_reply fuel))

/-- The reply of a command that is issued alone. -/
def readAlone (w : Wire) : Read Value := _read_reply (w.bytes.length + 1) w

/-- The loop of `commit_pipeline`, which closes the socket on every timeout. -/
def readPipeline (nreqs : Nat) (w : Wire) : Read (List Value) :=
  failing (fun
    | .err err closed => .err err (closed || decide (err = some "timeout"))
    | .raised msg => .raised msg) (readMany (_read_reply (w.bytes.length + 1)) nreqs w)

/-! ## Requests -/

variable {ν : Type}

/-- An argument of a command: a string, or a value that `tostring` is applied to. -/
inductive Arg (ν : Type)
  | str (s : LuaString)
  | val (x : ν)

def Arg.text (tostring : ν → LuaString) : Arg ν → LuaString
  | .str s => s
  | .val x => tostring x

/-- `_gen_req`, its pieces joined. -/
def _gen_req (tostring : ν → LuaString) (args : List (Arg ν)) : Bytes :=
  42 :: decimal args.length ++ crlf ++
    args.flatMap fun arg => 36 :: decimal (arg.text tostring).1.length ++ crlf ++ (arg.text tostring).1 ++ crlf

/-! ## The client and its server -/

/-- A command, and the reply of the server to it. -/
structure Command (ν : Type) where
  args : List (Arg ν)
  reply : Reply

/-- When an error strikes: after how many bytes from the start of the call, and its text. -/
abbrev Cut := Option (Nat × String)

/-- What a call answered. -/
structure Answer where
  replies : List Reply
  /-- The socket was closed, or an error struck before all the replies had arrived. -/
  excused : Bool
  result : Except Failure (List Value)

structure State where
  isOpen : Bool
  /-- What was sent on the connection. -/
  sent : Bytes
  /-- What the server has sent or is about to send, and was not read yet. -/
  left : Bytes
  answers : List Answer

def init : State := { isOpen := false, sent := [], left := [], answers := [] }

inductive Event (ν : Type)
  | connect (ok : Bool)
  | close
  /-- A command issued alone. -/
  | command (cmd : Command ν) (cut : Cut)
  /-- `init_pipeline`, commands, and `commit_pipeline` -/
  | pipeline (cmds : List (Command ν)) (cut : Cut)

/-- The error strikes before `n` bytes have arrived. -/
def strikes (cut : Cut) (n : Nat) : Bool :=
  match cut with
  | some (k, _) => decide (k < n)
  | none => false

/-- Requests are sent and their replies read. -/
def State.call (st : State) (request : Bytes) (replies : List Reply) (cut : Cut) (read : Wire → Read (List Value)) :
    Option State :=
  if !st.isOpen then
    some { st with answers := { replies, excused := true, result := .error (.err (some "closed") true) } :: st.answers }
  else
    let bytes := st.left ++ encodeAll replies
    (read { bytes, cut }).map fun (result, w) =>
      { isOpen :=
          match result with
          | .ok _ => true
          | .error f => !f.closed
        sent := st.sent ++ request
        left := w.bytes
        answers := { replies, excused := strikes cut bytes.length, result } :: st.answers }

/-- What happens on an event, if the call that it makes returns. -/
def step (tostring : ν → LuaString) (st : State) : Event ν → Option State
  | .connect ok => some { st with isOpen := ok, sent := [], left := [] }
  | .close => some { st with isOpen := false }
  | .command cmd cut =>
    st.call (_gen_req tostring cmd.args) [cmd.reply] cut fun w =>
      andThen (readAlone w) fun v w => answer (.ok [v]) w
  | .pipeline cmds cut =>
    st.call (cmds.flatMap fun cmd => _gen_req tostring cmd.args) (cmds.map Command.reply) cut (readPipeline cmds.length)

end OpenResty.Resty.RedisClient
