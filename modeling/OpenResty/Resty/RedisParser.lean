/-
`redis-parser.c`: replies of the Redis protocol parsed to Lua values, and
requests built from them.

The Lua stack is a list, its top first; a table on it is changed in place. A
pointer into the input is what is left of the input there. The sizes are
machine integers: a `ssize_t` of 64 bits and an `int` of 32, which wrap around.
-/
import OpenResty.Lib.Assoc
import OpenResty.Lib.Resp

namespace OpenResty.Resty.RedisParser

open Lib.Resp
open Lib (assign unassign)

/-! ## The Lua stack -/

/-- A number is the double that is nearest to `q`. -/
inductive LVal
  | nil
  | num (q : Rat)
  | str (s : Bytes)
  | table (fields : List (Nat × LVal))

/-- `t[n]` -/
def LVal.get : LVal → Nat → LVal
  | .table fields, n => (fields.lookup n).getD .nil
  | _, _ => .nil

/-- `t[n] = v` -/
def LVal.set : LVal → Nat → LVal → LVal
  | .table fields, n, .nil => .table (unassign fields n)
  | .table fields, n, v => .table (assign fields n v)
  | t, _, _ => t

abbrev Stack := List LVal

/-- `lua_rawseti(L, -k, n)`: the value at the top, at index -1, goes into a table below it. -/
def rawseti (k n : Nat) : Stack → Stack
  | [] => []
  | v :: st => st.modify (k - 2) fun t => t.set n v

def text (s : String) : LVal := .str (ascii s.toList)

def BAD_REPLY : Rat := 0
def STATUS_REPLY : Rat := 1
def ERROR_REPLY : Rat := 2
def INTEGER_REPLY : Rat := 3
def BULK_REPLY : Rat := 4
def MULTI_BULK_REPLY : Rat := 5

/-! ## Parsing -/

/-- The length of the text before the first CR LF, with the number of bytes gone by. -/
def parse_single_line_reply : Bytes → Bool → Nat → Option Nat
  | [], _, _ => none
  | c :: p, seen_cr, i =>
    if c = 13 then parse_single_line_reply p true (i + 1)
    else if seen_cr then if c = 10 then some (i - 1) else parse_single_line_reply p false (i + 1)
    else parse_single_line_reply p false (i + 1)

def isDigit (c : UInt8) : Bool := 48 ≤ c && c ≤ 57

/-- A signed integer of `w` bits. -/
def wrap (w : Nat) (n : Int) : Int := (n + 2 ^ (w - 1)) % 2 ^ w - 2 ^ (w - 1)

def addDigit (w : Nat) (n : Int) (c : UInt8) : Int := wrap w (n * 10 + (c.toNat - 48 : Nat))

inductive Bulk
  | invalid
  | null (rest : Bytes)
  | data (dst rest : Bytes)

/-- The digits up to a CR. -/
def skipDigits : Bytes → Option Bytes
  | [] => none
  | c :: p => if c = 13 then some (c :: p) else if isDigit c then skipDigits p else none

def bulkSize : Bytes → Int → Option (Int × Bytes)
  | [], _ => none
  | c :: p, size => if c = 13 then some (size, c :: p) else if isDigit c then bulkSize p (addDigit 64 size c) else none

/-- A negative size is compared as an unsigned number: it is greater than what is
left of the input, or -1 or -2. Two bytes before the data is the CR LF of the size,
but -2 is also the length that stands for an invalid reply. -/
def bulkData (size : Int) (p : Bytes) : Bulk :=
  if size < 0 then .invalid
  else if p.length < size.toNat + 2 then .invalid
  else if (p.drop size.toNat).take 2 = crlf then .data (p.take size.toNat) (p.drop (size.toNat + 2))
  else .invalid

def parse_bulk_reply (p : Bytes) : Bulk :=
  match p with
  | [] => .invalid
  | c :: q =>
    if c = 45 then
      match skipDigits q with
      | some (13 :: 10 :: rest) => .null rest
      | _ => .invalid
    else
      match bulkSize p 0 with
      | some (size, 13 :: 10 :: rest) => bulkData size rest
      | _ => .invalid

/-- The count of a multi-bulk reply, -1 for a negative one. -/
def multiCount : Bytes → Int → Option (Int × Bytes)
  | [], _ => none
  | c :: p, count =>
    if c = 13 then some (count, c :: p)
    else if c = 45 then
      match p with
      | [] => none
      | d :: p =>
        if isDigit d then
          match (d :: p).dropWhile (· ≠ 13) with
          | [] => none
          | rest => some (-1, rest)
        else none
    else if isDigit c then multiCount p (addDigit 32 count c)
    else none

/-- An element of a multi-bulk reply: the value, and what is left. -/
def parseElement : Bytes → Option (LVal × Bytes)
  | [] => none
  | c :: p =>
    if c = 43 ∨ c = 45 ∨ c = 58 then
      (parse_single_line_reply p false 0).map fun dst_len => (.str (p.take dst_len), p.drop (dst_len + 2))
    else if c = 36 then
      match parse_bulk_reply p with
      | .invalid => none
      | .null rest => some (.nil, rest)
      | .data dst rest => some (.str dst, rest)
    else none

/-- The loop over the elements, the table at the top of the stack. -/
def parseElements : Nat → Nat → Stack → Bytes → Stack × Option Bytes
  | 0, _, st, p => (st, some p)
  | k + 1, i, st, p =>
    match parseElement p with
    | none => (st, none)
    | some (v, p) => parseElements k (i + 1) (rawseti 2 i (v :: st)) p

/-- The stack, and what is left of the input; `none` is PARSE_ERROR. -/
def parse_multi_bulk_reply (st : Stack) (p : Bytes) : Stack × Option Bytes :=
  match multiCount p 0 with
  | some (count, 13 :: 10 :: p) =>
    if count = -1 then (.nil :: st, some p) else parseElements count.toNat 1 (.table [] :: st) p
  | _ => (st, none)

/-- `lua_tonumber` of a text -/
def tonumber (s : Bytes) : Rat := (Lua.tonumber (asText s)).getD 0

/-- Pushes a result and its type; what is left of the input is the input itself
when the reply is bad. -/
def parse_reply_helper (st : Stack) (p : Bytes) : Stack × Bytes :=
  match p with
  | [] => (.num BAD_REPLY :: text "empty reply" :: st, p)
  | c :: q =>
    if c = 43 then
      match parse_single_line_reply q false 0 with
      | none => (.num BAD_REPLY :: text "bad status reply" :: st, p)
      | some dst_len => (.num STATUS_REPLY :: .str (q.take dst_len) :: st, q.drop (dst_len + 2))
    else if c = 45 then
      match parse_single_line_reply q false 0 with
      | none => (.num BAD_REPLY :: text "bad error reply" :: st, p)
      | some dst_len => (.num ERROR_REPLY :: .str (q.take dst_len) :: st, q.drop (dst_len + 2))
    else if c = 58 then
      match parse_single_line_reply q false 0 with
      | none => (.num BAD_REPLY :: text "bad integer reply" :: st, p)
      | some dst_len => (.num INTEGER_REPLY :: .num (tonumber (q.take dst_len)) :: st, q.drop (dst_len + 2))
    else if c = 36 then
      match parse_bulk_reply q with
      | .invalid => (.num BAD_REPLY :: text "bad bulk reply" :: st, p)
      | .null rest => (.num BULK_REPLY :: .nil :: st, rest)
      | .data dst rest => (.num BULK_REPLY :: .str dst :: st, rest)
    else if c = 42 then
      match parse_multi_bulk_reply st q with
      | (st, none) => (.num BAD_REPLY :: text "bad multi bulk reply" :: st, p)
      | (st, some rest) => (.num MULTI_BULK_REPLY :: st, rest)
    else (.num BAD_REPLY :: text "invalid reply" :: st, p)

/-- The result and its type, the two values at the top. -/
def parse_reply (p : Bytes) : LVal × LVal :=
  match (parse_reply_helper [] p).1 with
  | typ :: res :: _ => (res, typ)
  | _ => (.nil, .nil)

/-- The body of the loop of `parse_replies`. -/
def parseNext (i : Nat) (st : Stack) (p : Bytes) : Stack × Bytes :=
  let (st, p) := parse_reply_helper (.table [] :: st) p
  (rawseti 2 i (rawseti 2 1 (rawseti 3 2 st)), p)

def parseLoop : Nat → Nat → Stack → Bytes → Stack
  | 0, _, st, _ => st
  | k + 1, i, st, p => parseLoop k (i + 1) (parseNext i st p).1 (parseNext i st p).2

/-- The value at the top of the stack is what is returned. -/
def parse_replies (p : Bytes) (n : Nat) : LVal := (parseLoop n 1 [.table []] p).headD .nil

/-! ## Requests -/

variable {ν : Type}

/-- A parameter of a request, with numbers of any kind. -/
inductive Param (ν : Type)
  | str (s : LuaString)
  | num (x : ν)
  | bool (b : Bool)
  | null

/-- A Lua value of an array, which may be none that a request can have. -/
inductive Arg (ν : Type)
  | param (p : Param ν)
  | other

def get_num_size (i : Nat) : Nat := if i / 10 = 0 then 1 else get_num_size (i / 10) + 1
termination_by i
decreasing_by omega

/-- The digits before `dst`, the last one first. -/
def sprintf_num (ui64 : Nat) (dst : Bytes) : Bytes :=
  if ui64 / 10 = 0 then digit (ui64 % 10) :: dst else sprintf_num (ui64 / 10) (digit (ui64 % 10) :: dst)
termination_by ui64
decreasing_by omega

section

variable (tolstring : ν → LuaString)

/-- The first pass over a parameter. -/
def Param.size : Param ν → Nat
  | .str s => 1 + get_num_size s.1.length + 2 + s.1.length + 2
  | .num x => 1 + get_num_size (tolstring x).1.length + 2 + (tolstring x).1.length + 2
  | .bool _ => 7
  | .null => 5

/-- The second pass. -/
def Param.write : Param ν → Bytes
  | .str s => 36 :: sprintf_num s.1.length [] ++ crlf ++ s.1 ++ crlf
  | .num x => 36 :: sprintf_num (tolstring x).1.length [] ++ crlf ++ (tolstring x).1 ++ crlf
  | .bool b => [36, 49] ++ crlf ++ [if b then 49 else 48] ++ crlf
  | .null => [36, 45, 49] ++ crlf

/-- The first pass; the index of a parameter that a request cannot have. -/
def totalSize : Nat → List (Arg ν) → Except Nat Nat
  | _, [] => .ok 0
  | i, .other :: _ => .error i
  | i, .param p :: args => (totalSize (i + 1) args).map (p.size tolstring + ·)

/-- A parameter that no request can have is not reached by the second pass. -/
def Arg.write : Arg ν → Bytes
  | .param p => p.write tolstring
  | .other => []

def build_query (args : List (Arg ν)) : Except String Bytes :=
  let n := args.length
  if n = 0 then .error "empty input param table"
  else
    match totalSize tolstring 1 args with
    | .error i =>
      .error ("parameter " ++ toString i ++ " is not a string, number, redis.parser.null, or boolean value")
    | .ok size =>
      let total := 1 + get_num_size n + 2 + size
      let buf := 42 :: sprintf_num n [] ++ crlf ++ args.flatMap (Arg.write tolstring)
      if buf.length ≠ total then .error "buffer error" else .ok buf

end

end OpenResty.Resty.RedisParser
