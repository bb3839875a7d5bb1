/-
`parse_response` of `resty.dns.resolver`: the sections of a DNS response, read record by record from
offsets into its bytes.
-/
import OpenResty.Lib.Memory

namespace OpenResty.Resty.DnsResolver

open Lib

/-! ## Strings and numbers -/

/-- `byte(buf, p)`; positions start at 1. -/
def byte (buf : Bytes) (p : Nat) : Option Nat := buf[p - 1]?.map UInt8.toNat

/-- `sub(buf, i, j)`, `i` at least 1 -/
def sub (buf : Bytes) (i j : Nat) : Bytes := (buf.drop (i - 1)).take (j + 1 - i)

/-- A number as LuaJIT's bit operations return it. -/
def signed (n : Nat) : Int := ((n : Int) + 2 ^ 31) % 2 ^ 32 - 2 ^ 31

/-- The second value that is returned with `nil`. -/
inductive Err
  | message (s : String)
  | pos (p : Nat)

/-- A Lua error is raised, or `nil` is returned. -/
inductive Stop
  | raise
  | nil (err : Err)

abbrev Read := Except Stop

/-- A byte that arithmetic is done on: without one an error is raised. -/
def needed (buf : Bytes) (p : Nat) : Read Nat :=
  match byte buf p with
  | none => .error .raise
  | some b => .ok b

/-- `lshift(hi, 8) + lo` -/
def u16 (buf : Bytes) (p : Nat) : Read Nat := do
  let hi ← needed buf p
  let lo ← needed buf (p + 1)
  return hi * 2 ^ 8 + lo

/-- `lshift(byte_1, 24) + lshift(byte_2, 16) + lshift(byte_3, 8) + byte_4` -/
def u32 (buf : Bytes) (p : Nat) : Read Int := do
  let byte_1 ← needed buf p
  let byte_2 ← needed buf (p + 1)
  let byte_3 ← needed buf (p + 2)
  let byte_4 ← needed buf (p + 3)
  return signed (byte_1 * 2 ^ 24) + byte_2 * 2 ^ 16 + byte_3 * 2 ^ 8 + byte_4

/-! ## Names -/

/-- `concat(labels, ".")` -/
def concat (labels : List Bytes) : Bytes := ['.'.toUInt8].intercalate labels

/-- The loop of `_decode_name`: the name and the position behind it, or `none` for "truncated". -/
def decodeLoop (buf : Bytes) (nptrs p pos : Nat) (labels : List Bytes) : Option (Bytes × Nat) :=
  if nptrs < 128 then
    match _hfst : byte buf p with
    | none => none
    | some fst =>
      if fst = 0 then some (concat labels, if nptrs = 0 then pos + 1 else pos)
      else if fst &&& 0xc0 ≠ 0 then
        -- being a pointer
        match byte buf (p + 1) with
        | none => none
        | some snd =>
          decodeLoop buf (nptrs + 1) ((fst &&& 0x3f) * 2 ^ 8 + snd + 1) (if nptrs = 0 then pos + 2 else pos) labels
      else
        -- being a label
        decodeLoop buf nptrs (p + fst + 1) (if nptrs = 0 then p + fst + 1 else pos)
          (labels ++ [sub buf (p + 1) (p + fst)])
  else some (concat labels, pos)
termination_by (128 - nptrs, buf.length + 1 - p)
decreasing_by
  · exact Prod.Lex.left _ _ (by omega)
  · refine Prod.Lex.right _ ?_
    obtain ⟨b, hb, -⟩ := Option.map_eq_some_iff.mp _hfst
    obtain ⟨hlt, -⟩ := List.getElem?_eq_some_iff.mp hb
    omega

def decode_name (buf : Bytes) (pos : Nat) : Option (Bytes × Nat) := decodeLoop buf 0 pos pos []

/-- A name whose error is `err`. -/
def named (buf : Bytes) (pos : Nat) (err : Err) : Read (Bytes × Nat) :=
  match decode_name buf pos with
  | none => .error (.nil err)
  | some r => .ok r

/-! ## Records -/

def TYPE_A : Nat := 1
def TYPE_NS : Nat := 2
def TYPE_CNAME : Nat := 5
def TYPE_SOA : Nat := 6
def TYPE_PTR : Nat := 12
def TYPE_MX : Nat := 15
def TYPE_TXT : Nat := 16
def TYPE_AAAA : Nat := 28
def TYPE_SRV : Nat := 33
def TYPE_SPF : Nat := 99

def SECTION_AN : Nat := 1
def SECTION_NS : Nat := 2
def SECTION_AR : Nat := 3

/-- The fields of an answer that depend on its type. Texts are a string if there is one, and a table
otherwise. -/
inductive Data
  | address (s : String)
  | cname (name : Bytes)
  | mx (preference : Nat) (exchange : Bytes)
  | srv (priority weight port : Nat) (target : Bytes)
  | nsdname (name : Bytes)
  | txt (val : List Bytes)
  | spf (val : List Bytes)
  | ptrdname (name : Bytes)
  | soa (mname rname : Bytes) (serial refresh retry expire mininum : Int)
  | rdata (s : Bytes)

structure Answer where
  «section» : Nat
  name : Bytes
  type : Nat
  «class» : Nat
  ttl : Int
  data : Data

/-- `format("%x", n)` -/
def hex (n : Nat) : String := String.ofList (Nat.toDigits 16 n)

/-- `format("%02x", n)` -/
def hex2 (n : Nat) : String := String.ofList (if n < 16 then '0' :: Nat.toDigits 16 n else Nat.toDigits 16 n)

/-- `concat(addr_bytes, ".")` of the bytes that are there -/
def ipv4 (bytes : List Nat) : String := ".".intercalate (bytes.map toString)

/-- The loop that inserts the fields of an address, two bytes at a time. -/
def ipv6Fields : List Nat → List String
  | a :: b :: rest => (if a = 0 then hex b else hex a ++ hex2 b) :: ipv6Fields rest
  | _ => []

/-- `{ byte(buf, pos, last) }` -/
def bytesFrom (buf : Bytes) (pos last : Nat) : List Nat := (sub buf pos last).map UInt8.toNat

/-- The length of a record that is a name, when it is not `len`. -/
def badLength (what : String) (is len : Nat) : Stop :=
  .nil (.message ("bad " ++ what ++ " record length: " ++ toString is ++ " ~= " ++ toString len))

def badValueLength (what : String) (len : Nat) : Stop :=
  .nil (.message ("bad " ++ what ++ " record value length: " ++ toString len))

/-- A name at `start`, which ends the record that starts at `pos`. -/
def lastName (what : String) (buf : Bytes) (len pos start : Nat) : Read (Bytes × Nat) := do
  -- `return nil, pos`, where `pos` is a number
  let (name, p) ← named buf start (.pos pos)
  if p - pos ≠ len then .error (badLength what (p - pos) len) else return (name, p)

/-- The `repeat` loop over the texts before `last`. -/
def textLoop (buf : Bytes) (last pos : Nat) : Read (List Bytes × Nat) :=
  if pos < last then do
    let slen ← needed buf pos
    -- truncate the over-run TXT record data
    let slen := if pos + slen + 1 > last then last - pos - 1 else slen
    let (vals, p) ← textLoop buf last (pos + slen + 1)
    return (sub buf (pos + 1) (pos + slen) :: vals, p)
  else .ok ([], pos)
termination_by last - pos

def texts (buf : Bytes) (len pos : Nat) : Read (List Bytes × Nat) := do
  let slen ← needed buf pos
  -- truncate the over-run TXT record data
  let slen := if slen + 1 > len then len else slen
  let (vals, p) ← textLoop buf (pos + len) (pos + slen + 1)
  return (sub buf (pos + 1) (pos + slen) :: vals, p)

/-- What follows the length of a record. -/
def parseData (buf : Bytes) (typ len pos : Nat) : Read (Data × Nat) :=
  if typ = TYPE_A then
    if len ≠ 4 then .error (badValueLength "A" len)
    else .ok (.address (ipv4 (bytesFrom buf pos (pos + 3))), pos + 4)
  else if typ = TYPE_CNAME then do
    let (cname, p) ← lastName "cname" buf len pos pos
    return (.cname cname, p)
  else if typ = TYPE_AAAA then
    if len ≠ 16 then .error (badValueLength "AAAA" len)
    else
      let addr_bytes := bytesFrom buf pos (pos + 15)
      -- `format` raises an error when a byte is missing
      if addr_bytes.length < 16 then .error .raise
      else .ok (.address (":".intercalate (ipv6Fields addr_bytes)), pos + 16)
  else if typ = TYPE_MX then
    if len < 3 then .error (badValueLength "MX" len)
    else do
      let preference ← u16 buf pos
      let (host, p) ← lastName "cname" buf len pos (pos + 2)
      return (.mx preference host, p)
  else if typ = TYPE_SRV then
    if len < 7 then .error (badValueLength "SRV" len)
    else do
      let priority ← u16 buf pos
      let weight ← u16 buf (pos + 2)
      let port ← u16 buf (pos + 4)
      let (target, p) ← lastName "srv" buf len pos (pos + 6)
      return (.srv priority weight port target, p)
  else if typ = TYPE_NS then do
    let (name, p) ← lastName "cname" buf len pos pos
    return (.nsdname name, p)
  else if typ = TYPE_TXT ∨ typ = TYPE_SPF then do
    let (val, p) ← texts buf len pos
    return (if typ = TYPE_TXT then .txt val else .spf val, p)
  else if typ = TYPE_PTR then do
    let (name, p) ← lastName "cname" buf len pos pos
    return (.ptrdname name, p)
  else if typ = TYPE_SOA then do
    let (mname, p) ← named buf pos (.pos pos)
    -- `pos = p` here, and not again
    let pos := p
    let (rname, p) ← named buf pos (.pos pos)
    let serial ← u32 buf p
    let refresh ← u32 buf (p + 4)
    let retry ← u32 buf (p + 8)
    let expire ← u32 buf (p + 12)
    let mininum ← u32 buf (p + 16)
    return (.soa mname rname serial refresh retry expire mininum, pos)
  else
    -- for unknown types, just forward the raw value
    .ok (.rdata (sub buf pos (pos + len - 1)), pos + len)

/-- A turn of the loop of `parse_section`. -/
def parseRecord («section» : Nat) (buf : Bytes) (pos : Nat) : Read (Answer × Nat) := do
  let (name, pos) ← named buf pos (.message "truncated")
  let type ← u16 buf pos
  let «class» ← u16 buf (pos + 2)
  let ttl ← u32 buf (pos + 4)
  let len ← u16 buf (pos + 8)
  let (data, p) ← parseData buf type len (pos + 10)
  return ({ «section», name, type, «class», ttl, data }, p)

/-- `parse_section`: the answers, and the position behind the section. -/
def parse_section («section» : Nat) (buf : Bytes) (start_pos : Nat) : Nat → Read (List Answer × Nat)
  | 0 => .ok ([], start_pos)
  | size + 1 => do
    let (ans, pos) ← parseRecord «section» buf start_pos
    let (answers, pos) ← parse_section «section» buf pos size
    return (ans :: answers, pos)

/-! ## Responses -/

structure Opts where
  qtype : Option Nat
  authority_section : Bool
  additional_section : Bool

/-- The answers, with the error code and its text when there is one. -/
structure Answers where
  answers : List Answer
  err : Option (Nat × String)

def resolver_errstrs : List String := ["format error", "server failure", "name error", "not implemented", "refused"]

def errOf (code : Nat) : Option (Nat × String) :=
  if code ≠ 0 then some (code, (resolver_errstrs[code - 1]?).getD "unknown") else none

/-- What is checked before the answer goes on. -/
def refuse (c : Prop) [Decidable c] (msg : String) : Read Unit :=
  if c then .error (.nil (.message msg)) else .ok ()

/-- What is known when the question has been read. -/
structure Header where
  code : Nat
  nan : Nat
  nns : Nat
  nar : Nat
  /-- The position behind the question. -/
  pos : Nat

/-- `parse_response`, to the end of the question. -/
def parseHeader (buf : Bytes) (id : Nat) : Read Header := do
  refuse (buf.length < 12) "truncated"
  let ans_id ← u16 buf 1
  refuse (ans_id ≠ id) "id mismatch"
  let flags ← u16 buf 3
  refuse (flags &&& 0x8000 = 0) "bad QR flag in the DNS response"
  refuse (flags &&& 0x200 ≠ 0) "truncated"
  let nqs ← u16 buf 5
  refuse (nqs ≠ 1) ("bad number of questions in DNS response: " ++ toString nqs)
  let nan ← u16 buf 7
  let nns ← u16 buf 9
  let nar ← u16 buf 11
  -- skip the question part
  let (_, pos) ← named buf 13 (.message "truncated")
  refuse (pos + 3 + nan * 12 > buf.length) "truncated"
  -- question section layout: qname qtype(2) qclass(2)
  let qclass ← u16 buf (pos + 2)
  refuse (qclass ≠ 1) ("unknown query class " ++ toString qclass ++ " in DNS response")
  return { code := flags &&& 0xf, nan, nns, nar, pos := pos + 4 }

/-- The authority section is read for an SOA query too. -/
def Opts.authority (opts : Opts) : Bool := opts.authority_section || decide (opts.qtype = some TYPE_SOA)

/-- `parse_response`, where no option is set when none are given. -/
def parse_response (buf : Bytes) (id : Nat) (opts : Opts) : Read Answers := do
  let header ← parseHeader buf id
  let err := errOf header.code
  let (an, pos) ← parse_section SECTION_AN buf header.pos header.nan
  if !opts.authority && !opts.additional_section then return { answers := an, err }
  else
    let (ns, pos) ← parse_section SECTION_NS buf pos header.nns
    let answers := if opts.authority then an ++ ns else an
    if !opts.additional_section then return { answers, err }
    else
      let (ar, _) ← parse_section SECTION_AR buf pos header.nar
      return { answers := answers ++ ar, err }

end OpenResty.Resty.DnsResolver
