/-
`resty.upload`: the parts of a form read from the body of a request.

What `receiveuntil` and `receive` read is the rest of the body. How long the
chunks are that a call with a size gives, when it does not come to the pattern,
depends on the pattern and on how the body arrives.
-/
import OpenResty.Lib.Memory
import OpenResty.Lib.Until

namespace OpenResty.Resty.Upload

open Lib

def crlf : Bytes := [13, 10]

def dashes : Bytes := [45, 45]

def bytes (text : String) : Bytes := text.toUTF8.toList

/-! ## The socket -/

structure Socket where
  /-- how much a call gives when the pattern is further away: by the pattern, the
  size asked for and what is left of the body -/
  chunk : Bytes → Nat → Bytes → Nat
  chunk_pos : ∀ pattern size rest, 0 < size → 0 < chunk pattern size rest
  /-- of a pattern of two bytes there is nothing to give back -/
  chunk_crlf : ∀ size rest, chunk crlf size rest = size

/-- What a call of an iterator returns: a chunk, nothing at the end, or the error
`closed`. -/
inductive Got
  | chunk (bs : Bytes)
  | finished
  | closed

/-- A call of the iterator that `receiveuntil` makes: with what is left, and
whether the next call has nothing to return. -/
def receiveuntil (sock : Socket) (pattern : Bytes) (matched : Bool) (size : Nat) (rest : Bytes) : Got × Bool × Bytes :=
  if matched then (.finished, false, rest)
  else
    let (data, tail) :=
      match before pattern rest with
      | some (data, tail) => (data, some tail)
      | none => (rest, none)
    let n := sock.chunk pattern size rest
    if size ≠ 0 ∧ n ≤ data.length then (.chunk (data.take n), false, rest.drop n)
    else
      match tail with
      -- without a size there is one chunk, and no call for its end
      | some tail => (.chunk data, size ≠ 0, tail)
      | none => (.closed, false, [])

/-! ## The reader -/

inductive State
  | begin
  | reading_header
  | reading_body
  | eof
  deriving DecidableEq

structure Conf where
  sock : Socket
  boundary : Bytes
  /-- it is part of a header -/
  boundary_line : 13 ∉ boundary
  size : Nat
  line_size : Nat

structure Reader where
  state : State
  /-- the pattern of `read2boundary` -/
  pattern : Bytes
  /-- of `read2boundary`, and of `read_line` -/
  boundaryMatched : Bool
  lineMatched : Bool
  /-- what is left of the body -/
  rest : Bytes
  deriving DecidableEq

/-- What a call of `read` returns. -/
inductive Event
  | header (line : Bytes) (field : Option (Bytes × Bytes))
  | body (chunk : Bytes)
  | part_end
  | eof
  | failed (err : Option Bytes)
  /-- an error of Lua -/
  | raised
  /-- the call does not return -/
  | hangs

variable (c : Conf)

/-- `new` -/
def new (body : Bytes) : Reader where
  state := .begin
  pattern := dashes ++ c.boundary
  boundaryMatched := false
  lineMatched := false
  rest := body

def read2boundary (r : Reader) : Got × Reader :=
  let (got, boundaryMatched, rest) := receiveuntil c.sock r.pattern r.boundaryMatched c.size r.rest
  (got, { r with boundaryMatched, rest })

def read_line (r : Reader) (size : Nat) : Got × Reader :=
  let (got, lineMatched, rest) := receiveuntil c.sock crlf r.lineMatched size r.rest
  (got, { r with lineMatched, rest })

def closed : Option Bytes := some (bytes "closed")

def lineTooLong (line dummy : Bytes) : Option Bytes := some (bytes "line too long: " ++ line ++ dummy ++ bytes "...")

/-- Without an error when there is nothing to report. -/
def discard_line (r : Reader) : Except (Option Bytes) Unit × Reader :=
  match read_line c r c.line_size with
  | (.closed, r) => (.error closed, r)
  | (.finished, r) => (.error none, r)
  | (.chunk line, r) =>
    match read_line c r 1 with
    | (.chunk dummy, r) => (.error (lineTooLong line dummy), r)
    | (.closed, r) => (.error closed, r)
    | (.finished, r) => (.ok (), r)

/-- `receive(2)` -/
def receive2 (r : Reader) : Option Bytes × Reader :=
  if 2 ≤ r.rest.length then (some (r.rest.take 2), { r with rest := r.rest.drop 2 }) else (none, { r with rest := [] })

/-- `discard_rest` returns when the body is closed, which a size of 0 does not come
to. -/
def read_body_part (r : Reader) : Event × Reader :=
  match read2boundary c r with
  | (.closed, r) => (.failed closed, r)
  | (.chunk chunk, r) => (.body chunk, r)
  | (.finished, r) =>
    let (data, r) := receive2 r
    if data = some dashes then
      if c.size = 0 then (.hangs, r) else (.part_end, { r with state := .eof, rest := [] })
    else if data = some crlf then (.part_end, { r with state := .reading_header })
    else
      match discard_line c r with
      | (.error err, r) => (.failed err, r)
      | (.ok (), r) => (.part_end, { r with state := .reading_header })

def isSpace (b : UInt8) : Bool := b = 32 ∨ 9 ≤ b ∧ b ≤ 13

/-- The pattern `([^: \t]+)%s*:%s*(.+)` at the beginning of a text: a longest key is
also one that leads to a match if any does, and what follows a colon is not all
space, or else its last space is the value. -/
def matchHere (line : Bytes) : Option (Bytes × Bytes) :=
  let key := line.takeWhile fun b => b ≠ 58 ∧ b ≠ 32 ∧ b ≠ 9
  match (line.drop key.length).dropWhile isSpace with
  | 58 :: value =>
    if key = [] ∨ value = [] then none
    else
      match value.dropWhile isSpace with
      | [] => some (key, value.drop (value.length - 1))
      | value => some (key, value)
  | _ => none

/-- `match(line, "([^: \t]+)%s*:%s*(.+)")` -/
def matchField (line : Bytes) : Option (Bytes × Bytes) := line.tails.findSome? matchHere

def read_header (r : Reader) : Event × Reader :=
  match read_line c r c.line_size with
  | (.closed, r) => (.failed closed, r)
  | (.finished, r) =>
    -- there is no line to match
    match read_line c r 1 with
    | (.closed, r) => (.failed closed, r)
    | (_, r) => (.raised, r)
  | (.chunk line, r) =>
    match read_line c r 1 with
    | (.chunk dummy, r) => (.failed (lineTooLong line dummy), r)
    | (.closed, r) => (.failed closed, r)
    | (.finished, r) =>
      -- after the last header
      if line = [] then read_body_part c { r with state := .reading_body }
      else (.header line (matchField line), r)

/-- The loop that discards the preamble, which takes no more rounds than there are
bytes. -/
def discardPreamble : Nat → Reader → Reader
  | 0, r => r
  | n + 1, r =>
    match read2boundary c r with
    | (.chunk _, r) => discardPreamble n r
    | (_, r) => r

def read_preamble (r : Reader) : Event × Reader :=
  let r := discardPreamble c (r.rest.length + 1) r
  match discard_line c r with
  | (.error err, r) => (.failed err, r)
  | (.ok (), r) =>
    read_header c { r with pattern := crlf ++ dashes ++ c.boundary, boundaryMatched := false, state := .reading_header }

def read (r : Reader) : Event × Reader :=
  match r.state with
  | .begin => read_preamble c r
  | .reading_header => read_header c r
  | .reading_body => read_body_part c r
  | .eof => (.eof, r)

/-! ## Forms -/

/-- The end of a line and the boundary. -/
def Conf.delimiter : Bytes := crlf ++ dashes ++ c.boundary

structure Part where
  headers : List Bytes
  body : Bytes
  header_line : ∀ line ∈ headers, line ≠ [] ∧ ¬crlf <:+: line ∧ line.length < c.line_size
  body_free : ¬c.delimiter <:+: body

/-- What may be between a boundary and the end of its line. -/
structure Padding where
  bytes : Bytes
  blank : ∀ b ∈ bytes, b = 32 ∨ b = 9

/-- The body of a request; each part has the padding of the boundary behind it. -/
structure Form where
  /-- with the end of its last line -/
  preamble : Bytes
  padding : Padding
  parts : List (Part c × Padding)
  epilogue : Bytes

variable {c : Conf}

def encodeHeaders (headers : List Bytes) : Bytes := headers.flatMap (· ++ crlf)

/-- A part with what is behind it. -/
def Part.encode (part : Part c) (rest : Bytes) : Bytes := encodeHeaders part.headers ++ crlf ++ part.body ++ c.delimiter ++ rest

def encodeParts (epilogue : Bytes) : List (Part c × Padding) → Bytes
  | [] => []
  | [(part, padding)] => part.encode (dashes ++ padding.bytes ++ epilogue)
  | (part, padding) :: part' :: parts => part.encode (padding.bytes ++ crlf ++ encodeParts epilogue (part' :: parts))

/-- Without parts there is a closing boundary only. -/
def Form.encode (form : Form c) : Bytes :=
  form.preamble ++ (dashes ++ c.boundary) ++
    if form.parts = [] then dashes ++ form.padding.bytes ++ form.epilogue
    else form.padding.bytes ++ crlf ++ encodeParts form.epilogue form.parts

/-! ## What is to hold -/

/-- Calls of `read` return these events, one after the other. -/
def Yields (c : Conf) : Reader → List Event → Reader → Prop
  | r, [], r' => r = r'
  | r, e :: es, r' => (read c r).1 = e ∧ Yields c (read c r).2 es r'

def headerEvent (line : Bytes) : Event := .header line (matchField line)

/-- Of each part the headers, its body in chunks and `part_end`, and after the last
part nothing but `eof`. -/
def ReadsParts (c : Conf) : List (Part c) → Reader → Prop
  | [], r => read c r = (.eof, r)
  | part :: parts, r => ∃ (chunks : List Bytes) (r' : Reader), chunks.flatten = part.body ∧
      Yields c r (part.headers.map headerEvent ++ chunks.map .body ++ [.part_end]) r' ∧ ReadsParts c parts r'

def Right (form : Form c) : Prop := ReadsParts c (form.parts.map Prod.fst) (new c form.encode)

/-- There is a part, chunks have a size, the paddings are shorter than a line may
be, and none but the first and the last is one byte. -/
structure Careful (form : Form c) : Prop where
  parts : form.parts ≠ []
  size : 0 < c.size
  first : form.padding.bytes.length < c.line_size
  later : ∀ part ∈ form.parts.dropLast, part.2.bytes.length ≠ 1 ∧ part.2.bytes.length < c.line_size + 2

end OpenResty.Resty.Upload
