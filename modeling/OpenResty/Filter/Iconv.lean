/-
The body filter and `set_iconv` of `ngx_http_iconv_module.c`, with any converter that
keeps no state between the characters.

The converter is one that `iconv_open` has opened and the allocations succeed. Logging is
left out.
-/
import OpenResty.Filter.Buf

namespace OpenResty.Filter.Iconv

/-- What a converter sees at the front of its input. -/
inductive Front
  /-- A character of `k` bytes, and the bytes that it is converted to. -/
  | char (k : Nat) (out : Bytes)
  /-- `EILSEQ` -/
  | invalid
  /-- `EINVAL`: what is there may begin a character. -/
  | incomplete

/-- A converter. In a room that is too small it stops with `E2BIG`, and it may do so before
it looks at the input; `longest` is as long as any character of the output. -/
structure Converter where
  front : Bytes → Front
  full : Bytes → Nat → Bool
  longest : Nat
  longest_pos : 0 < longest
  char_sound : ∀ data k out, front data = .char k out → 0 < k ∧ k ≤ data.length
  invalid_ne : ∀ data, front data = .invalid → data ≠ []
  char_stable : ∀ data more k out, front data = .char k out → front (data ++ more) = .char k out
  invalid_stable : ∀ data more, front data = .invalid → front (data ++ more) = .invalid
  full_of_lt : ∀ data k out room, front data = .char k out → room < out.length → full data room = true
  lt_of_full : ∀ data room, full data room = true → room < longest

/-- What `iconv` returns. -/
inductive Rv
  | converted
  | E2BIG
  | EILSEQ
  | EINVAL

variable (cd : Converter)

/-- `iconv` on at most `n` characters: what it returns, what it writes and the input that is left. -/
def iconvFrom : Nat → Bytes → Nat → Rv × Bytes × Bytes
  | _, [], _ => (.converted, [], [])
  | 0, data, _ => (.E2BIG, [], data)
  | n + 1, data, room =>
    if cd.full data room then (.E2BIG, [], data)
    else
      match cd.front data with
      | .char k out =>
        let (rv, more, data) := iconvFrom n (data.drop k) (room - out.length)
        (rv, out ++ more, data)
      | .invalid => (.EILSEQ, [], data)
      | .incomplete => (.EINVAL, [], data)

def iconv (data : Bytes) (room : Nat) : Rv × Bytes × Bytes := iconvFrom cd data.length data room

/-- How the inner loop of `ngx_http_do_iconv` is left. -/
inductive Exit
  /-- The buffer is linked. -/
  | linked (b data : Bytes)
  /-- `goto conv_done`, with what `cv` has grown by. -/
  | conv_done (cv : Nat) (data : Bytes)

variable (iconv_buf_size : Nat)

/-- The inner loop of `ngx_http_do_iconv`, with `b` in the buffer; `none` without an end. -/
def convBuf : Nat → Bytes → Bytes → Option Exit
  | 0, _, _ => none
  | n + 1, b, data =>
    match iconv cd data (iconv_buf_size - b.length) with
    | (.EINVAL, out, data) => some (.conv_done (b ++ out).length data)
    | (.converted, out, data) | (.E2BIG, out, data) => some (.linked (b ++ out) data)
    | (.EILSEQ, _, []) => some (.conv_done 0 [])
    | (.EILSEQ, out, c :: data) =>
      -- without room the buffer is linked and the byte is seen again
      if iconv_buf_size - (b ++ out).length = 0 then some (.linked (b ++ out) (c :: data))
      else convBuf n (b ++ out ++ [63]) data

/-- `*c`, `*conved_bytes` and the bytes that `*rest_bytes` counts. -/
structure Conved where
  chain : List Bytes
  cv : Nat
  rest : Bytes

/-- The outer loop of `ngx_http_do_iconv`. -/
def convLoop : Nat → List Bytes → Nat → Bytes → Option Conved
  | 0, _, _, _ => none
  | n + 1, chain, cv, data =>
    if data = [] then some { chain, cv, rest := [] }
    else
      match convBuf cd iconv_buf_size (data.length + 1) [] data with
      | none => none
      | some (.linked b data) => convLoop n (chain ++ [b]) (cv + b.length) data
      | some (.conv_done k data) => some { chain, cv := cv + k, rest := data }

/-- `ngx_http_do_iconv`; a loop that goes on for longer than the data does not end. -/
def ngx_http_do_iconv (data : Bytes) : Option Conved := convLoop cd iconv_buf_size (data.length + 1) [] 0 data

/-- `res->len`, and the bytes that are copied to `res->data`. -/
structure Result where
  len : Nat
  data : Bytes

/-- `ngx_http_set_iconv_handler` -/
def ngx_http_set_iconv_handler (v : Bytes) : Option Result :=
  if v = [] then some { len := 0, data := [] }
  else (ngx_http_do_iconv cd iconv_buf_size v).map fun r => { len := r.cv, data := r.chain.flatten }

/-! ## The body filter -/

inductive Failure
  /-- `NGX_ERROR` -/
  | error
  /-- A null chain is dereferenced. -/
  | null
  | endless
  deriving DecidableEq

/-- The loop that copies the chain to `buf`, in `ngx_http_iconv_merge_chain_link`. -/
def copyChain (buf : Buf) : List Buf → Except Failure Buf
  | [] => .ok buf
  | cl :: rest =>
    let buf := { buf with data := buf.data ++ cl.data, sync := buf.sync || cl.sync, flush := buf.flush || cl.flush }
    if !cl.memory && !cl.special then .error .error
    else if cl.last_buf then .ok { buf with last_buf := true }
    else copyChain buf rest

/-- `ngx_http_iconv_merge_chain_link` -/
def ngx_http_iconv_merge_chain_link (uc : Bytes) (chain : List Buf) : Except Failure Buf := copyChain (temp_buf uc) chain

/-- `last_buf` is set in the last buffer of a chain. -/
def setLast : List Buf → Except Failure (List Buf)
  | [] => .error .null
  | [b] => .ok [{ b with last_buf := true }]
  | b :: b' :: bs => (setLast (b' :: bs)).map (b :: ·)

/-- `ngx_http_iconv_filter_convert`: `ctx->uc` and `*out`. -/
def ngx_http_iconv_filter_convert (buf : Buf) : Except Failure (Bytes × List Buf) :=
  if buf.data ≠ [] then
    match ngx_http_do_iconv cd iconv_buf_size buf.data with
    | none => .error .endless
    | some r => do
      let out := r.chain.map temp_buf
      let out ← if buf.last_buf then setLast out else pure out
      return (buf.data.drop (buf.data.length - r.rest.length), out)
  else .ok ([], [buf])

/-- `ngx_http_iconv_body_filter`: `ctx->uc`, and the chain that the next filter gets. -/
def ngx_http_iconv_body_filter (uc : Bytes) (chain : List Buf) : Except Failure (Bytes × List Buf) :=
  match chain with
  | [] => .ok (uc, [])
  | b :: _ =>
    if b.data = [] then .ok (uc, chain)
    else ngx_http_iconv_merge_chain_link uc chain >>= ngx_http_iconv_filter_convert cd iconv_buf_size

/-! ## A body on its way through the filter -/

/-- `ctx->uc`, the bytes and the buffers that have come in and gone out, whether the last
buffer has come, and what has gone wrong. -/
structure State where
  uc : Bytes
  received : Bytes
  out : List Buf
  ended : Bool
  failed : Option Failure
  deriving DecidableEq

def State.init : State := { uc := [], received := [], out := [], ended := false, failed := none }

/-- The bytes of a chain. -/
def bytes (chain : List Buf) : Bytes := chain.flatMap Buf.data

/-- A chain with the last buffer of the body. -/
def isLast (chain : List Buf) : Bool := chain.any Buf.last_buf

/-- A chain of buffers in memory, of which only the final one may be the last of the body.
The buffers that carry no more than a flag are among them. -/
def Delivered (chain : List Buf) : Prop :=
  (∀ b ∈ chain, b.memory = true ∨ b.special = true ∧ b.data = []) ∧ ∀ b ∈ chain.dropLast, b.last_buf = false

instance (chain : List Buf) : Decidable (Delivered chain) := inferInstanceAs (Decidable (_ ∧ _))

/-- A call of the filter. -/
def step (s : State) (chain : List Buf) : Option State :=
  if s.failed = none ∧ s.ended = false ∧ Delivered chain then
    let s := { s with received := s.received ++ bytes chain, ended := isLast chain }
    match ngx_http_iconv_body_filter cd iconv_buf_size s.uc chain with
    | .error e => some { s with failed := some e }
    | .ok (uc, out) => some { s with uc, out := s.out ++ out }
  else none

end OpenResty.Filter.Iconv
