/-
`ngx_http_lua_args.c`: query strings taken apart, by `ngx_http_lua_parse_args`
and by the two passes of the FFI.

The text between `q` and `p` is kept as such. Lengths and counts stay within
an `int`, as a Lua string does.
-/
import OpenResty.NgxLua.Uri

namespace OpenResty.NgxLua

open Lib

def NGX_HTTP_LUA_MAX_ARGS : Nat := 100

/-- A key with its value, or with `true`. -/
abbrev Pair := Bytes × Option Bytes

/-- What is read of a pair: its key once `=` was met, and the text since `q`. -/
structure Scan where
  key : Option Bytes
  text : Bytes

namespace Scan

def start : Scan := { key := none, text := [] }

def unescaped (s : Scan) : Bytes := unescapeUri .uriComponent s.text

def pair (s : Scan) : Pair :=
  match s.key with
  | some key => (key, some s.unescaped)
  | none => (s.unescaped, none)

/-- `p != q || parsing_value` -/
def pending (s : Scan) : Bool := !s.text.isEmpty || s.key.isSome

end Scan

/-! ## `ngx_http_lua_parse_args` -/

/-- Empty string key pairs are ignored. -/
def keepPair (p : Pair) : List Pair := if p.1.isEmpty then [] else [p]

/-- The pairs put into the table, in order. -/
def parseLoop (max : Int) : Nat → Scan → Bytes → List Pair
  | _, s, [] => if s.pending then keepPair s.pair else []
  | count, s, ch :: rest =>
    if ch = '='.toUInt8 ∧ s.key = none then parseLoop max count { key := some s.unescaped, text := [] } rest
    else if ch = '&'.toUInt8 then
      if 0 < max then
        if count + 1 = max then keepPair s.pair else keepPair s.pair ++ parseLoop max (count + 1) .start rest
      else keepPair s.pair ++ parseLoop max count .start rest
    else parseLoop max count { s with text := s.text ++ [ch] } rest

def parseArgs (args : Bytes) (max : Int) : List Pair := parseLoop max 0 .start args

/-- `ngx_http_lua_ngx_req_get_uri_args` -/
def getUriArgs (args : Bytes) (max : Int) : List Pair := if args.isEmpty then [] else parseArgs args max

/-! ## The FFI -/

def countLoop : Nat → Bytes → Nat
  | count, [] => count
  | count, ch :: rest =>
    countLoop (if ch = '&'.toUInt8 then if count = 0 then count + 2 else count + 1 else count) rest

/-- `ngx_http_lua_ffi_req_get_uri_args_count` -/
def getUriArgsCount (args : Bytes) (max : Int) : Nat :=
  let max := if max < 0 then (NGX_HTTP_LUA_MAX_ARGS : Int) else max
  let count := countLoop 0 args
  if count ≠ 0 then if 0 < max ∧ max < count then max.toNat else count
  else if args.isEmpty then 0 else 1

/-- A write of `out[i]` with `i` not below the count. -/
inductive Fault
  | overrun
deriving DecidableEq

/-- A write of `out[i]`. -/
def slot (count i : Nat) : Except Fault Unit := if i < count then .ok () else .error .overrun

/-- `out[i]` is complete unless its key is empty. -/
def saveElt (count i : Nat) (s : Scan) : Except Fault (List Pair) :=
  if s.pair.1.isEmpty then .ok [] else do slot count i; return [s.pair]

/-- The elements written from `out[i]` on. -/
def fillLoop (count : Nat) : Nat → Scan → Bytes → Except Fault (List Pair)
  | i, s, [] => if s.pending then saveElt count i s else .ok []
  | i, s, ch :: rest =>
    if ch = '='.toUInt8 ∧ s.key = none then do
      slot count i
      fillLoop count i { key := some s.unescaped, text := [] } rest
    else if ch = '&'.toUInt8 then do
      let out ← saveElt count i s
      let i := i + out.length
      if i = count then return out
      return out ++ (← fillLoop count i .start rest)
    else fillLoop count i { s with text := s.text ++ [ch] } rest

/-- `ngx_http_lua_ffi_req_get_uri_args` -/
def ffiReqGetUriArgs (args : Bytes) (count : Nat) : Except Fault (List Pair) :=
  if count = 0 then .ok [] else fillLoop count 0 .start args

/-- `ngx.req.get_uri_args` of `resty.core.request` -/
def ffiGetUriArgs (args : Bytes) (max : Int) : Except Fault (List Pair) :=
  let n := getUriArgsCount args max
  if n = 0 then .ok [] else ffiReqGetUriArgs args n

/-! ## What a query string says -/

/-- The pair that a piece without `&` stands for. -/
def pairOf (piece : Bytes) : Pair :=
  let key := piece.takeWhile (· != '='.toUInt8)
  match piece.drop key.length with
  | [] => (unescapeUri .uriComponent key, none)
  | _ :: value => (unescapeUri .uriComponent key, some (unescapeUri .uriComponent value))

/-- The pairs of a query string, those without a key too. -/
def pairs (args : Bytes) : List Pair := (args.splitOn '&'.toUInt8).map pairOf

def keyed (ps : List Pair) : List Pair := ps.filter fun p => !p.1.isEmpty

end OpenResty.NgxLua
