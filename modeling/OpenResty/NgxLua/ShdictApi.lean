/-
The shared dictionaries as Lua sees them: the C API of `ngx_http_lua_shdict.c`,
and `resty.core.shdict` over the FFI functions, with what each makes of the
arguments and gives back.

An argument of a kind that one of the two does not take at all is left out.
-/
import Mathlib.Data.Rat.Floor
import OpenResty.NgxLua.Shdict

namespace OpenResty.NgxLua.Shdict

open Lib

variable {N : Type}

/-! ## Arguments and results -/

/-- The integral part. -/
def trunc (q : Rat) : Int := if 0 ≤ q then q.floor else q.ceil

/-- What both use of Lua and its numbers. Keys, times and flags are finite
numbers; a number that is stored is any. -/
structure Lua (N : Type) where
  tostring : Rat → Bytes
  tonumber : Bytes → Option N
  /-- A product with 1000, rounded. -/
  thousandfold : Rat → Rat
  /-- What the FFI passes for a number where an `int` is expected. -/
  toInt : Rat → Int
  thousandfold_zero : thousandfold 0 = 0
  thousandfold_nonneg : ∀ q, 0 ≤ q → 0 ≤ thousandfold q
  toInt_lt : ∀ q, toInt q < 2 ^ 31
  toInt_trunc : ∀ q, -2 ^ 31 ≤ trunc q → trunc q < 2 ^ 31 → toInt q = trunc q

inductive KeyArg
  | nil
  | string (s : Bytes)
  | number (q : Rat)

inductive ValueArg (N : Type)
  | nil
  | value (v : Value N)
  /-- a table, a function, a thread or userdata -/
  | other

/-- A number, or a string for one. -/
inductive NumArg (N : Type)
  | number (n : N)
  | string (s : Bytes)

/-- The optional arguments after the value, `exptime` and `flags`. -/
abbrev Opts := Option (Rat × Option Rat)

def Opts.exptime (opts : Opts) : Rat := opts.elim 0 (·.1)

def Opts.flags (opts : Opts) : Rat := (opts.bind (·.2)).getD 0

/-- A value given back; messages are strings too. -/
inductive Ret (N : Type)
  | nil
  | boolean (b : Bool)
  | number (n : N)
  | integer (i : Int)
  | string (s : Bytes)
  | message (s : String)

def Value.ret : Value N → Ret N
  | .boolean b => .boolean b
  | .number n => .number n
  | .string s => .string s

/-- What is given back, unless an error is raised, and the dictionary then. -/
abbrev Outcome (N : Type) := Option (List (Ret N)) × Shctx N

/-- The checks of `key` that every function starts with, in C and in Lua. -/
def checkKey (lua : Lua N) (key : KeyArg) : Except String Bytes :=
  let check (key : Bytes) : Except String Bytes :=
    if key.length = 0 then .error "empty key" else if 65535 < key.length then .error "key too long" else .ok key
  match key with
  | .nil => .error "nil key"
  | .string s => check s
  | .number q => check (lua.tostring q)

/-- `tonumber`, or `luaL_checknumber` -/
def NumArg.number? (lua : Lua N) : NumArg N → Option N
  | .number n => some n
  | .string s => lua.tonumber s

/-- The bits `NGX_HTTP_LUA_SHDICT_ADD`, `REPLACE` and `SAFE_STORE` -/
def StoreOp.ofBits (op : Nat) : StoreOp :=
  { add := op.testBit 0, replace := op.testBit 1, safe_store := op.testBit 2 }

/-! ## The C API -/

namespace Capi

variable (lua : Lua N) (z : Zone) (now : Nat) (slab : Slab)

/-- What `ngx_http_lua_shdict_set_helper` pushes at the end. -/
def storeRets (op : StoreOp) : Stored → List (Ret N)
  | .ok forcible => [.boolean true, .nil, .boolean forcible]
  | .exists => [.boolean false, .message "exists", .boolean false]
  | .notFound => [.boolean false, .message "not found", .boolean false]
  | .noMemory forcible =>
    if op.safe_store then [.boolean false, .message "no memory"]
    else [.boolean false, .message "no memory", .boolean forcible]

/-- `ngx_http_lua_shdict_set_helper` -/
def setHelper (flags : Nat) (key : KeyArg) (value : ValueArg N) (opts : Opts) (d : Shctx N) : Outcome N :=
  let op := StoreOp.ofBits flags
  let store (key : Bytes) (value : Option (Value N)) : Outcome N :=
    if opts.exptime < 0 then (none, d)
    else
      let ttl := if 0 < opts.exptime then some (trunc (lua.thousandfold opts.exptime)).toNat else none
      let user_flags := (trunc opts.flags % 2 ^ 32).toNat
      let (r, d) := d.store z now slab op { key, value, ttl, user_flags }
      (some (storeRets op r), d)
  match checkKey lua key with
  | .error msg => (some [.nil, .message msg], d)
  | .ok key =>
    match value with
    | .value v => store key (some v)
    | .nil =>
      if op.add ∨ op.replace then (some [.nil, .message "attempt to add or replace nil values"],
        d) else store key none
    | .other => (some [.nil, .message "bad value type"], d)

def set := setHelper lua z now slab 0
def safeSet := setHelper lua z now slab 0x0004
def add := setHelper lua z now slab 0x0001
def safeAdd := setHelper lua z now slab (0x0001 ||| 0x0004)
def replace := setHelper lua z now slab 0x0002

def delete (key : KeyArg) (d : Shctx N) : Outcome N := setHelper lua z now slab 0 key .nil none d

/-- `ngx_http_lua_shdict_get_helper` -/
def getHelper (get_stale : Bool) (key : KeyArg) (d : Shctx N) : Outcome N :=
  match checkKey lua key with
  | .error msg => (some [.nil, .message msg], d)
  | .ok key =>
    let (r, d) := d.get z now key get_stale
    let rets :=
      match r with
      | .missing => some [.nil]
      | .isList => some [.nil, .message "value is a list"]
      | .badSize => none
      | .value v user_flags stale =>
        if get_stale then some [v.ret, if user_flags ≠ 0 then .integer user_flags else .nil, .boolean stale]
        else if user_flags ≠ 0 then some [v.ret, .integer user_flags]
        else some [v.ret]
    (rets, d)

def get := getHelper lua z now false
def getStale := getHelper lua z now true

/-- What `ngx_http_lua_shdict_incr` pushes at the end. -/
def incrRets : Incremented N → List (Ret N)
  | .added num => [.number num, .nil]
  | .created num forcible => [.number num, .nil, .boolean forcible]
  | .notFound => [.nil, .message "not found"]
  | .notNumber => [.nil, .message "not a number"]
  | .noMemory forcible => [.boolean false, .message "no memory", .boolean forcible]

/-- `ngx_http_lua_shdict_incr` -/
def incr [Add N] (key : KeyArg) (value : NumArg N) (init : Option (NumArg N)) (d : Shctx N) : Outcome N :=
  match checkKey lua key with
  | .error msg => (some [.nil, .message msg], d)
  | .ok key =>
    match value.number? lua, init.map (·.number? lua) with
    | none, _ | _, some none => (none, d)
    | some value, init =>
      let (r, d) := d.incr z now slab key value init.join
      (some (incrRets r), d)

end Capi

/-! ## The FFI -/

namespace Ffi

variable (lua : Lua N) (z : Zone) (now : Nat) (slab : Slab)

/-- An `int`, of an unsigned one. -/
def int (n : Nat) : Int := if n < 2 ^ 31 then n else (n : Int) - 2 ^ 32

/-- `NGX_OK`, or another code with `*errmsg`; and `*forcible`. -/
def storeRc : Stored → Except String Unit × Bool
  | .ok forcible => (.ok (), forcible)
  | .exists => (.error "exists", false)
  | .notFound => (.error "not found", false)
  | .noMemory forcible => (.error "no memory", forcible)

/-- `ngx_http_lua_ffi_shdict_store` -/
def ffiShdictStore (op : StoreOp) (key : Bytes) (value : Option (Value N)) (exptime user_flags : Int) (d : Shctx N) :
    (Except String Unit × Bool) × Shctx N :=
  if value.isNone ∧ (op.add ∨ op.replace) then ((.error "attempt to add or replace nil values", false), d)
  else
    let ttl := if 0 < exptime then some exptime.toNat else none
    let (r, d) := d.store z now slab op { key, value, ttl, user_flags := (user_flags % 2 ^ 32).toNat }
    (storeRc r, d)

/-- What `shdict_store` makes of the code. -/
def storeRets : Except String Unit × Bool → List (Ret N)
  | (.ok (), forcible) => [.boolean true, .nil, .boolean forcible]
  | (.error errmsg, forcible) => [.boolean false, .message errmsg, .boolean forcible]

/-- `shdict_store` -/
def shdictStore (op : Nat) (key : KeyArg) (value : ValueArg N) (opts : Opts) (d : Shctx N) : Outcome N :=
  let store (key : Bytes) (value : Option (Value N)) : Outcome N :=
    let (rc, d) :=
      ffiShdictStore z now slab (.ofBits op) key value (lua.toInt (lua.thousandfold opts.exptime))
        (lua.toInt opts.flags) d
    (some (storeRets rc), d)
  if opts.exptime < 0 then (none, d)
  else
    match checkKey lua key with
    | .error msg => (some [.nil, .message msg], d)
    | .ok key =>
      match value with
      | .value v => store key (some v)
      | .nil => store key none
      | .other => (some [.nil, .message "bad value type"], d)

def shdictSet := shdictStore lua z now slab 0
def shdictSafeSet := shdictStore lua z now slab 0x0004
def shdictAdd := shdictStore lua z now slab 0x0001
def shdictSafeAdd := shdictStore lua z now slab 0x0005
def shdictReplace := shdictStore lua z now slab 0x0002

def shdictDelete (key : KeyArg) (d : Shctx N) : Outcome N := shdictSet lua z now slab key .nil none d

/-- What `ngx_http_lua_ffi_shdict_get` writes: a value, its flags as an `int`
and whether it is stale, or no value; or an error, maybe with a message. -/
def ffiShdictGet (key : Bytes) (get_stale : Bool) (d : Shctx N) :
    Except (Option String) (Option (Value N × Int × Bool)) × Shctx N :=
  let (r, d) := d.get z now key get_stale
  let out :=
    match r with
    | .missing => .ok none
    | .isList => .error (some "value is a list")
    | .badSize => .error none
    | .value v user_flags stale => .ok (some (v, int user_flags, stale))
  (out, d)

def shdictGet (key : KeyArg) (d : Shctx N) : Outcome N :=
  match checkKey lua key with
  | .error msg => (some [.nil, .message msg], d)
  | .ok key =>
    match ffiShdictGet z now key false d with
    | (.error (some errmsg), d) => (some [.nil, .message errmsg], d)
    | (.error none, d) => (none, d)
    | (.ok none, d) => (some [.nil], d)
    | (.ok (some (val, flags, _)), d) => (some (if flags ≠ 0 then [val.ret, .integer flags] else [val.ret]), d)

def shdictGetStale (key : KeyArg) (d : Shctx N) : Outcome N :=
  match checkKey lua key with
  | .error msg => (some [.nil, .message msg], d)
  | .ok key =>
    match ffiShdictGet z now key true d with
    | (.error (some errmsg), d) => (some [.nil, .message errmsg], d)
    | (.error none, d) => (none, d)
    | (.ok none, d) => (some [.nil], d)
    | (.ok (some (val, flags, is_stale)), d) =>
      (some (if flags ≠ 0 then [val.ret, .integer flags, .boolean is_stale] else [val.ret, .nil,
        .boolean is_stale]), d)

/-- The new `*value`, or a code with `*err`; and `*forcible`. -/
def incrRc : Incremented N → Except String N × Bool
  | .added num => (.ok num, false)
  | .created num forcible => (.ok num, forcible)
  | .notFound => (.error "not found", false)
  | .notNumber => (.error "not a number", false)
  | .noMemory forcible => (.error "no memory", forcible)

/-- `ngx_http_lua_ffi_shdict_incr` -/
def ffiShdictIncr [Add N] (key : Bytes) (value : N) (init : Option N) (d : Shctx N) :
    (Except String N × Bool) × Shctx N :=
  let (r, d) := d.incr z now slab key value init
  (incrRc r, d)

/-- What `shdict_incr` makes of the code. -/
def incrRets (has_init : Bool) : Except String N × Bool → List (Ret N)
  | (.error errmsg, _) => [.nil, .message errmsg]
  | (.ok num, forcible) => if has_init then [.number num, .nil, .boolean forcible] else [.number num]

def shdictIncr [Add N] (key : KeyArg) (value : NumArg N) (init : Option (NumArg N)) (d : Shctx N) : Outcome N :=
  match checkKey lua key with
  | .error msg => (some [.nil, .message msg], d)
  | .ok key =>
    match value.number? lua, init.map (·.number? lua) with
    | none, _ | _, some none => (none, d)
    | some value, init =>
      let (rc, d) := ffiShdictIncr z now slab key value init.join d
      (some (incrRets init.isSome rc), d)

end Ffi

/-! ## A call of either -/

inductive Call (N : Type)
  | set (key : KeyArg) (value : ValueArg N) (opts : Opts)
  | safeSet (key : KeyArg) (value : ValueArg N) (opts : Opts)
  | add (key : KeyArg) (value : ValueArg N) (opts : Opts)
  | safeAdd (key : KeyArg) (value : ValueArg N) (opts : Opts)
  | replace (key : KeyArg) (value : ValueArg N) (opts : Opts)
  | delete (key : KeyArg)
  | get (key : KeyArg)
  | getStale (key : KeyArg)
  | incr (key : KeyArg) (value : NumArg N) (init : Option (NumArg N))

def Call.capi [Add N] (lua : Lua N) (z : Zone) (now : Nat) (slab : Slab) (d : Shctx N) : Call N → Outcome N
  | .set key value opts => Capi.set lua z now slab key value opts d
  | .safeSet key value opts => Capi.safeSet lua z now slab key value opts d
  | .add key value opts => Capi.add lua z now slab key value opts d
  | .safeAdd key value opts => Capi.safeAdd lua z now slab key value opts d
  | .replace key value opts => Capi.replace lua z now slab key value opts d
  | .delete key => Capi.delete lua z now slab key d
  | .get key => Capi.get lua z now key d
  | .getStale key => Capi.getStale lua z now key d
  | .incr key value init => Capi.incr lua z now slab key value init d

def Call.ffi [Add N] (lua : Lua N) (z : Zone) (now : Nat) (slab : Slab) (d : Shctx N) : Call N → Outcome N
  | .set key value opts => Ffi.shdictSet lua z now slab key value opts d
  | .safeSet key value opts => Ffi.shdictSafeSet lua z now slab key value opts d
  | .add key value opts => Ffi.shdictAdd lua z now slab key value opts d
  | .safeAdd key value opts => Ffi.shdictSafeAdd lua z now slab key value opts d
  | .replace key value opts => Ffi.shdictReplace lua z now slab key value opts d
  | .delete key => Ffi.shdictDelete lua z now slab key d
  | .get key => Ffi.shdictGet lua z now key d
  | .getStale key => Ffi.shdictGetStale lua z now key d
  | .incr key value init => Ffi.shdictIncr lua z now slab key value init d

end OpenResty.NgxLua.Shdict
