/-
kong/plugins/ldap-auth/asn1.lua: `ASN1Encoder` and `ASN1Decoder` on numbers, booleans,
strings and nil. The tables, object identifiers and sequences are left out.

`lua_pack` is a parameter. The `bit` library of LuaJIT has no `mod`, so a length from 128 on
raises. A number is a double: where a sum needs more than 53 bits, it is rounded.
-/
import OpenResty.Lib.Der
import OpenResty.Lua.Value
import OpenResty.Waf.HexDecode

namespace OpenResty.Kong.Asn1

open Lib Waf

/-! ## `lua_pack` -/

/-- The formats of `string.pack` and `string.unpack` that are used; unpacking returns the
position behind what it has read first. -/
structure LuaPack where
  packHex : Bytes → Bytes
  packByte : Nat → Bytes
  packNull : Bytes
  unpackHex : Nat → Bytes → Nat → Nat × Option Bytes
  unpackByte : Bytes → Nat → Nat × Option Nat
  unpackStr : Nat → Bytes → Nat → Nat × Option Bytes

def text (s : String) : Bytes := s.toList.map Char.toUInt8

def upperDigit (n : Nat) : UInt8 := UInt8.ofNat (if n < 10 then n + '0'.toNat else n - 10 + 'A'.toNat)

def hexText (bs : Bytes) : Bytes := bs.flatMap fun b => [upperDigit (b.toNat / 16), upperDigit (b.toNat % 16)]

/-- The `n` bytes at a position, counted from 1. -/
def slice (s : Bytes) (pos n : Nat) : Bytes := (s.drop (pos - 1)).take n

/-- What the formats are documented to do: `X` hexadecimal digits in which blanks do not count,
`C` a byte, `x` a null byte, `A` bytes. -/
structure LuaPack.Documented (lp : LuaPack) : Prop where
  packHex (s : Bytes) : EvenHex (s.filter (· ≠ ' '.toUInt8)) → lp.packHex s = hexBytes (s.filter (· ≠ ' '.toUInt8))
  packByte (n : Nat) : n < 256 → lp.packByte n = [UInt8.ofNat n]
  packNull : lp.packNull = [0]
  unpackHex (n : Nat) (s : Bytes) (pos : Nat) : 0 < pos → pos + n ≤ s.length + 1 →
    lp.unpackHex n s pos = (pos + n, some (hexText (slice s pos n)))
  unpackByte (s : Bytes) (pos : Nat) (b : UInt8) : 0 < pos → slice s pos 1 = [b] →
    lp.unpackByte s pos = (pos + 1, some b.toNat)
  unpackStr (n : Nat) (s : Bytes) (pos : Nat) : 0 < pos → pos + n ≤ s.length + 1 →
    lp.unpackStr n s pos = (pos + n, some (slice s pos n))

/-! ## Numbers -/

/-- The double next to an integer. -/
def double (z : Int) : Int :=
  let unit : Int := 2 ^ (Nat.log2 z.natAbs + 1 - 53)
  Lua.roundEven ((z : Rat) / unit) * unit

/-- How a call goes wrong. -/
inductive Failure
  | raised (message : String)
  | endless
deriving DecidableEq

variable (lp : LuaPack)

/-- The loop that takes the bytes off a number, the least significant first, and the last of them. -/
def byteLoop (val : Nat) (valStr : Bytes) (lsb : Nat) : Bytes × Nat :=
  if val > 0 then byteLoop (val / 256) (valStr ++ lp.packByte (val % 256)) (val % 256) else (valStr, lsb)
termination_by val
decreasing_by exact Nat.div_lt_self (by assumption) (by decide)

/-- The loop that makes a negative number positive, from byte `i` on; a double has at most 128 bytes. -/
def growLoop : Nat → Nat → Int → Option Int
  | 0, _, _ => none
  | fuel + 1, i, tcval => if tcval ≤ 127 then growLoop fuel (i + 1) (double (tcval + 256 ^ i * 255)) else some tcval

def encodeInt (val : Int) : Except Failure Bytes :=
  if val > 0 then
    let (valStr, lsb) := byteLoop lp val.toNat [] 0
    .ok (if lsb > 127 then valStr ++ [0] else valStr).reverse
  else if val < 0 then
    match growLoop 128 1 (double (val + 256)) with
    | some tcval => .ok (byteLoop lp tcval.toNat [] 0).1.reverse
    | none => .error .endless
  else .ok lp.packNull

/-- `tonumber(hexStr, 16)`: `strtoul` stops at the largest number of its type. -/
def tonumber16 (hexStr : Bytes) : Option Int :=
  match strtoul16 hexStr with
  | some (n, []) => some (double (min n (2 ^ 64 - 1) : Nat))
  | _ => none

def decodeInt (encStr : Bytes) (len pos : Nat) : Except Failure (Nat × Int) :=
  let (pos, hexStr) := lp.unpackHex len encStr pos
  match hexStr.bind tonumber16 with
  | none => .error (.raised "attempt to compare number with nil")
  | some value => .ok (pos, if 2 * value ≥ 256 ^ len then double (value - 256 ^ len) else value)

/-! ## Values -/

inductive Value
  | num (val : Int)
  | bool (val : Bool)
  | str (val : Bytes)
  | null
deriving DecidableEq

def encodeLength (len : Nat) : Except Failure Bytes :=
  if len < 128 then .ok [UInt8.ofNat len] else .error (.raised "attempt to call field 'mod' (a nil value)")

def encode : Value → Except Failure Bytes
  | .num val => do
    let ival ← encodeInt lp val
    let len ← encodeLength ival.length
    return lp.packHex (text "02") ++ len ++ ival
  | .bool true => .ok (lp.packHex (text "01 01 FF"))
  | .bool false => .ok (lp.packHex (text "01 01 00"))
  | .str val => do
    let len ← encodeLength val.length
    return lp.packHex (text "04") ++ len ++ val
  | .null => .ok (lp.packHex (text "05 00"))

/-- The bytes of a long length. -/
def longLength (encStr : Bytes) : Nat → Nat → Nat → Except Failure (Nat × Nat)
  | 0, pos, elenCalc => .ok (pos, elenCalc)
  | n + 1, pos, elenCalc =>
    match lp.unpackByte encStr pos with
    | (_, none) => .error (.raised "attempt to perform arithmetic on a nil value")
    | (pos, some elenNext) => longLength encStr n pos (elenCalc * 256 + elenNext)

def decodeLength (encStr : Bytes) (pos : Nat) : Except Failure (Nat × Nat) :=
  match lp.unpackByte encStr pos with
  | (_, none) => .error (.raised "attempt to compare number with nil")
  | (pos, some elen) => if elen > 128 then longLength lp encStr (elen - 128) pos 0 else .ok (pos, elen)

/-- The decoder of a boolean: `val` is the position, the first value that `bunpack` returns. -/
def decodeBool (encStr : Bytes) (pos : Nat) : Nat × Value :=
  let val : Lua.Scalar := .num (lp.unpackHex 1 encStr pos).1
  if val ≠ .str "FF" then (pos, .bool true) else (pos, .bool false)

/-- `decode`; without a decoder for the tag there is no value. -/
def decode (encStr : Bytes) (pos : Nat) : Except Failure (Nat × Option Value) := do
  let (newpos, etype) := lp.unpackHex 1 encStr pos
  let (newpos, elen) ← decodeLength lp encStr newpos
  if etype = some (text "02") ∨ etype = some (text "0A") then
    let (pos, value) ← decodeInt lp encStr elen newpos
    return (pos, some (.num value))
  else if etype = some (text "04") ∨ etype = some (text "8A") then
    let (pos, value) := lp.unpackStr elen encStr newpos
    return (pos, value.map .str)
  else if etype = some (text "01") then
    let (pos, value) := decodeBool lp encStr newpos
    return (pos, some value)
  else if etype = some (text "05") then return (newpos, some (.bool false))
  else return (newpos, none)

end OpenResty.Kong.Asn1
