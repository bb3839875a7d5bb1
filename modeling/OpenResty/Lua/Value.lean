/-
Lua values as the bundled Lua code handles them.

A Lua string is a `String` whose characters stand for its bytes. A number is
an exact rational: rounding, infinities and NaN are left out. `nil` is not a
value: what may be nil has an `Option` type, so a table never holds it.
A table is its array part, `1..n`, and the other pairs; metatables and
identity are left out (two tables are never raw-equal here, as two distinct
tables are in Lua).
-/
import Mathlib.Algebra.Order.Ring.Nat
import Mathlib.Algebra.Ring.Rat
import Mathlib.Data.Nat.Log
import Mathlib.Algebra.Order.Ring.Unbundled.Rat

namespace OpenResty.Lua

inductive Scalar
  | bool (b : Bool)
  | num (q : Rat)
  | str (s : String)
deriving DecidableEq, Repr

inductive Val
  | leaf (s : Scalar)
  | table (arr : List Val) (hash : List (Scalar × Val))
deriving Repr

instance : Coe Scalar Val := ⟨.leaf⟩

/-- A test of an optional value: only nil and `false` fail it. -/
def truthy : Option Val → Bool
  | none => false
  | some (.leaf (.bool b)) => b
  | some _ => true

/-- The pairs of a table, in the order of one traversal: the array part first. -/
def Val.pairs : Val → List (Scalar × Val)
  | .leaf _ => []
  | .table arr hash => (arr.mapIdx fun i v => (.num (i + 1 : Nat), v)) ++ hash

/-- What `ipairs` goes through. -/
def Val.ipairs : Val → List Val
  | .leaf _ => []
  | .table arr _ => arr

def Val.isTable : Val → Bool
  | .leaf _ => false
  | .table _ _ => true

/-- `t[k]` -/
def Val.index (t : Val) (k : Scalar) : Option Val := t.pairs.lookup k

/-- The array `{ vs[1], vs[2], ... }`. -/
def Val.array (vs : List Val) : Val := .table vs []

@[simp] theorem Val.ipairs_array (vs : List Val) : (Val.array vs).ipairs = vs := rfl

/-! ## Numbers and text -/

/-- The decimal digits of a 14-digit mantissa without its trailing zeros. -/
def stripZeros (ds : List Char) : List Char := (ds.reverse.dropWhile (· == '0')).reverse

/-- The exponent `e` with `10 ^ e ≤ q < 10 ^ (e + 1)`, for a positive `q`. -/
def expo (q : Rat) : Int :=
  let p := q.num.toNat
  if q.den ≤ p then (Nat.log 10 (p / q.den) : Int) else -(Nat.clog 10 ((q.den + p - 1) / p) : Int)

/-- Round half to even. -/
def roundEven (q : Rat) : Int :=
  let f := q.floor
  let r := q - f
  if r < 1 / 2 then f else if 1 / 2 < r then f + 1 else if f % 2 = 0 then f else f + 1

/-- The 14-digit mantissa and the exponent of a positive number. -/
def mantissa14 (q : Rat) : Int × Int :=
  let e₀ := expo q
  let m₀ := roundEven (q * (10 : Rat) ^ (13 - e₀))
  if m₀ = 10 ^ 14 then ((10 : Int) ^ 13, e₀ + 1) else (m₀, e₀)

/-- Digits with a point before `frac`, less its trailing zeros. -/
def point (int frac : List Char) : List Char :=
  if stripZeros frac = [] then int else int ++ '.' :: stripZeros frac

/-- The text of a mantissa and an exponent. -/
def layout14 (m e : Int) : List Char :=
  let ds := (toString m).toList
  if e < -4 ∨ 14 ≤ e then
    let x := (toString e.natAbs).toList
    point (ds.take 1) (ds.drop 1) ++ (if e < 0 then ['e', '-'] else ['e', '+']) ++
      (if x.length < 2 then '0' :: x else x)
  else if e < 0 then
    point ['0'] (List.replicate (e.natAbs - 1) '0' ++ ds)
  else
    point (ds.take (e.toNat + 1)) (ds.drop (e.toNat + 1))

/-- `%.14g` of a positive number. -/
def fmt14 (q : Rat) : String := String.ofList (layout14 (mantissa14 q).1 (mantissa14 q).2)

/-- `tostring` of a number: `%.14g`, which for an integer of at most 14 digits is the integer. -/
def numToString (q : Rat) : String :=
  if q.den = 1 ∧ q.num.natAbs < 10 ^ 14 then toString q.num
  else if q < 0 then "-" ++ fmt14 (-q)
  else fmt14 q

def Scalar.tostring : Scalar → String
  | .bool b => if b then "true" else "false"
  | .num q => numToString q
  | .str s => s

/-- `tostring` of a value. A table's address is not modelled. -/
def Val.tostring : Val → String
  | .leaf s => s.tostring
  | .table _ _ => "table"

/-- The characters Lua's `%s` and PCRE's `\s` both match. -/
def isSpace (c : Char) : Bool := c == ' ' || ('\t' ≤ c && c ≤ '\r')

/-- `string.upper` and `string.lower` -/
def upper (s : String) : String := String.ofList (s.toList.map Char.toUpper)
def lower (s : String) : String := String.ofList (s.toList.map Char.toLower)

def digitsVal (base : Nat) (ds : List Nat) : Nat := ds.foldl (fun n d => n * base + d) 0

def hexDigit? (c : Char) : Option Nat :=
  if '0' ≤ c ∧ c ≤ '9' then some (c.toNat - '0'.toNat)
  else if 'a' ≤ c ∧ c ≤ 'f' then some (c.toNat - 'a'.toNat + 10)
  else if 'A' ≤ c ∧ c ≤ 'F' then some (c.toNat - 'A'.toNat + 10)
  else none

def decDigit? (c : Char) : Option Nat :=
  if '0' ≤ c ∧ c ≤ '9' then some (c.toNat - '0'.toNat) else none

/-- The longest prefix of digits, and the rest. -/
def spanDigits (digit? : Char → Option Nat) : List Char → List Nat × List Char
  | [] => ([], [])
  | c :: cs =>
    match digit? c with
    | none => ([], c :: cs)
    | some d => let (ds, rest) := spanDigits digit? cs; (d :: ds, rest)

/-- An exponent part that ends the text: its value, or `none` when the text is not one. -/
def exponent? : List Char → Option Int
  | [] => some 0
  | c :: cs =>
    if c = 'e' ∨ c = 'E' then
      let (sign, cs) : Int × List Char :=
        match cs with
        | '-' :: cs => (-1, cs)
        | '+' :: cs => (1, cs)
        | cs => (1, cs)
      match spanDigits decDigit? cs with
      | (d :: ds, []) => some (sign * digitsVal 10 (d :: ds))
      | _ => none
    else none

/-- An unsigned numeral that is the whole text. -/
def unsigned? : List Char → Option Rat
  | '0' :: 'x' :: cs | '0' :: 'X' :: cs =>
    match spanDigits hexDigit? cs with
    | (d :: ds, []) => some (digitsVal 16 (d :: ds))
    | _ => none
  | cs =>
    let (int, rest) := spanDigits decDigit? cs
    let (frac, rest) :=
      match rest with
      | '.' :: rest => spanDigits decDigit? rest
      | rest => ([], rest)
    if int = [] ∧ frac = [] then none
    else (exponent? rest).map fun (e : Int) =>
      (digitsVal 10 (int ++ frac) : Rat) * (10 : Rat) ^ (e - frac.length)

def trimSpace (cs : List Char) : List Char :=
  ((cs.dropWhile isSpace).reverse.dropWhile isSpace).reverse

/-- `tonumber` of a string -/
def tonumber (s : String) : Option Rat :=
  match trimSpace s.toList with
  | '-' :: cs => (unsigned? cs).map (- ·)
  | '+' :: cs => unsigned? cs
  | cs => unsigned? cs

/-- `tonumber(s) and tonumber(s) or s` -/
def numOrStr (s : String) : Scalar :=
  match tonumber s with
  | some q => .num q
  | none => .str s

end OpenResty.Lua
