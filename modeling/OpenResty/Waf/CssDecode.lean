/-
`css_decode` of the decoding library: bytes written as themselves or as escapes are read back.

An escape of four to six digits for a full width letter stands for the letter of usual width, and
one white space character behind an escape belongs to it.
-/
import OpenResty.Waf.JsDecode

namespace OpenResty.Waf

open Lib

/-! ## The code -/

/-- Check for 1-6 hex characters following the backslash: the loop from `j` on, with `fuel` left. -/
def hexRun (s : Pass) : Nat → Nat → Option Nat
  | 0, j => some j
  | fuel + 1, j =>
    if s.i + j < s.buf.length then do
      if validHex (← s.read (s.i + j)) then hexRun s fuel (j + 1) else some j
    else some j

/-- Whether a full width check is requested for `j` digits: if what stands in front of the last
four is 0. -/
def fullcheck (s : Pass) (j : Nat) : Option Bool :=
  if j = 4 then some true
  else if j = 5 then (s.read s.i).map (· == '0'.toUInt8)
  else if j = 6 then do
    if ← (s.read s.i).map (· == '0'.toUInt8) then (s.read (s.i + 1)).map (· == '0'.toUInt8) else some false
  else some false

/-- The last two digits, or the only one. -/
def lowByte (s : Pass) (j : Nat) : Option UInt8 :=
  if j = 1 then (s.read s.i).map xsingle2c
  else do return x2c (← s.read (s.i + j - 2)) (← s.read (s.i + j - 1))

/-- Full width ASCII (0xff01 - 0xff5e) needs 0x20 added. -/
def needsAdding (s : Pass) (j : Nat) (fullcheck : Bool) (c : UInt8) : Option Bool :=
  if fullcheck && 0 < c && c < 0x5f then do
    if ← (s.read (s.i + j - 3)).map isF then (s.read (s.i + j - 4)).map isF else some false
  else some false

/-- We must ignore a single whitespace after a hex escape. -/
def spaceBehind (s : Pass) (j : Nat) : Option Bool :=
  if s.i + j < s.buf.length then (s.read (s.i + j)).map isSpace else some false

/-- The escape with `j` digits, from the first digit on. -/
def cssEscape (s : Pass) (j : Nat) : Option Pass := do
  let low ← lowByte s j
  let s := s.set low
  let full ← fullcheck s j
  let c ← s.read s.d
  let wide ← needsAdding s j full c
  let s := if wide then s.set (c + 0x20) else s
  let space ← spaceBehind s j
  return s.move 1 (if space then j + 1 else j)

/-- A turn of the loop. -/
def cssStep (s : Pass) : Option Pass := do
  if (← s.read s.i) = '\\'.toUInt8 then
    if s.i + 1 < s.buf.length then
      let s := s.move 0 1
      let j ← hexRun s 6 0
      if 0 < j then cssEscape s j
      else if (← s.read s.i) = '\n'.toUInt8 then return s.move 0 1
      else return (s.set (← s.read s.i)).move 1 1
    -- no characters after the backslash
    else return s.move 0 1
  else return (s.set (← s.read s.i)).move 1 1

/-- The bytes that are returned. The NUL written behind them is left out. -/
def cssDecode (input : Bytes) : Option Bytes := (Pass.loop cssStep input.length ⟨input, 0, 0⟩).map Pass.out

/-! ## Escapes -/

/-- The digits of an escape, up to six. -/
def cssDigits (cs : Bytes) : Bytes := (cs.takeWhile validHex).take 6

/-- The number that digits stand for. -/
def hexNumber (ds : Bytes) : Nat := ds.foldl (fun n c => n * 16 + (hexValue c).getD 0) 0

/-- The numbers of full width ASCII. -/
def FullWidth (n : Nat) : Prop := 0xff00 < n ∧ n < 0xff5f

instance (n : Nat) : Decidable (FullWidth n) := inferInstanceAs (Decidable (_ ∧ _))

/-- The byte that an escape stands for. -/
def cssValue (ds : Bytes) : UInt8 :=
  if FullWidth (hexNumber ds) then UInt8.ofNat (hexNumber ds) + 0x20 else UInt8.ofNat (hexNumber ds)

/-- Whether a white space character follows the digits. -/
def spaceAfter (ds cs : Bytes) : Nat := if ((cs.drop ds.length).head?.map isSpace).getD false then 1 else 0

def cssPiece : Piece
  | _, [] => ([], 0)
  | _, c :: cs =>
    if c = '\\'.toUInt8 then
      if cssDigits cs = [] then
        match cs with
        | [] => ([], 1)
        | e :: _ => if e = '\n'.toUInt8 then ([], 2) else ([e], 2)
      else ([cssValue (cssDigits cs)], 1 + (cssDigits cs).length + spaceAfter (cssDigits cs) cs)
    else ([c], 1)

/-! ## Written forms -/

/-- A byte as itself, or as digits behind a backslash and what ends them. -/
inductive Form
  | itself (c : UInt8)
  | escape (digits : Bytes) (blank : Option UInt8)

namespace Form

def text : Form → Bytes
  | itself c => [c]
  | escape digits blank => '\\'.toUInt8 :: (digits ++ blank.toList)

/-- The low byte of the number. -/
def low : Form → UInt8
  | itself c => c
  | escape digits _ => UInt8.ofNat (hexNumber digits)

/-- The low byte, with 0x20 added for a full width letter. -/
def value : Form → UInt8
  | itself c => c
  | escape digits _ => cssValue digits

/-- A backslash is not written as itself, and one to six digits are followed by white space or by
none, which cannot be in front of what needs it. -/
def Fits (needsBlank : Bytes → UInt8 → Prop) (next : Option UInt8) : Form → Prop
  | itself c => c ≠ '\\'.toUInt8
  | escape digits blank => digits ≠ [] ∧ digits.length ≤ 6 ∧ (∀ d ∈ digits, (hexValue d).isSome) ∧
      (∀ c ∈ blank, isSpace c = true) ∧ (blank = none → ∀ c ∈ next, ¬ needsBlank digits c)

end Form

def written (forms : List Form) : Bytes := forms.flatMap Form.text

/-- Every form fits what follows it. -/
def AllFit (needsBlank : Bytes → UInt8 → Prop) : List Form → Prop
  | [] => True
  | f :: forms => f.Fits needsBlank (written forms).head? ∧ AllFit needsBlank forms

/-- A digit would be taken for one more, up to six, and white space for the end. -/
def CssNeedsBlank (digits : Bytes) (c : UInt8) : Prop :=
  isSpace c = true ∨ (digits.length < 6 ∧ (hexValue c).isSome)

/-! ## The law -/

/-- The write position stays behind the read position, and nothing is read behind the end. -/
structure WithinInput (input : Bytes) : Prop where
  behind : ∀ s, Pass.Reaches cssStep ⟨input, 0, 0⟩ s → s.d ≤ s.i ∧ s.i ≤ input.length
  reads : ∀ s, Pass.Reaches cssStep ⟨input, 0, 0⟩ s → s.i < input.length → (cssStep s).isSome
  returns : (cssDecode input).isSome

/-- Whatever forms its bytes are written in, a text is read back. -/
def ReadsBack (needsBlank : Bytes → UInt8 → Prop) (value : Form → UInt8) : Prop :=
  ∀ s forms, AllFit needsBlank forms → forms.map value = s → cssDecode (written forms) = some s

end OpenResty.Waf
