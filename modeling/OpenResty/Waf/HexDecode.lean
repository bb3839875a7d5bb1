/-
`util.hex_encode` and `util.hex_decode`, and the transform `sql_hex_decode`.

The decoder goes through the text in pairs of bytes and leaves the odd one at the end as it is;
what `tonumber` makes of a pair is a number for more than two digits.
-/
import OpenResty.Lib.Memory

namespace OpenResty.Waf

open Lib Option List

/-! ## Numbers to base 16 -/

/-- The number a hexadecimal digit stands for. -/
def hexValue (c : UInt8) : Option Nat :=
  if '0'.toUInt8 ≤ c ∧ c ≤ '9'.toUInt8 then some (c.toNat - '0'.toNat)
  else if 'a'.toUInt8 ≤ c ∧ c ≤ 'f'.toUInt8 then some (c.toNat - 'a'.toNat + 10)
  else if 'A'.toUInt8 ≤ c ∧ c ≤ 'F'.toUInt8 then some (c.toNat - 'A'.toNat + 10)
  else none

/-- Tab to carriage return, and the blank. -/
def isSpace (c : UInt8) : Bool := (9 ≤ c && c ≤ 13) || c == 32

/-- The digits at the start of a text, and what follows them. -/
def hexDigits : Nat → Bytes → Nat × Bytes
  | n, [] => (n, [])
  | n, c :: cs =>
    match hexValue c with
    | some d => hexDigits (n * 16 + d) cs
    | none => (n, c :: cs)

/-- `0x` or `0X`, when a digit follows it. -/
def skipMark : Bytes → Bytes
  | z :: x :: d :: cs =>
    if z = '0'.toUInt8 ∧ (x = 'x'.toUInt8 ∨ x = 'X'.toUInt8) ∧ (hexValue d).isSome then d :: cs else z :: x :: d :: cs
  | cs => cs

/-- `strtoul(p, &ep, 16)`: the number and what follows it, if there is one. -/
def strtoul16 (p : Bytes) : Option (Nat × Bytes) :=
  let p := p.dropWhile isSpace
  let negative := p.head? = some '-'.toUInt8
  let p := skipMark (if negative ∨ p.head? = some '+'.toUInt8 then p.tail else p)
  match p with
  | [] => none
  | c :: _ =>
    if (hexValue c).isNone then none
    else
      let (n, ep) := hexDigits 0 p
      -- two digits at most: there is no number too large
      some (if negative then (2 ^ 64 - n) % 2 ^ 64 else n, ep)

/-- `tonumber(cc, 16)`, which reads the text up to a NUL. -/
def tonumber16 (cc : Bytes) : Option Nat :=
  match strtoul16 (cc.takeWhile (· ≠ 0)) with
  | some (n, ep) => if ep.dropWhile isSpace = [] then some n else none
  | none => none

/-- `string.char`, which raises for what is no byte. -/
def stringChar (n : Option Nat) : Option UInt8 :=
  match n with
  | some n => if n < 256 then some (UInt8.ofNat n) else none
  | none => none

/-- What the decoder makes of a pair, unless it raises. -/
def readPair (a b : UInt8) : Option UInt8 := stringChar (tonumber16 [a, b])

/-! ## The functions -/

def hexDigit (n : Nat) : UInt8 := UInt8.ofNat (if n < 10 then n + '0'.toNat else n - 10 + 'a'.toNat)

/-- `%02x` -/
def hexByte (c : UInt8) : Bytes := [hexDigit (c.toNat / 16), hexDigit (c.toNat % 16)]

def hexEncode (str : Bytes) : Bytes := str.flatMap hexByte

/-- `str:gsub('..', function (cc) return string_char(tonumber(cc, 16)) end)` -/
def decodePairs : Bytes → Option Bytes
  | a :: b :: str => do
    let c ← readPair a b
    return c :: (← decodePairs str)
  | str => some str

def hexDecode (str : Bytes) : Bytes := (decodePairs str).getD str

/-- `string_find(value, '0x', 1, true)` -/
def hasMark : Bytes → Bool
  | z :: x :: value => (z == '0'.toUInt8 && x == 'x'.toUInt8) || hasMark (x :: value)
  | _ => false

def sqlHexDecode (value : Bytes) : Bytes := if hasMark value then hexDecode (value.drop 2) else value

/-! ## What they are to do -/

/-- Digits, two for each byte. -/
def EvenHex (str : Bytes) : Prop := str.length % 2 = 0 ∧ ∀ c ∈ str, (hexValue c).isSome

/-- The bytes that pairs of digits stand for. -/
def hexBytes : Bytes → Bytes
  | a :: b :: str => UInt8.ofNat ((hexValue a).getD 0 * 16 + (hexValue b).getD 0) :: hexBytes str
  | _ => []

/-- `0x` and digits, at least one pair of them. -/
def HexLiteral (value digits : Bytes) : Prop :=
  value = '0'.toUInt8 :: 'x'.toUInt8 :: digits ∧ digits ≠ [] ∧ EvenHex digits

structure HexRight (s : Bytes) : Prop where
  round_trip : hexDecode (hexEncode s) = s
  unchanged : ¬ EvenHex s → hexDecode s = s
  literal : ∀ digits, HexLiteral s digits → sqlHexDecode s = hexBytes digits
  other : (¬ ∃ digits, HexLiteral s digits) → sqlHexDecode s = s

/-- A text that is cut in pairs, one of which is read as no byte. -/
def Unreadable (s : Bytes) : Prop := ∃ pairs a b rest, s = pairs ++ a :: b :: rest ∧ pairs.length % 2 = 0 ∧
    readPair a b = none

/-- Unless it is digits, the text has no pair or one that cannot be read; unless it is a literal,
it has no `0x` anywhere. -/
structure HexCareful (s : Bytes) : Prop where
  pairs : EvenHex s ∨ s.length ≤ 1 ∨ Unreadable s
  mark : hasMark s = false ∨ ∃ digits, HexLiteral s digits

/-! ## Pairs -/

/-- A digit is no blank, no sign and no NUL, and stands for less than sixteen. -/
theorem digit_plain (a : UInt8) : (hexValue a).isSome →
    isSpace a = false ∧ a ≠ '-'.toUInt8 ∧ a ≠ '+'.toUInt8 ∧ a ≠ 0 ∧ (hexValue a).getD 0 < 16 :=
  forall_byte (p := fun a => (hexValue a).isSome →
    isSpace a = false ∧ a ≠ '-'.toUInt8 ∧ a ≠ '+'.toUInt8 ∧ a ≠ 0 ∧ (hexValue a).getD 0 < 16) (by decide +kernel) a

theorem readPair_digits {a b : UInt8} (ha : (hexValue a).isSome) (hb : (hexValue b).isSome) :
    readPair a b = some (UInt8.ofNat ((hexValue a).getD 0 * 16 + (hexValue b).getD 0)) := by
  obtain ⟨hspace, hminus, hplus, hnul, hlt⟩ := digit_plain a ha
  obtain ⟨-, -, -, hnul', hlt'⟩ := digit_plain b hb
  obtain ⟨n, hn⟩ := isSome_iff_exists.mp ha
  obtain ⟨m, hm⟩ := isSome_iff_exists.mp hb
  rw [hn, getD_some] at hlt
  rw [hm, getD_some] at hlt'
  have hbyte : n * 16 + m < 256 := by omega
  simp [readPair, stringChar, tonumber16, strtoul16, skipMark, hexDigits, hspace, hminus, hplus, hnul, hnul',
    hn, hm, hbyte]

/-- The two digits of a byte. -/
theorem hexDigit_spec (c : UInt8) :
    (hexValue (hexDigit (c.toNat / 16))).isSome ∧ (hexValue (hexDigit (c.toNat % 16))).isSome ∧
      UInt8.ofNat ((hexValue (hexDigit (c.toNat / 16))).getD 0 * 16 +
        (hexValue (hexDigit (c.toNat % 16))).getD 0) = c :=
  forall_byte (p := fun c => (hexValue (hexDigit (c.toNat / 16))).isSome ∧
    (hexValue (hexDigit (c.toNat % 16))).isSome ∧
      UInt8.ofNat ((hexValue (hexDigit (c.toNat / 16))).getD 0 * 16 +
        (hexValue (hexDigit (c.toNat % 16))).getD 0) = c)
    (by decide +kernel) c

variable {digits s : Bytes}

theorem evenHex_cons {a b : UInt8} :
    EvenHex (a :: b :: s) ↔ (hexValue a).isSome ∧ (hexValue b).isSome ∧ EvenHex s := by
  unfold EvenHex
  simp only [length_cons, forall_mem_cons]
  constructor
  · rintro ⟨hlength, ha, hb, hs⟩
    exact ⟨ha, hb, by omega, hs⟩
  · rintro ⟨ha, hb, hlength, hs⟩
    exact ⟨by omega, ha, hb, hs⟩

/-- Pairs of digits are decoded. -/
theorem decodePairs_evenHex (h : EvenHex s) : decodePairs s = some (hexBytes s) := by
  fun_induction decodePairs s with
  | case1 a b s ih =>
    obtain ⟨ha, hb, hs⟩ := evenHex_cons.mp h
    rw [readPair_digits ha hb, ih hs]
    rfl
  | case2 s hno =>
    cases s with
    | nil => rfl
    | cons c s =>
      cases s with
      | nil => exact absurd h.1 (by simp)
      | cons d s => exact absurd rfl (hno c d s)

theorem evenHex_hexEncode (s : Bytes) : EvenHex (hexEncode s) ∧ hexBytes (hexEncode s) = s := by
  induction s with
  | nil => exact ⟨⟨rfl, fun c hc => by cases hc⟩, rfl⟩
  | cons c s ih =>
    obtain ⟨ha, hb, hc⟩ := hexDigit_spec c
    have hcons : hexEncode (c :: s) = hexDigit (c.toNat / 16) :: hexDigit (c.toNat % 16) :: hexEncode s := rfl
    rw [hcons]
    exact ⟨evenHex_cons.mpr ⟨ha, hb, ih.1⟩, by rw [hexBytes, hc, ih.2]⟩

/-- Decoding makes one byte of a pair. -/
theorem length_decodePairs {t : Bytes} (h : decodePairs s = some t) : 2 * t.length ≤ s.length + 1 := by
  fun_induction decodePairs s generalizing t with
  | case1 a b s ih =>
    cases hpair : readPair a b with
    | none =>
      rw [hpair] at h
      cases h
    | some c =>
      cases hrest : decodePairs s with
      | none =>
        rw [hpair, hrest] at h
        cases h
      | some t' =>
        rw [hpair, hrest] at h
        cases h
        have := ih hrest
        simp only [length_cons]
        omega
  | case2 s hno =>
    cases h
    cases s with
    | nil => simp
    | cons c s =>
      cases s with
      | nil => simp
      | cons d s => exact absurd rfl (hno c d s)

/-- Behind a pair that is read it is the rest that counts. -/
theorem unreadable_cons {a b : UInt8} (h : readPair a b ≠ none) : Unreadable (a :: b :: s) ↔ Unreadable s := by
  constructor
  · rintro ⟨pairs, a', b', rest, heq, heven, hpair⟩
    cases pairs with
    | nil =>
      cases heq
      exact absurd hpair h
    | cons x pairs =>
      cases pairs with
      | nil => exact absurd heven (by simp)
      | cons y pairs =>
        cases heq
        refine ⟨pairs, a', b', rest, rfl, ?_, hpair⟩
        simp only [length_cons] at heven
        omega
  · rintro ⟨pairs, a', b', rest, rfl, heven, hpair⟩
    refine ⟨a :: b :: pairs, a', b', rest, rfl, ?_, hpair⟩
    simp only [length_cons]
    omega

theorem decodePairs_eq_none : decodePairs s = none ↔ Unreadable s := by
  fun_induction decodePairs s with
  | case1 a b s ih =>
    cases hpair : readPair a b with
    | none => exact iff_of_true rfl ⟨[], a, b, s, rfl, rfl, hpair⟩
    | some c =>
      rw [unreadable_cons (by rw [hpair]; exact some_ne_none c), ← ih]
      cases decodePairs s with
      | none => exact iff_of_true rfl rfl
      | some t => exact iff_of_false (fun h => by cases h) (fun h => by cases h)
  | case2 s hno =>
    refine iff_of_false (fun h => by cases h) ?_
    rintro ⟨pairs, a, b, rest, rfl, -, -⟩
    cases pairs with
    | nil => exact hno a b rest rfl
    | cons x pairs =>
      cases pairs with
      | nil => exact hno x a (b :: rest) rfl
      | cons y pairs => exact hno x y (pairs ++ a :: b :: rest) rfl

/-! ## The mark -/

theorem length_of_hasMark (h : hasMark s = true) : 2 ≤ s.length := by
  fun_induction hasMark s with
  | case1 z x value ih => simp
  | case2 s hno => cases h

theorem hasMark_literal (h : HexLiteral s digits) : hasMark s = true := by
  rw [h.1]
  rfl

/-! ## The functions -/

/-- What is not digits is given back if it has no pair, or one that cannot be read. -/
theorem hexDecode_eq_self : hexDecode s = s ↔ s.length ≤ 1 ∨ Unreadable s := by
  rw [← decodePairs_eq_none]
  unfold hexDecode
  cases h : decodePairs s with
  | none => exact iff_of_true rfl (.inr rfl)
  | some t =>
    have hlength := length_decodePairs h
    rw [getD_some]
    constructor
    · rintro rfl
      exact .inl (by omega)
    · rintro (hshort | hnone)
      · cases s with
        | nil =>
          cases h
          rfl
        | cons c s =>
          cases s with
          | nil =>
            cases h
            rfl
          | cons d s => exact absurd hshort (by simp)
      · cases hnone

theorem length_hexDecode (s : Bytes) : (hexDecode s).length ≤ s.length := by
  unfold hexDecode
  cases h : decodePairs s with
  | none => exact Nat.le_refl _
  | some t =>
    have hlength := length_decodePairs h
    cases t with
    | nil => exact Nat.zero_le _
    | cons c t =>
      simp only [getD_some, length_cons] at hlength ⊢
      omega

theorem hexDecode_hexEncode (s : Bytes) : hexDecode (hexEncode s) = s := by
  obtain ⟨heven, hbytes⟩ := evenHex_hexEncode s
  rw [hexDecode, decodePairs_evenHex heven, getD_some, hbytes]

theorem sqlHexDecode_literal (h : HexLiteral s digits) : sqlHexDecode s = hexBytes digits := by
  rw [sqlHexDecode, if_pos (hasMark_literal h), h.1]
  change hexDecode digits = hexBytes digits
  rw [hexDecode, decodePairs_evenHex h.2.2, getD_some]

/-- Two bytes are lost wherever the mark stands. -/
theorem sqlHexDecode_eq_self : sqlHexDecode s = s ↔ hasMark s = false := by
  cases hmark : hasMark s with
  | false => exact iff_of_true (if_neg (by simp [hmark])) rfl
  | true =>
    refine iff_of_false (fun heq => ?_) (by simp)
    have hlength := length_of_hasMark hmark
    have hdecoded := length_hexDecode (s.drop 2)
    rw [sqlHexDecode, if_pos hmark] at heq
    rw [heq, length_drop] at hdecoded
    omega

/-- **A text is handled as it should be exactly if it is no odd or half readable text of pairs and
has no `0x` but in front of digits.** -/
theorem hex_right_iff (s : Bytes) : HexRight s ↔ HexCareful s := by
  constructor
  · intro h
    refine ⟨?_, ?_⟩
    · by_cases heven : EvenHex s
      · exact .inl heven
      · exact .inr (hexDecode_eq_self.mp (h.unchanged heven))
    · by_cases hliteral : ∃ digits, HexLiteral s digits
      · exact .inr hliteral
      · exact .inl (sqlHexDecode_eq_self.mp (h.other hliteral))
  · intro h
    refine ⟨hexDecode_hexEncode s, fun heven => ?_, fun digits hliteral => sqlHexDecode_literal hliteral,
      fun hnot => ?_⟩
    · exact hexDecode_eq_self.mpr (h.pairs.resolve_left heven)
    · exact sqlHexDecode_eq_self.mpr (h.mark.resolve_right hnot)

/-- In `a0x41` the first two bytes are dropped, and nothing is decoded. -/
theorem hex_not_right : ¬ ∀ s, HexRight s := by
  intro h
  have hother := (h ("a0x41".toList.map Char.toUInt8)).other fun ⟨digits, hliteral⟩ => by
    have hhead : 'a'.toUInt8 = '0'.toUInt8 := some.inj (congrArg head? hliteral.1)
    exact absurd hhead (by decide)
  exact absurd hother (by decide)

end OpenResty.Waf
