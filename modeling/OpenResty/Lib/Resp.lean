/-
The reply format of the Redis protocol, in bytes.

A reply is one of five kinds; the elements of a multi-bulk reply are replies.
-/
import Mathlib.Data.Nat.Digits.Defs
import OpenResty.Lua.Numeral

namespace OpenResty.Lib.Resp

open Nat List

abbrev Bytes := List UInt8

def crlf : Bytes := [13, 10]

/-- The bytes of a text in ASCII. -/
def ascii (cs : List Char) : Bytes := cs.map fun c => UInt8.ofNat c.toNat

/-- The decimal digits of a number. -/
def decimal (n : Nat) : Bytes := ascii (toDigits 10 n)

def decimalInt : Int → Bytes
  | .ofNat n => decimal n
  | .negSucc n => 45 :: decimal (n + 1)

/-- A text on one line. -/
def Line := { s : Bytes // 13 ∉ s ∧ 10 ∉ s }

/-- A string that the Lua of the bundle can hold. -/
def LuaString := { s : Bytes // s.length < 2 ^ 31 }

/-- A reply without elements. -/
inductive Item
  | status (s : Line)
  | error (s : Line)
  | integer (n : Int)
  | bulk (s : LuaString)
  | null

def Item.encode : Item → Bytes
  | .status s => 43 :: (s.1 ++ crlf)
  | .error s => 45 :: (s.1 ++ crlf)
  | .integer n => 58 :: (decimalInt n ++ crlf)
  | .bulk s => 36 :: (decimal s.1.length ++ crlf ++ s.1 ++ crlf)
  | .null => 36 :: 45 :: 49 :: crlf

inductive Reply
  | item (i : Item)
  | multi (rs : List Reply)
  | nullMulti

mutual

def Reply.encode : Reply → Bytes
  | .item i => i.encode
  | .multi rs => 42 :: (decimal rs.length ++ crlf ++ encodeAll rs)
  | .nullMulti => 42 :: 45 :: 49 :: crlf

def encodeAll : List Reply → Bytes
  | [] => []
  | r :: rs => r.encode ++ encodeAll rs

end

/-- How deep the multi-bulk replies are nested. -/
def Reply.depth : Reply → Nat
  | .item _ => 0
  | .multi rs => depthAll rs + 1
  | .nullMulti => 0
where
  depthAll : List Reply → Nat
  | [] => 0
  | r :: rs => max r.depth (depthAll rs)

/-! ## Digits -/

/-- The byte of a decimal digit. -/
def digit (d : Nat) : UInt8 := UInt8.ofNat (48 + d)

variable {d n : Nat}

theorem ascii_digitChar (h : d < 10) : UInt8.ofNat d.digitChar.toNat = digit d := by
  revert d
  decide

theorem decimal_of_lt (h : n < 10) : decimal n = [digit n] := by
  rw [decimal, toDigits_of_lt_base h, ascii, map_singleton, ascii_digitChar h]

theorem decimal_of_le (h : 10 ≤ n) : decimal n = decimal (n / 10) ++ [digit (n % 10)] := by
  rw [decimal, toDigits_of_base_le (by decide) h, ascii, map_append, map_singleton,
    ascii_digitChar (mod_lt _ (by decide))]
  rfl

/-- Numbers by their decimal digits, the last one removed. -/
theorem decimal_induction {P : Nat → Prop} (digit : ∀ n < 10, P n) (append : ∀ n, 10 ≤ n → P (n / 10) → P n) (n : Nat) :
    P n := by
  induction n using Nat.strongRecOn with
  | ind n ih =>
    rcases Nat.lt_or_ge n 10 with h | h
    · exact digit n h
    · exact append n h (ih (n / 10) (by omega))

theorem decimal_ne_nil (n : Nat) : decimal n ≠ [] := by
  rcases Nat.lt_or_ge n 10 with h | h
  · rw [decimal_of_lt h]
    simp
  · rw [decimal_of_le h]
    simp

/-- The bytes of a numeral are digits. -/
theorem mem_decimal {b : UInt8} (h : b ∈ decimal n) : ∃ d < 10, b = digit d := by
  induction n using decimal_induction with
  | digit n hn =>
    rw [decimal_of_lt hn, mem_singleton] at h
    exact ⟨n, hn, h⟩
  | append n hn ih =>
    rw [decimal_of_le hn, mem_append, mem_singleton] at h
    exact h.elim ih fun h => ⟨n % 10, mod_lt _ (by decide), h⟩

theorem digit_ne (hd : d < 10) : digit d ≠ 13 ∧ digit d ≠ 10 ∧ digit d ≠ 45 := by
  revert d
  decide

/-- The text of an ASCII numeral. -/
def asText (bs : Bytes) : String := String.ofList (bs.map fun b => Char.ofNat b.toNat)

theorem asText_ascii {cs : List Char} (h : ∀ c ∈ cs, c.toNat < 256) : asText (ascii cs) = String.ofList cs := by
  rw [asText, ascii, map_map]
  congr 1
  refine (map_congr_left fun c hc => ?_).trans (map_id cs)
  simp [UInt8.toNat_ofNat', mod_eq_of_lt (h c hc)]

theorem asText_decimal (n : Nat) : asText (decimal n) = toString n := by
  refine (asText_ascii fun c hc => ?_).trans rfl
  have hdigit := isDigit_of_mem_toDigits (by decide) (by decide) hc
  simp only [Char.isDigit, Bool.and_eq_true, decide_eq_true_eq] at hdigit
  have hle : c.toNat ≤ '9'.toNat := hdigit.2
  exact Nat.lt_of_le_of_lt hle (by decide)

/-- The text of a number is its numeral. -/
theorem tonumber_decimalInt (n : Int) : Lua.tonumber (asText (decimalInt n)) = some (n : Rat) := by
  cases n with
  | ofNat n =>
    rw [decimalInt, asText_decimal]
    exact Lua.tonumber_repr n
  | negSucc n =>
    have htext : asText (45 :: decimal (n + 1)) = "-" ++ toString (n + 1) := by
      rw [← asText_decimal, asText, map_cons]
      exact (String.ofList_append : String.ofList (['-'] ++ _) = _)
    rw [decimalInt, htext, Lua.tonumber_neg, Int.cast_negSucc]

end OpenResty.Lib.Resp
