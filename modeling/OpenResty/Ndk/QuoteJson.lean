/-
The JSON string escaper of set-misc-nginx-module, `ngx_http_set_quote_json.c`, whose text is
that of rds-json-nginx-module, and the strings of JSON as its grammar reads them.
-/
import OpenResty.Filter.RdsJsonOutput
import OpenResty.Lib.Transducer
import OpenResty.Waf.HexDecode

namespace OpenResty.Ndk.QuoteJson

open Lib Lib.Transducer List
open Filter.RdsJson (lit escapeByte escapeByteCount length_escape copyOrEscape copyOrEscape_eq)

/-- `ngx_http_set_misc_escape_json_str` without a destination -/
def escapeCount : Bytes → Nat := Filter.RdsJson.escapeCount

/-- `ngx_http_set_misc_escape_json_str` -/
def escape_json_str : Bytes → Bytes := Filter.RdsJson.escape_json_str

/-- `ngx_http_set_misc_quote_json_str` of a variable that is found; `none` for its buffer error. -/
def quote_json_str (v : Bytes) : Option Bytes :=
  if v = [] then some (lit "null")
  else
    let escape := escapeCount v
    let len := (lit "''").length + v.length + escape
    let p := [34] ++ (if escape = 0 then v else escape_json_str v) ++ [34]
    if p.length = len then some p else none

/-! ## Strings of JSON -/

/-- What may stand behind a backslash alone, and the byte that it means. -/
def shortEscape (e : UInt8) : Option UInt8 :=
  if e = 34 ∨ e = 92 ∨ e = 47 then some e
  else if e = 98 then some 8
  else if e = 102 then some 12
  else if e = 110 then some 10
  else if e = 114 then some 13
  else if e = 116 then some 9
  else none

/-- The characters between the quotes. Nothing is said of the bytes from 128 on. -/
inductive Chars : Bytes → Prop
  | nil : Chars []
  | plain {c : UInt8} {rest : Bytes} : 32 ≤ c → c ≠ 34 → c ≠ 92 → Chars rest → Chars (c :: rest)
  | short {e b : UInt8} {rest : Bytes} : shortEscape e = some b → Chars rest → Chars (92 :: e :: rest)
  | code {ds rest : Bytes} : ds.length = 4 → (∀ d ∈ ds, (Waf.hexValue d).isSome = true) → Chars rest →
      Chars (92 :: 117 :: (ds ++ rest))

/-- Where a reader of the characters is: behind a backslash, or behind some digits of a code. -/
inductive Place
  | text
  | escaped
  | code (value digits : Nat)
deriving DecidableEq

/-- A code in UTF-8. Surrogates, which come in pairs, are left out. -/
def codeBytes (n : Nat) : Option Bytes := if n.isValidChar then some (String.utf8EncodeChar (Char.ofNat n)) else none

def readChar : Place → UInt8 → Option (Bytes × Place)
  | .text, c => if c = 34 ∨ c < 32 then none else if c = 92 then some ([], .escaped) else some ([c], .text)
  | .escaped, e => if e = 117 then some ([], .code 0 0) else (shortEscape e).map fun b => ([b], .text)
  | .code value digits, d =>
    (Waf.hexValue d).bind fun v =>
      if digits = 3 then (codeBytes (value * 16 + v)).map fun bs => (bs, .text)
      else some ([], .code (value * 16 + v) (digits + 1))

/-- What the characters of a string mean. -/
def unescape : Bytes → Option Bytes := reading readChar .text (· = .text)

/-! ## Single bytes -/

/-- The ways a byte is written. -/
theorem escapeByte_cases (c : UInt8) :
    (escapeByte c = [c] ∧ 32 ≤ c ∧ c ≠ 34 ∧ c ≠ 92) ∨
      (∃ e, escapeByte c = [92, e] ∧ e ≠ 117 ∧ shortEscape e = some c) ∨
      ∃ d d', escapeByte c = [92, 117, 48, 48, d, d'] ∧ c < 32 ∧ Waf.hexValue d = some (c.toNat / 16) ∧
        Waf.hexValue d' = some (c.toNat % 16) := by
  by_cases h13 : c = 13
  · subst h13
    exact .inr (.inl ⟨114, rfl, by decide, rfl⟩)
  by_cases h10 : c = 10
  · subst h10
    exact .inr (.inl ⟨110, rfl, by decide, rfl⟩)
  by_cases h92 : c = 92
  · subst h92
    exact .inr (.inl ⟨92, rfl, by decide, rfl⟩)
  by_cases h34 : c = 34
  · subst h34
    exact .inr (.inl ⟨34, rfl, by decide, rfl⟩)
  by_cases h12 : c = 12
  · subst h12
    exact .inr (.inl ⟨102, rfl, by decide, rfl⟩)
  by_cases h8 : c = 8
  · subst h8
    exact .inr (.inl ⟨98, rfl, by decide, rfl⟩)
  by_cases h9 : c = 9
  · subst h9
    exact .inr (.inl ⟨116, rfl, by decide, rfl⟩)
  by_cases hlow : c < 32
  · have hcodes : ∀ c : UInt8, c < 32 → c &&& 0x80 = 0 ∧
        Waf.hexValue (Filter.RdsJson.hex (c >>> 4)) = some (c.toNat / 16) ∧
        Waf.hexValue (Filter.RdsJson.hex (c &&& 0x0f)) = some (c.toNat % 16) := forall_byte (by decide +kernel)
    obtain ⟨hascii, hhigh, hdigit⟩ := hcodes c hlow
    refine .inr (.inr ⟨_, _, ?_, hlow, hhigh, hdigit⟩)
    rw [escapeByte, if_pos hascii, if_neg h13, if_neg h10, if_neg h92, if_neg h34, if_neg h12, if_neg h8, if_neg h9,
      if_pos hlow]
    rfl
  · refine .inl ⟨?_, UInt8.not_lt.mp hlow, h34, h92⟩
    rw [escapeByte, if_neg h13, if_neg h10, if_neg h92, if_neg h34, if_neg h12, if_neg h8, if_neg h9, if_neg hlow,
      ite_self]

/-- A written byte is read as the byte, and the reader is where it was. -/
theorem outputs_escapeByte (c : UInt8) : outputs readChar .text (escapeByte c) = some ([c], .text) := by
  rcases escapeByte_cases c with ⟨heq, hlow, h34, h92⟩ | ⟨e, heq, hne, he⟩ | ⟨d, d', heq, hlow, hd, hd'⟩
  · have hnot : ¬ (c = 34 ∨ c < 32) := not_or.mpr ⟨h34, UInt8.not_lt.mpr hlow⟩
    rw [heq]
    exact outputs_one (by rw [readChar, if_neg hnot, if_neg h92])
  · rw [heq, outputs_cons]
    have hstep : readChar .escaped e = some ([c], .text) := by rw [readChar, if_neg hne, he]; rfl
    exact congrArg (Option.map _) (outputs_one hstep)
  · have hcode : codeBytes (c.toNat / 16 * 16 + c.toNat % 16) = some [c] := by
      have hcodes : ∀ c : UInt8, c < 32 → codeBytes (c.toNat / 16 * 16 + c.toNat % 16) = some [c] :=
        forall_byte (by decide +kernel)
      exact hcodes c hlow
    have hfirst : readChar (.code 0 2) d = some ([], .code (c.toNat / 16) 3) := by
      rw [readChar, hd, Option.bind_some, if_neg (by decide), Nat.zero_mul, Nat.zero_add]
    have hsecond : readChar (.code (c.toNat / 16) 3) d' = some ([c], .text) := by
      rw [readChar, hd', Option.bind_some, if_pos rfl, hcode]
      rfl
    have hzeros : outputs readChar .text [92, 117, 48, 48] = some ([], .code 0 2) := rfl
    have hdigits : outputs readChar (.code 0 2) [d, d'] = some ([c], .text) := by
      rw [outputs_cons, hfirst]
      exact congrArg (Option.map _) (outputs_one hsecond)
    rw [heq]
    exact (outputs_append hzeros).trans (congrArg (Option.map _) hdigits)

theorem chars_escapeByte (c : UInt8) {rest : Bytes} (h : Chars rest) : Chars (escapeByte c ++ rest) := by
  rcases escapeByte_cases c with ⟨heq, hlow, h34, h92⟩ | ⟨e, heq, -, he⟩ | ⟨d, d', heq, -, hd, hd'⟩
  · rw [heq]
    exact .plain hlow h34 h92 h
  · rw [heq]
    exact .short he h
  · rw [heq]
    have hdigits : ∀ x ∈ [48, 48, d, d'], (Waf.hexValue x).isSome = true := by
      simp only [forall_mem_cons, not_mem_nil, false_implies, implies_true, and_true]
      exact ⟨rfl, rfl, by rw [hd]; rfl, by rw [hd']; rfl⟩
    exact .code rfl hdigits h

/-! ## Whole strings -/

theorem chars_escape (s : Bytes) : Chars (escape_json_str s) := by
  induction s with
  | nil => exact .nil
  | cons c s ih => exact chars_escapeByte c ih

theorem unescape_escape (s : Bytes) : unescape (escape_json_str s) = some s := by
  have houtputs : outputs readChar .text (s.flatMap escapeByte) = some (s.flatMap fun c => [c], .text) :=
    outputs_flatMap fun c _ => outputs_escapeByte c
  rw [flatMap_singleton'] at houtputs
  exact reading_eq houtputs rfl

/-- What is asked of an escaper `escape` with the counting pass `count`. -/
structure Right (escape : Bytes → Bytes) (count : Bytes → Nat) (s : Bytes) : Prop where
  length_eq : (escape s).length = s.length + count s
  chars : Chars (escape s)
  unescape_eq : unescape (escape s) = some s
  append (t : Bytes) : escape (s ++ t) = escape s ++ escape t

/-- **The escapers of both modules.** -/
theorem escape_json_right (s : Bytes) :
    Right Filter.RdsJson.escape_json_str Filter.RdsJson.escapeCount s ∧ Right escape_json_str escapeCount s := by
  have hright : Right escape_json_str escapeCount s :=
    ⟨length_escape s, chars_escape s, unescape_escape s, fun t => flatMap_append⟩
  exact ⟨hright, hright⟩

/-- So there is no buffer error. -/
theorem quote_json_str_eq {v : Bytes} (h : v ≠ []) : quote_json_str v = some ([34] ++ escape_json_str v ++ [34]) := by
  have hcopy : (if escapeCount v = 0 then v else escape_json_str v) = escape_json_str v := copyOrEscape_eq v
  have hlen : (escape_json_str v).length = v.length + escapeCount v := length_escape v
  rw [quote_json_str, if_neg h]
  simp only [hcopy]
  rw [if_pos]
  simp only [length_append, length_singleton, hlen, show (lit "''").length = 2 from rfl]
  omega

end OpenResty.Ndk.QuoteJson
