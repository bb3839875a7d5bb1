/-
`ngx_http_lua_escape_uri` and `ngx_http_lua_unescape_uri` of
`ngx_http_lua_util.c`.
-/
import OpenResty.Lib.Memory

namespace OpenResty.NgxLua

open Lib List

/-! ## Escaping -/

/-- What is not ALPHA, DIGIT, "-", ".", "_", "~". -/
def uri_component : List UInt32 :=
  [0xffffffff, 0xfc00987d, 0x78000001, 0xb8000001, 0xffffffff, 0xffffffff, 0xffffffff, 0xffffffff]

def hex : List UInt8 := "0123456789ABCDEF".toList.map Char.toUInt8

/-- `escape[*src >> 5] & (1 << (*src & 0x1f))` -/
def escaped (escape : List UInt32) (c : UInt8) : Bool :=
  (escape.getD (c >>> 5).toNat 0 &&& 1 <<< (c &&& 0x1f).toUInt32) != 0

/-- The pass with no `dst`: how many characters are to be escaped. -/
def escapeCount (escape : List UInt32) : Bytes → Nat
  | [] => 0
  | c :: src => (if escaped escape c then 1 else 0) + escapeCount escape src

def escapeUri (escape : List UInt32) : Bytes → Bytes
  | [] => []
  | c :: src =>
    if escaped escape c then
      '%'.toUInt8 :: hex.getD (c >>> 4).toNat 0 :: hex.getD (c &&& 0xf).toNat 0 :: escapeUri escape src
    else c :: escapeUri escape src

/-! ## Unescaping -/

/-- `NGX_UNESCAPE_URI_COMPONENT`, `NGX_UNESCAPE_URI`, `NGX_UNESCAPE_REDIRECT` -/
inductive UnescapeType
  | uriComponent
  | uri
  | redirect
deriving DecidableEq

/-- The states of the machine, each with what it has read of a quoted character. -/
inductive Sw
  | usual
  | quoted
  | quoted_second (first decoded : UInt8)

/-- The number a hexadecimal digit stands for. -/
def digit? (ch : UInt8) : Option UInt8 :=
  if '0'.toUInt8 ≤ ch ∧ ch ≤ '9'.toUInt8 then some (ch - '0'.toUInt8)
  else
    let c := ch ||| 0x20
    if 'a'.toUInt8 ≤ c ∧ c ≤ 'f'.toUInt8 then some (c - 'a'.toUInt8 + 10) else none

/-- `ch` was quoted as `first` and `second`; only one that ends in a letter
stops the machine. -/
def unquoted (type : UnescapeType) (first second ch : UInt8) : Bytes × Bool :=
  let letter := !('0'.toUInt8 ≤ second && second ≤ '9'.toUInt8)
  match type with
  | .uriComponent => ([ch], false)
  | .uri => ([ch], letter && ch == '?'.toUInt8)
  | .redirect =>
    if letter && ch == '?'.toUInt8 then ([ch], true)
    else if '%'.toUInt8 < ch ∧ ch < 0x7f then ([ch], false)
    else (['%'.toUInt8, first, second], false)

def unescapeFrom (type : UnescapeType) : Sw → Bytes → Bytes
  | _, [] => []
  | .usual, ch :: src =>
    if ch = '?'.toUInt8 ∧ type ≠ .uriComponent then [ch]
    else if ch = '%'.toUInt8 then unescapeFrom type .quoted src
    else if ch = '+'.toUInt8 then ' '.toUInt8 :: unescapeFrom type .usual src
    else ch :: unescapeFrom type .usual src
  | .quoted, ch :: src =>
    match digit? ch with
    | some decoded => unescapeFrom type (.quoted_second ch decoded) src
    -- the invalid quoted character
    | none => ch :: unescapeFrom type .usual src
  | .quoted_second first decoded, ch :: src =>
    match digit? ch with
    | some d =>
      let (out, done) := unquoted type first ch (decoded <<< 4 + d)
      if done then out else out ++ unescapeFrom type .usual src
    -- the invalid quoted character
    | none => unescapeFrom type .usual src

def unescapeUri (type : UnescapeType) (src : Bytes) : Bytes := unescapeFrom type .usual src

/-! ## The round trip of a component -/

/-- A character that is left as it is means itself. -/
theorem plain_of_not_escaped (c : UInt8) :
    escaped uri_component c = false → c ≠ '%'.toUInt8 ∧ c ≠ '+'.toUInt8 ∧ c ≠ '&'.toUInt8 ∧ c ≠ '='.toUInt8 := by
  revert c
  exact forall_byte (by decide +kernel)

/-- The two digits of a character are read back as the character. -/
theorem digits_of_hex (c : UInt8) : ∃ hi lo, digit? (hex.getD (c >>> 4).toNat 0) = some hi ∧
    digit? (hex.getD (c &&& 0xf).toNat 0) = some lo ∧ hi <<< 4 + lo = c := by
  have h : ∀ c : UInt8, ((digit? (hex.getD (c >>> 4).toNat 0)).bind fun hi =>
      (digit? (hex.getD (c &&& 0xf).toNat 0)).map fun lo => hi <<< 4 + lo) = some c :=
    forall_byte (by decide +kernel)
  have hc := h c
  simp only [Option.bind_eq_some_iff, Option.map_eq_some_iff] at hc
  obtain ⟨hi, hhi, lo, hlo, heq⟩ := hc
  exact ⟨hi, lo, hhi, hlo, heq⟩

theorem unescape_escape_append (s rest : Bytes) :
    unescapeFrom .uriComponent .usual (escapeUri uri_component s ++ rest) =
      s ++ unescapeFrom .uriComponent .usual rest := by
  induction s with
  | nil => rfl
  | cons c s ih =>
    cases h : escaped uri_component c with
    | true =>
      obtain ⟨hi, lo, hhi, hlo, hc⟩ := digits_of_hex c
      simp only [escapeUri, h, if_true, cons_append, unescapeFrom, hhi, hlo, hc, unquoted, ih]
      rfl
    | false =>
      obtain ⟨hpercent, hplus, -⟩ := plain_of_not_escaped c h
      simp [escapeUri, h, unescapeFrom, hpercent, hplus, ih]

/-- **Unescaping undoes escaping.** -/
theorem unescape_escape (s : Bytes) : unescapeUri .uriComponent (escapeUri uri_component s) = s := by
  have h := unescape_escape_append s []
  rw [append_nil] at h
  rw [unescapeUri, h]
  exact append_nil s

/-- The counting pass says how long the escaped text is. -/
theorem length_escape (escape : List UInt32) (s : Bytes) :
    (escapeUri escape s).length = s.length + 2 * escapeCount escape s := by
  induction s with
  | nil => rfl
  | cons c s ih =>
    rw [escapeUri, escapeCount]
    split
    · simp only [length_cons, ih]
      omega
    · simp only [length_cons, ih]
      omega

/-- Where nothing is counted the text is its own escaped text. -/
theorem escape_of_count {escape : List UInt32} {s : Bytes} (h : escapeCount escape s = 0) :
    escapeUri escape s = s := by
  induction s with
  | nil => rfl
  | cons c s ih =>
    rw [escapeCount] at h
    rw [escapeUri]
    cases hc : escaped escape c with
    | true => rw [hc, if_pos rfl] at h; omega
    | false =>
      rw [hc] at h
      rw [ih (by simpa using h)]
      rfl

/-- No digit is a separator. -/
theorem hex_plain (n : Nat) : hex.getD n 0 ≠ '&'.toUInt8 ∧ hex.getD n 0 ≠ '='.toUInt8 := by
  have hdigits : (hex.all fun d => d != '&'.toUInt8 && d != '='.toUInt8) = true := rfl
  rw [getD_eq_getElem?_getD]
  cases h : hex[n]? with
  | none => decide
  | some d => simpa using all_eq_true.mp hdigits d (mem_of_getElem? h)

/-- An escaped text holds no separator. -/
theorem escape_plain {s : Bytes} {c : UInt8} (h : c ∈ escapeUri uri_component s) :
    c ≠ '&'.toUInt8 ∧ c ≠ '='.toUInt8 := by
  induction s with
  | nil => cases h
  | cons b s ih =>
    rw [escapeUri] at h
    split at h
    · simp only [mem_cons] at h
      rcases h with rfl | rfl | rfl | h
      · decide
      · exact hex_plain _
      · exact hex_plain _
      · exact ih h
    · next hb =>
      rcases mem_cons.mp h with rfl | h
      · exact (plain_of_not_escaped c (by simpa using hb)).2.2
      · exact ih h

end OpenResty.NgxLua
