/-
`set_quote_sql_str` and `set_quote_pgsql_str` of set-misc-nginx-module,
`ngx_http_set_quote_sql.c`, against the string literals of MySQL and PostgreSQL.

The escaper is MySQL's. PostgreSQL takes `\0` for the beginning of an octal code and `\Z` for
a `Z`, and in an `E'...'` literal the doubled backslash before an octal code is a backslash.
-/
import OpenResty.Lib.Memory
import OpenResty.Lib.Transducer

namespace OpenResty.Ndk.QuoteSql

open Lib Lib.Transducer List Option

/-! ## Escaping -/

/-- What `ngx_http_set_misc_escape_sql_str` without a destination counts for a byte. -/
def escapeByteCount (src : UInt8) : Nat :=
  if src &&& 0x80 = 0 then
    if src = 0 ∨ src = 8 ∨ src = 10 ∨ src = 13 ∨ src = 9 ∨ src = 92 ∨ src = 39 ∨ src = 34 ∨ src = 26 then 1 else 0
  else 0

def escapeCount (src : Bytes) : Nat := (src.map escapeByteCount).sum

def escapeByte (src : UInt8) : Bytes :=
  if src &&& 0x80 = 0 then
    if src = 0 then [92, 48]
    else if src = 8 then [92, 98]
    else if src = 10 then [92, 110]
    else if src = 13 then [92, 114]
    else if src = 9 then [92, 116]
    else if src = 92 then [92, 92]
    else if src = 39 then [92, 39]
    else if src = 34 then [92, 34]
    else if src = 26 then [92, 90]
    else [src]
  else [src]

/-- `ngx_http_set_misc_escape_sql_str` -/
def escape_sql_str (src : Bytes) : Bytes := src.flatMap escapeByte

/-- `ngx_http_set_misc_quote_sql_str` of a variable that is found; `none` for its buffer error. -/
def quote_sql_str (v : Bytes) : Option Bytes :=
  if v = [] then some [39, 39]
  else
    let escape := escapeCount v
    let len := 2 + v.length + escape
    let p := [39] ++ (if escape = 0 then v else escape_sql_str v) ++ [39]
    if p.length = len then some p else none

/-! ## UTF-8 -/

/-- `ngx_http_pg_utf_mblen` -/
def utf_mblen (s : UInt8) : Nat :=
  if s &&& 0x80 = 0 then 1
  else if s &&& 0xe0 = 0xc0 then 2
  else if s &&& 0xf0 = 0xe0 then 3
  else if s &&& 0xf8 = 0xf0 then 4
  else 1

/-- `a` may stand third or fourth. -/
def trailing (a : UInt8) : Bool := !(a < 0x80 || 0xBF < a)

/-- `a` may stand second, behind `s`. -/
def second (s a : UInt8) : Bool :=
  if s = 0xE0 then !(a < 0xA0 || 0xBF < a)
  else if s = 0xED then !(a < 0x80 || 0x9F < a)
  else if s = 0xF0 then !(a < 0x90 || 0xBF < a)
  else if s = 0xF4 then !(a < 0x80 || 0x8F < a)
  else !(a < 0x80 || 0xBF < a)

/-- `a` may stand first. -/
def leading (a : UInt8) : Bool := !(0x80 ≤ a && a < 0xC2) && !(0xF4 < a)

/-- The loop of `ngx_http_pg_utf_islegal`. Each turn takes a byte at least, so there are enough. -/
def islegalFrom : Nat → Bytes → Bool
  | 0, _ => true
  | _ + 1, [] => true
  | n + 1, c :: s =>
    let mblen := utf_mblen c
    if s.length + 1 < mblen then false
    else
      (decide (mblen < 4) || trailing (s.getD 2 0)) && (decide (mblen < 3) || trailing (s.getD 1 0)) &&
        (decide (mblen < 2) || second c (s.getD 0 0)) && leading c && islegalFrom n (s.drop (mblen - 1))

/-- `ngx_http_pg_utf_islegal` -/
def utf_islegal (s : Bytes) : Bool := islegalFrom s.length s

def utfEscapeByte (d : UInt8) : Bytes :=
  if d &&& 0x80 ≠ 0 then [92, 92, (d >>> 6) + 48, ((d >>> 3) &&& 7) + 48, (d &&& 7) + 48] else [d]

/-- `ngx_http_pg_utf_escape`; `none` when what is written is not what was counted. -/
def utf_escape (res : Bytes) : Option Bytes :=
  let count := (res.map fun d => if d &&& 0x80 ≠ 0 then 5 else 1).sum
  let p := res.flatMap utfEscapeByte
  if p.length = count then some p else none

/-- `ngx_http_set_misc_quote_pgsql_str` -/
def quote_pgsql_str (v : Bytes) : Option Bytes :=
  if v = [] then some [39, 39]
  else (quote_sql_str v).bind fun res => if utf_islegal (69 :: res) then some (69 :: res) else utf_escape (69 :: res)

/-! ## Literals -/

/-- Where a reader of a literal is behind the opening quote: behind a backslash, behind some
digits of an octal code, or behind a quote that closes the literal unless another follows. -/
inductive Place
  | text
  | escaped
  | octal (value digits : Nat)
  | quoted
deriving DecidableEq

def readText (c : UInt8) : Bytes × Place :=
  if c = 39 then ([], .quoted) else if c = 92 then ([], .escaped) else ([c], .text)

/-- What a backslash and `e` mean in MySQL. -/
def sqlEscape (e : UInt8) : Bytes :=
  if e = 48 then [0]
  else if e = 98 then [8]
  else if e = 110 then [10]
  else if e = 114 then [13]
  else if e = 116 then [9]
  else if e = 90 then [26]
  else if e = 37 ∨ e = 95 then [92, e]
  else [e]

def readSql : Place → UInt8 → Option (Bytes × Place)
  | .text, c => some (readText c)
  | .escaped, e => some (sqlEscape e, .text)
  | .quoted, c => if c = 39 then some ([39], .text) else none
  | .octal _ _, _ => none

/-- A whole text as a string literal of MySQL. -/
def sqlLiteral : Bytes → Option Bytes
  | 39 :: body => reading readSql .text (· = .quoted) body
  | _ => none

def isOctal (c : UInt8) : Bool := 48 ≤ c && c ≤ 55

/-- `E'...'`: up to three octal digits are a byte, which must not be zero. The codes `\x`, `\u`
and `\U` are left out. -/
def readPgsql : Place → UInt8 → Option (Bytes × Place)
  | .text, c => some (readText c)
  | .escaped, e =>
    if isOctal e then some ([], .octal (e.toNat - 48) 1)
    else if e = 98 then some ([8], .text)
    else if e = 102 then some ([12], .text)
    else if e = 110 then some ([10], .text)
    else if e = 114 then some ([13], .text)
    else if e = 116 then some ([9], .text)
    else if e = 120 ∨ e = 117 ∨ e = 85 then none
    else some ([e], .text)
  | .octal value digits, c =>
    if isOctal c ∧ digits < 3 then some ([], .octal (value * 8 + (c.toNat - 48)) (digits + 1))
    else if value % 256 = 0 then none
    else some (UInt8.ofNat value :: (readText c).1, (readText c).2)
  | .quoted, c => if c = 39 then some ([39], .text) else none

/-- A whole text as an `E'...'` literal of PostgreSQL. -/
def pgsqlLiteral : Bytes → Option Bytes
  | 69 :: 39 :: body => reading readPgsql .text (· = .quoted) body
  | _ => none

/-- Both literals say `s`, and both buffers are as long as what is written. -/
structure Right (s : Bytes) : Prop where
  sql : ∃ text, quote_sql_str s = some text ∧ text.length = 2 + s.length + escapeCount s ∧ sqlLiteral text = some s
  pgsql : ∃ text, quote_pgsql_str s = some text ∧ pgsqlLiteral text = some s

/-! What the quoted strings of set-misc-nginx-module mean as literals of MySQL and PostgreSQL. -/

variable {s v : Bytes}

/-! ## Single bytes -/

/-- What an escaped byte means in PostgreSQL. -/
def pgsqlByte (c : UInt8) : Bytes := [if c = 26 then 90 else c]

/-- What it means when the octal codes have been put in. -/
def pgsqlUtfByte (c : UInt8) : Bytes := if c &&& 0x80 ≠ 0 then (utfEscapeByte c).drop 1 else pgsqlByte c

theorem escapes_checked : ∀ c : UInt8,
    ((escapeByte c).length = 1 + escapeByteCount c ∧ (escapeByteCount c = 0 → escapeByte c = [c])) ∧
    (0 ∉ (escapeByte c).flatMap utfEscapeByte ∧ 0 ∉ escapeByte c) ∧
    outputs readSql .text (escapeByte c) = some ([c], .text) ∧
    (c ≠ 0 → outputs readPgsql .text (escapeByte c) = some (pgsqlByte c, .text) ∧
      outputs readPgsql .text ((escapeByte c).flatMap utfEscapeByte) = some (pgsqlUtfByte c, .text)) ∧
    ((c &&& 0x80 = 0 → ∀ a ∈ escapeByte c, a &&& 0x80 = 0) ∧ (c &&& 0x80 ≠ 0 → escapeByte c = [c]) ∧ escapeByte c ≠ []) ∧
    1 ≤ (pgsqlUtfByte c).length ∧ (c &&& 0x80 ≠ 0 → 1 < (pgsqlUtfByte c).length) := forall_byte (by decide +kernel)

theorem length_escapeByte (c : UInt8) : (escapeByte c).length = 1 + escapeByteCount c := (escapes_checked c).1.1

theorem escapeByte_of_count (c : UInt8) : escapeByteCount c = 0 → escapeByte c = [c] := (escapes_checked c).1.2

theorem zero_notMem_escapeByte (c : UInt8) : 0 ∉ (escapeByte c).flatMap utfEscapeByte ∧ 0 ∉ escapeByte c :=
  (escapes_checked c).2.1

theorem outputs_sql (c : UInt8) : outputs readSql .text (escapeByte c) = some ([c], .text) := (escapes_checked c).2.2.1

theorem outputs_pgsql (c : UInt8) (h : c ≠ 0) : outputs readPgsql .text (escapeByte c) = some (pgsqlByte c, .text) :=
  ((escapes_checked c).2.2.2.1 h).1

theorem outputs_pgsqlUtf (c : UInt8) (h : c ≠ 0) :
    outputs readPgsql .text ((escapeByte c).flatMap utfEscapeByte) = some (pgsqlUtfByte c, .text) :=
  ((escapes_checked c).2.2.2.1 h).2

/-! ## The buffers -/

theorem length_escape (s : Bytes) : (escape_sql_str s).length = s.length + escapeCount s := by
  induction s with
  | nil => rfl
  | cons c s ih =>
    have hcons : escape_sql_str (c :: s) = escapeByte c ++ escape_sql_str s := rfl
    have hcount : escapeCount (c :: s) = escapeByteCount c + escapeCount s := rfl
    rw [hcons, length_append, ih, length_escapeByte, hcount, length_cons]
    omega

theorem escape_of_count (h : escapeCount s = 0) : escape_sql_str s = s := by
  induction s with
  | nil => rfl
  | cons c s ih =>
    have hcons : escape_sql_str (c :: s) = escapeByte c ++ escape_sql_str s := rfl
    have hcount : escapeByteCount c + escapeCount s = 0 := h
    obtain ⟨hc, hs⟩ := Nat.add_eq_zero_iff.mp hcount
    rw [hcons, escapeByte_of_count c hc, ih hs]
    rfl

theorem quote_sql_str_eq (h : v ≠ []) : quote_sql_str v = some (39 :: (escape_sql_str v ++ [39])) := by
  have hcopy : (if escapeCount v = 0 then v else escape_sql_str v) = escape_sql_str v := by
    split
    · next hcount => exact (escape_of_count hcount).symm
    · rfl
  rw [quote_sql_str, if_neg h]
  simp only [hcopy]
  rw [if_pos]
  · rfl
  · simp only [length_append, length_singleton, length_escape]
    omega

theorem utf_escape_eq (res : Bytes) : utf_escape res = some (res.flatMap utfEscapeByte) := by
  have hlen : (res.flatMap utfEscapeByte).length = (res.map fun d => if d &&& 0x80 ≠ 0 then 5 else 1).sum := by
    rw [length_flatMap]
    refine congrArg List.sum (map_congr_left fun d _ => ?_)
    rw [utfEscapeByte]
    split <;> rfl
  exact if_pos hlen

/-! ## UTF-8 -/

/-- The checks on a character of `mblen` bytes. -/
def charLegal (mblen : Nat) (c : UInt8) (s : Bytes) : Bool :=
  (decide (mblen < 4) || trailing (s.getD 2 0)) && (decide (mblen < 3) || trailing (s.getD 1 0)) &&
    (decide (mblen < 2) || second c (s.getD 0 0)) && leading c

theorem islegalFrom_cons (n : Nat) (c : UInt8) (s : Bytes) :
    islegalFrom (n + 1) (c :: s) =
      if s.length + 1 < utf_mblen c then false
      else charLegal (utf_mblen c) c s && islegalFrom n (s.drop (utf_mblen c - 1)) := rfl

theorem islegal_fuel {n m : Nat} (hn : s.length ≤ n) (hm : s.length ≤ m) : islegalFrom n s = islegalFrom m s := by
  induction n generalizing m s with
  | zero =>
    obtain rfl : s = [] := length_eq_zero_iff.mp (by omega)
    cases m <;> rfl
  | succ n ih =>
    cases s with
    | nil => cases m <;> rfl
    | cons c s =>
      obtain ⟨m, rfl⟩ : ∃ i, m = i + 1 := ⟨m - 1, by simp at hm; omega⟩
      simp only [length_cons, Nat.add_le_add_iff_right] at hn hm
      have hlen : (s.drop (utf_mblen c - 1)).length ≤ s.length := by
        rw [length_drop]
        omega
      rw [islegalFrom_cons, islegalFrom_cons, ih (hlen.trans hn) (hlen.trans hm)]

theorem islegal_cons (c : UInt8) (s : Bytes) :
    utf_islegal (c :: s) =
      if s.length + 1 < utf_mblen c then false
      else charLegal (utf_mblen c) c s && utf_islegal (s.drop (utf_mblen c - 1)) := by
  rw [utf_islegal, length_cons, islegalFrom_cons]
  have hlen : (s.drop (utf_mblen c - 1)).length ≤ s.length := by
    rw [length_drop]
    omega
  rw [islegal_fuel hlen (Nat.le_refl _)]
  rfl

theorem mblen_checked : ∀ c : UInt8, (0 < utf_mblen c ∧ utf_mblen c ≤ 4) ∧
    (c &&& 0x80 = 0 → utf_mblen c = 1 ∧ leading c = true ∧ trailing c = false ∧ c < 0x80) := forall_byte (by decide +kernel)

theorem mblen_bounds (c : UInt8) : 0 < utf_mblen c ∧ utf_mblen c ≤ 4 := (mblen_checked c).1

theorem ascii_first (a : UInt8) : a &&& 0x80 = 0 → utf_mblen a = 1 ∧ leading a = true ∧ trailing a = false ∧ a < 0x80 :=
  (mblen_checked a).2

theorem ascii_second {a : UInt8} (ha : a < 0x80) (c : UInt8) : second c a = false := by
  have hlow (n : UInt8) (hn : 0x80 ≤ n) : decide (a < n) = true := decide_eq_true (UInt8.lt_of_lt_of_le ha hn)
  rw [second, hlow 0xA0 (by decide), hlow 0x80 (by decide), hlow 0x90 (by decide)]
  simp only [Bool.true_or, Bool.not_true, ite_self]

/-- A byte of ASCII does not belong to a longer character. -/
theorem charLegal_short {m : Nat} (hm : m ≤ 4) {a : UInt8} (ha : a &&& 0x80 = 0) (c : UInt8) {u : Bytes} (hu : u.length + 1 < m)
    (w : Bytes) : charLegal m c (u ++ a :: w) = false := by
  obtain ⟨-, -, htrailing, hlow⟩ := ascii_first a ha
  have hsecond := ascii_second hlow c
  rcases u with _ | ⟨x, _ | ⟨y, _ | ⟨z, u⟩⟩⟩
  · simp only [length_nil] at hu
    simp [charLegal, hsecond, show ¬ m < 2 by omega]
  · simp only [length_cons, length_nil] at hu
    simp [charLegal, htrailing, show ¬ m < 3 by omega]
  · simp only [length_cons, length_nil] at hu
    simp [charLegal, htrailing, show ¬ m < 4 by omega]
  · simp only [length_cons] at hu
    omega

theorem charLegal_append {m : Nat} (hm : m ≤ 4) (c : UInt8) {u : Bytes} (hu : m ≤ u.length + 1) (w : Bytes) :
    charLegal m c (u ++ w) = charLegal m c u := by
  have hget (i : Nat) (hi : i < u.length) : (u ++ w).getD i 0 = u.getD i 0 := by
    rw [getD_eq_getElem?_getD, getD_eq_getElem?_getD, getElem?_append_left hi]
  rw [charLegal, charLegal]
  by_cases h2 : m < 2
  · simp [show m < 3 by omega, show m < 4 by omega, h2]
  rw [hget 0 (by omega)]
  by_cases h3 : m < 3
  · simp [show m < 4 by omega, h3]
  rw [hget 1 (by omega)]
  by_cases h4 : m < 4
  · simp [h4]
  rw [hget 2 (by omega)]

/-- **Bytes of ASCII divide a text into texts that are checked alone.** -/
theorem islegal_ascii {a : UInt8} (ha : a &&& 0x80 = 0) (u w : Bytes) :
    utf_islegal (u ++ a :: w) = (utf_islegal u && utf_islegal w) := by
  match u with
  | [] =>
    obtain ⟨hlen, hleading, -, -⟩ := ascii_first a ha
    rw [nil_append, islegal_cons, hlen, if_neg (by omega)]
    simp [charLegal, hleading, utf_islegal, islegalFrom]
  | c :: u =>
    obtain ⟨hpos, hfour⟩ := mblen_bounds c
    rw [cons_append, islegal_cons, islegal_cons]
    by_cases hshort : u.length + 1 < utf_mblen c
    · rw [if_pos hshort, charLegal_short hfour ha c hshort]
      simp
    · have hle : utf_mblen c - 1 ≤ u.length := by omega
      have hlong : ¬ (u ++ a :: w).length + 1 < utf_mblen c := by
        rw [length_append]
        omega
      have hrest := islegal_ascii ha (u.drop (utf_mblen c - 1)) w
      rw [if_neg hshort, if_neg hlong, charLegal_append hfour c (by omega), drop_append_of_le_length hle, hrest,
        Bool.and_assoc]
termination_by u.length
decreasing_by
  rw [length_drop, length_cons]
  omega

theorem islegal_asciis {as : Bytes} (has : ∀ a ∈ as, a &&& 0x80 = 0) (hne : as ≠ []) (u w : Bytes) :
    utf_islegal (u ++ (as ++ w)) = (utf_islegal u && utf_islegal w) := by
  induction as generalizing u with
  | nil => exact absurd rfl hne
  | cons a as ih =>
    have ha := has a mem_cons_self
    rw [cons_append, islegal_ascii ha]
    cases as with
    | nil => rfl
    | cons b as =>
      have hrest := ih (fun b' hb' => has b' (mem_cons_of_mem a hb')) (cons_ne_nil b as) []
      rw [nil_append] at hrest
      rw [hrest]
      exact congrArg (utf_islegal u && ·) (Bool.true_and _)

theorem escapeByte_ascii (c : UInt8) : (c &&& 0x80 = 0 → ∀ a ∈ escapeByte c, a &&& 0x80 = 0) ∧
    (c &&& 0x80 ≠ 0 → escapeByte c = [c]) ∧ escapeByte c ≠ [] := (escapes_checked c).2.2.2.2.1

/-- The escapes leave a text as legal as it was. -/
theorem islegal_escape (u s : Bytes) : utf_islegal (u ++ (escape_sql_str s ++ [39])) = utf_islegal (u ++ s) := by
  induction s generalizing u with
  | nil =>
    rw [append_nil]
    exact (islegal_ascii (by decide) u []).trans (Bool.and_true _)
  | cons c s ih =>
    obtain ⟨hascii, hhigh, hne⟩ := escapeByte_ascii c
    have hcons : escape_sql_str (c :: s) = escapeByte c ++ escape_sql_str s := rfl
    by_cases hc : c &&& 0x80 = 0
    · rw [hcons, append_assoc, islegal_asciis (hascii hc) hne, islegal_ascii hc]
      exact congrArg (utf_islegal u && ·) (ih [])
    · have hmore := ih (u ++ [c])
      rw [append_assoc, append_assoc] at hmore
      rw [hcons, hhigh hc]
      exact hmore

theorem islegal_quoted (s : Bytes) : utf_islegal (69 :: 39 :: (escape_sql_str s ++ [39])) = utf_islegal s := by
  have hopen : ∀ a ∈ [(69 : UInt8), 39], a &&& 0x80 = 0 :=
    forall_mem_cons.mpr ⟨rfl, forall_mem_singleton.mpr rfl⟩
  have hsplit := islegal_asciis hopen (cons_ne_nil 69 [39]) [] (escape_sql_str s ++ [39])
  exact hsplit.trans ((Bool.true_and _).trans (islegal_escape [] s))

/-- A text that is not legal has a byte from 128 on. -/
theorem exists_high (h : utf_islegal s = false) : ∃ c ∈ s, c &&& 0x80 ≠ 0 := by
  by_contra hnone
  have hascii : ∀ c ∈ s, c &&& 0x80 = 0 := fun c hc => not_not.mp fun hhigh => hnone ⟨c, hc, hhigh⟩
  cases s with
  | nil => cases h
  | cons c s =>
    have hlegal := islegal_asciis hascii (cons_ne_nil c s) [] []
    rw [nil_append, append_nil, h] at hlegal
    cases hlegal

/-! ## The literals -/

theorem sqlLiteral_quoted (s : Bytes) : sqlLiteral (39 :: (escape_sql_str s ++ [39])) = some s := by
  have hbody : outputs readSql .text (s.flatMap escapeByte) = some (s.flatMap fun c => [c], .text) :=
    outputs_flatMap fun c _ => outputs_sql c
  have hclose : outputs readSql .text (s.flatMap escapeByte ++ [39]) = some (s.flatMap (fun c => [c]) ++ [], .quoted) :=
    outputs_append hbody
  rw [flatMap_singleton', append_nil] at hclose
  exact reading_eq hclose rfl

/-- A body made of pieces for the bytes, with the closing quote. -/
theorem pgsqlLiteral_pieces {write means : UInt8 → Bytes}
    (h : ∀ c ∈ s, outputs readPgsql .text (write c) = some (means c, .text)) :
    pgsqlLiteral (69 :: 39 :: (s.flatMap write ++ [39])) = some (s.flatMap means) := by
  have hclose : outputs readPgsql .text (s.flatMap write ++ [39]) = some (s.flatMap means ++ [], .quoted) :=
    outputs_append (outputs_flatMap h)
  rw [append_nil] at hclose
  exact reading_eq hclose rfl

theorem readPgsql_ne_zero {p p' : Place} {c : UInt8} {out : Bytes} (h : readPgsql p c = some (out, p')) (hc : c ≠ 0) :
    0 ∉ out := by
  have htext : 0 ∉ (readText c).1 := by
    rw [readText]
    split_ifs <;> simp [Ne.symm hc]
  cases p with
  | text =>
    obtain ⟨rfl, -⟩ := Prod.mk.inj (some.inj h)
    exact htext
  | escaped =>
    rw [readPgsql] at h
    split_ifs at h <;> cases h <;> simp [Ne.symm hc]
  | octal value digits =>
    rw [readPgsql] at h
    split_ifs at h with hmore hzero
    · cases h
      exact not_mem_nil
    · cases h
      have hbyte : UInt8.ofNat value ≠ 0 := fun heq => hzero (by simpa using congrArg UInt8.toNat heq)
      exact fun hmem => (mem_cons.mp hmem).elim (fun heq => hbyte heq.symm) htext
  | quoted =>
    rw [readPgsql] at h
    split_ifs at h
    cases h
    decide

/-- No literal has a zero byte. -/
theorem outputs_ne_zero {p p' : Place} {text out : Bytes} (h : outputs readPgsql p text = some (out, p')) (htext : 0 ∉ text) :
    0 ∉ out := by
  induction text generalizing p out with
  | nil =>
    cases h
    exact not_mem_nil
  | cons c text ih =>
    rw [mem_cons, not_or] at htext
    obtain ⟨hc, hrest⟩ := htext
    rw [outputs_cons] at h
    obtain ⟨⟨first, q⟩, hstep, h⟩ := bind_eq_some_iff.mp h
    obtain ⟨⟨more, q'⟩, hmore, heq⟩ := map_eq_some_iff.mp h
    obtain ⟨rfl, rfl⟩ := Prod.mk.inj heq
    exact fun hmem => (mem_append.mp hmem).elim (readPgsql_ne_zero hstep (Ne.symm hc)) (ih hmore hrest)

theorem pgsqlLiteral_ne_zero {body out : Bytes} (h : pgsqlLiteral (69 :: 39 :: body) = some out) (hbody : 0 ∉ body) :
    0 ∉ out := by
  have hread : reading readPgsql .text (· = .quoted) body = some out := h
  rw [reading] at hread
  split at hread
  · next out' p houtputs =>
    split_ifs at hread
    cases hread
    exact outputs_ne_zero houtputs hbody
  · cases hread

/-- The text of `set_quote_pgsql_str`. -/
theorem quote_pgsql_str_eq (h : s ≠ []) :
    quote_pgsql_str s = some (69 :: 39 ::
      (if utf_islegal s then s.flatMap escapeByte ++ [39] else (s.flatMap fun c => (escapeByte c).flatMap utfEscapeByte) ++ [39])) := by
  rw [quote_pgsql_str, if_neg h, quote_sql_str_eq h, bind_some, islegal_quoted]
  split
  · rfl
  · rw [utf_escape_eq, flatMap_cons, flatMap_cons, flatMap_append, escape_sql_str, flatMap_assoc]
    rfl

theorem sql_right (h : s ≠ []) :
    ∃ text, quote_sql_str s = some text ∧ text.length = 2 + s.length + escapeCount s ∧ sqlLiteral text = some s := by
  refine ⟨_, quote_sql_str_eq h, ?_, sqlLiteral_quoted s⟩
  rw [length_cons, length_append, length_escape, length_singleton]
  omega

theorem length_pgsqlUtf (c : UInt8) : 1 ≤ (pgsqlUtfByte c).length ∧ (c &&& 0x80 ≠ 0 → 1 < (pgsqlUtfByte c).length) :=
  (escapes_checked c).2.2.2.2.2

/-- The octal codes make a text longer. -/
theorem pgsqlUtf_ne (h : utf_islegal s = false) : s.flatMap pgsqlUtfByte ≠ s := by
  have hlong : ∀ s : Bytes, s.length ≤ (s.flatMap pgsqlUtfByte).length ∧
      ((∃ c ∈ s, c &&& 0x80 ≠ 0) → s.length < (s.flatMap pgsqlUtfByte).length) := by
    intro s
    induction s with
    | nil => exact ⟨Nat.le_refl _, fun ⟨c, hc, _⟩ => absurd hc not_mem_nil⟩
    | cons c s ih =>
      obtain ⟨hone, hmore⟩ := length_pgsqlUtf c
      rw [flatMap_cons, length_append, length_cons]
      refine ⟨by omega, ?_⟩
      rintro ⟨d, hd, hhigh⟩
      rcases mem_cons.mp hd with rfl | hd
      · have := hmore hhigh
        omega
      · have := ih.2 ⟨d, hd, hhigh⟩
        omega
  intro heq
  have := (hlong s).2 (exists_high h)
  rw [heq] at this
  omega

theorem pgsqlByte_eq_iff : s.flatMap pgsqlByte = s ↔ 26 ∉ s := by
  have hmap : s.flatMap pgsqlByte = s.map fun c => if c = 26 then 90 else c := flatMap_pure_eq_map _ s
  rw [hmap]
  constructor
  · intro h hmem
    have hnot : (26 : UInt8) ∉ s.map fun c => if c = 26 then 90 else c := by
      intro hmem'
      obtain ⟨c, -, hc⟩ := mem_map.mp hmem'
      split at hc
      · cases hc
      · next hne => exact hne hc
    exact hnot (h.symm ▸ hmem)
  · intro h
    refine (map_congr_left fun c hc => ?_).trans (map_id s)
    exact if_neg fun heq : c = 26 => h (heq ▸ hc)

/-- **When both literals say the string.** -/
theorem quote_sql_right_iff (h : s ≠ []) : Right s ↔ 0 ∉ s ∧ 26 ∉ s ∧ utf_islegal s = true := by
  have hzero (text : Bytes) (htext : quote_pgsql_str s = some text) ( hsays : pgsqlLiteral text = some s) : 0 ∉ s := by
    rw [quote_pgsql_str_eq h] at htext
    cases htext
    refine pgsqlLiteral_ne_zero hsays ?_
    split
    · intro hmem
      rcases mem_append.mp hmem with hmem | hmem
      · obtain ⟨c, -, hc⟩ := mem_flatMap.mp hmem
        exact (zero_notMem_escapeByte c).2 hc
      · exact absurd hmem (by decide)
    · intro hmem
      rcases mem_append.mp hmem with hmem | hmem
      · obtain ⟨c, -, hc⟩ := mem_flatMap.mp hmem
        exact (zero_notMem_escapeByte c).1 hc
      · exact absurd hmem (by decide)
  constructor
  · rintro ⟨-, text, htext, hsays⟩
    have hnonzero := hzero text htext hsays
    have hne : ∀ c ∈ s, c ≠ 0 := fun c hc heq => hnonzero (heq ▸ hc)
    refine ⟨hnonzero, ?_⟩
    rw [quote_pgsql_str_eq h] at htext
    cases htext
    cases hlegal : utf_islegal s with
    | true =>
      rw [hlegal, if_pos rfl, pgsqlLiteral_pieces fun c hc => outputs_pgsql c (hne c hc)] at hsays
      exact ⟨pgsqlByte_eq_iff.mp (some.inj hsays), rfl⟩
    | false =>
      rw [hlegal, if_neg Bool.false_ne_true, pgsqlLiteral_pieces fun c hc => outputs_pgsqlUtf c (hne c hc)] at hsays
      exact absurd (some.inj hsays) (pgsqlUtf_ne hlegal)
  · rintro ⟨hnonzero, hctrlz, hlegal⟩
    have hne : ∀ c ∈ s, c ≠ 0 := fun c hc heq => hnonzero (heq ▸ hc)
    refine ⟨sql_right h, _, quote_pgsql_str_eq h, ?_⟩
    rw [hlegal, if_pos rfl, pgsqlLiteral_pieces fun c hc => outputs_pgsql c (hne c hc), pgsqlByte_eq_iff.mpr hctrlz]

theorem right_iff_quote : Right [39] ↔ (0 : UInt8) ∉ [39] ∧ (26 : UInt8) ∉ [39] ∧ utf_islegal [39] = true :=
  quote_sql_right_iff (cons_ne_nil 39 [])

/-- PostgreSQL is told a `Z` for the byte 26. -/
theorem not_right_controlZ : ¬ ∀ s : Bytes, s ≠ [] → Right s := by
  intro h
  obtain ⟨-, text, htext, hsays⟩ := h [26] (by decide)
  have heq : quote_pgsql_str [26] = some [69, 39, 92, 90, 39] := rfl
  rw [heq] at htext
  cases htext
  exact absurd hsays (by decide)

end OpenResty.Ndk.QuoteSql
