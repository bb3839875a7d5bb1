/-
`redis.parser`: the texts that `parse_reply` takes for a reply.

A reply is read as its headers, as they are in the input, and what they announce. The
parser takes more headers than the protocol has: an integer line without an integer, a
minus with any digits or none, no digits for a zero, and digits whose number wraps around.
-/
import Mathlib.Data.Int.ModEq
import Mathlib.Data.List.Infix
import OpenResty.Resty.RedisPointers

namespace OpenResty.Resty.RedisGrammar

open Lib.Resp RedisParser Option Nat
open List hiding count
open RedisPointers (Input)

/-! ## Replies, with their headers -/

/-- A reply without elements, or an element; `null` has the text after the minus. -/
inductive Part
  | line (c : UInt8) (text : Bytes)
  | null (text : Bytes)
  | bulk (size data : Bytes)

def Part.encode : Part → Bytes
  | .line c text => c :: (text ++ crlf)
  | .null text => 36 :: 45 :: (text ++ crlf)
  | .bulk size data => 36 :: (size ++ (crlf ++ (data ++ crlf)))

inductive Message
  | part (p : Part)
  | null (count : Bytes)
  | multi (count : Bytes) (parts : List Part)

def Message.encode : Message → Bytes
  | .part p => p.encode
  | .null count => 42 :: (count ++ crlf)
  | .multi count parts => 42 :: (count ++ (crlf ++ parts.flatMap Part.encode))

def Digits (text : Bytes) : Prop := ∀ c ∈ text, isDigit c = true

/-- The number that decimal digits stand for -/
def value (text : Bytes) : Nat := text.foldl (fun n c => n * 10 + (c.toNat - 48)) 0

/-- Decimal digits, with or without a sign -/
def IsInteger (text : Bytes) : Prop :=
  ∃ digits, digits ≠ [] ∧ Digits digits ∧ (text = digits ∨ text = 45 :: digits ∨ text = 43 :: digits)

/-! ## The protocol -/

def Part.Complete : Part → Prop
  | .line c text => (c = 43 ∨ c = 45) ∧ ¬ crlf <:+: text ∨ c = 58 ∧ IsInteger text
  | .null text => text = [49]
  | .bulk size data => size ≠ [] ∧ Digits size ∧ value size = data.length ∧ value size < 2 ^ 63

/-- A reply of the supported shapes; the size of a bulk is an `ssize_t`, and the number of elements an `int`. -/
def Message.Complete : Message → Prop
  | .part p => p.Complete
  | .null count => count = [45, 49]
  | .multi count parts =>
    count ≠ [] ∧ Digits count ∧ value count = parts.length ∧ value count < 2 ^ 31 ∧ ∀ p ∈ parts, p.Complete

/-! ## What the parser takes -/

/-- A minus after any digits, with a digit behind it; the count is then -1. -/
def Minus (text : Bytes) : Prop :=
  ∃ digits c junk, text = digits ++ 45 :: c :: junk ∧ Digits digits ∧ isDigit c = true ∧ 13 ∉ junk

def Count (text : Bytes) (n : Int) : Prop := Digits text ∧ n = wrap 32 (value text) ∨ Minus text ∧ n = -1

def Part.Taken : Part → Prop
  | .line c text => (c = 43 ∨ c = 45 ∨ c = 58) ∧ ¬ crlf <:+: text
  | .null text => Digits text
  | .bulk size data => Digits size ∧ wrap 64 (value size) = data.length

def Message.Taken : Message → Prop
  | .part p => p.Taken
  | .null count => Count count (-1)
  | .multi count parts => ∃ n, Count count n ∧ n ≠ -1 ∧ parts.length = n.toNat ∧ ∀ p ∈ parts, p.Taken

/-- An integer is on an integer line, a minus is before a one, and a size has digits and does not wrap around. -/
def Part.Plain : Part → Prop
  | .line c text => c = 58 → IsInteger text
  | .null text => text = [49]
  | .bulk size _ => size ≠ [] ∧ value size < 2 ^ 63

/-- And so have the count and the elements. -/
def Message.Plain : Message → Prop
  | .part p => p.Plain
  | .null count => count = [45, 49]
  | .multi count parts => count ≠ [] ∧ value count < 2 ^ 31 ∧ ∀ p ∈ parts, p.Plain

variable {q r s text : Bytes} {c : UInt8} {n : Int} {k : Nat} {st : Stack}

/-! ## Digits -/

theorem Digits.notMem (h : Digits text) (hc : isDigit c = false) : c ∉ text := fun hmem => by
  rw [h c hmem] at hc
  cases hc

theorem Digits.cons_iff : Digits (c :: text) ↔ isDigit c = true ∧ Digits text := forall_mem_cons

theorem wrap_modEq (w : Nat) (n : Int) : wrap w n ≡ n [ZMOD 2 ^ w] := by
  have h : (n + 2 ^ (w - 1)) % 2 ^ w - 2 ^ (w - 1) ≡ n + 2 ^ (w - 1) - 2 ^ (w - 1) [ZMOD 2 ^ w] :=
    Int.ModEq.sub_right _ (Int.mod_modEq _ _)
  rwa [Int.add_sub_cancel] at h

theorem wrap_congr {w : Nat} {m n : Int} (h : m ≡ n [ZMOD 2 ^ w]) : wrap w m = wrap w n := by
  rw [wrap, wrap, Int.ModEq.eq (h.add_right _)]

/-- Digits read one by one wrap around as their number does. -/
theorem foldl_addDigit (w n : Nat) (text : Bytes) :
    text.foldl (addDigit w) (wrap w n) = wrap w
      ((text.foldl (fun n c => n * 10 + (c.toNat - 48)) n : Nat) : Int) := by
  induction text generalizing n with
  | nil => rfl
  | cons c text ih =>
    have hdigit : addDigit w (wrap w n) c = wrap w ((n * 10 + (c.toNat - 48) : Nat) : Int) := by
      rw [addDigit, cast_add, cast_mul]
      exact wrap_congr (((wrap_modEq w n).mul_right 10).add_right _)
    rw [foldl_cons, foldl_cons, hdigit, ih]

theorem foldl_addDigit_zero {w : Nat} (hw : 0 < w) (text : Bytes) :
    text.foldl (addDigit w) 0 = wrap w (value text) := by
  have hzero : wrap w (0 : Nat) = 0 := wrap_of_lt hw (by positivity)
  rw [value, ← foldl_addDigit, hzero]

/-! ## Headers -/

theorem bulkSize_iff {size : Int} : bulkSize q n = some (size, r) ↔
    ∃ text, Digits text ∧ size = text.foldl (addDigit 64) n ∧ q = text ++ r ∧ ∃ r', r = 13 :: r' := by
  constructor
  · intro h
    induction q generalizing n with
    | nil => cases h
    | cons c q ih =>
      rw [bulkSize] at h
      split_ifs at h with h13 hdigit
      · cases h
        exact ⟨[], forall_mem_nil _, rfl, rfl, q, by rw [h13]⟩
      · obtain ⟨text, htext, rfl, rfl, hr⟩ := ih h
        exact ⟨c :: text, Digits.cons_iff.mpr ⟨hdigit, htext⟩, rfl, rfl, hr⟩
  · rintro ⟨text, htext, rfl, rfl, r', rfl⟩
    exact bulkSize_digits htext

theorem skipDigits_iff : skipDigits q = some r ↔ ∃ text, Digits text ∧ q = text ++ r ∧ ∃ r', r = 13 :: r' := by
  rw [skipDigits_eq q 0, map_eq_some_iff]
  constructor
  · rintro ⟨⟨size, r⟩, h, rfl⟩
    obtain ⟨text, htext, -, heq, hr⟩ := bulkSize_iff.mp h
    exact ⟨text, htext, heq, hr⟩
  · rintro ⟨text, htext, heq, hr⟩
    exact ⟨(_, r), bulkSize_iff.mpr ⟨text, htext, rfl, heq, hr⟩, rfl⟩

theorem fromCr_iff : fromCr q = some r ↔ ∃ junk, 13 ∉ junk ∧ q = junk ++ r ∧ ∃ r', r = 13 :: r' := by
  constructor
  · intro h
    induction q with
    | nil => cases h
    | cons c q ih =>
      rw [fromCr_cons] at h
      split_ifs at h with h13
      · cases h
        exact ⟨[], not_mem_nil, rfl, q, by rw [h13]⟩
      · obtain ⟨junk, hjunk, rfl, hr⟩ := ih h
        exact ⟨c :: junk, not_mem_cons_of_ne_of_not_mem (Ne.symm h13) hjunk, rfl, hr⟩
  · rintro ⟨junk, hjunk, rfl, r', rfl⟩
    induction junk with
    | nil => exact (fromCr_cons 13 r').trans (if_pos rfl)
    | cons c junk ih =>
      rw [cons_append, fromCr_cons, if_neg (ne_of_not_mem_cons hjunk).symm]
      exact ih (not_mem_of_not_mem_cons hjunk)

theorem multiCount_iff {count : Int} : multiCount q n = some (count, r) ↔
    ∃ text, (Digits text ∧ count = text.foldl (addDigit 32) n ∨ Minus text ∧ count = -1) ∧ q = text ++ r ∧
      ∃ r', r = 13 :: r' := by
  constructor
  · intro h
    induction q generalizing n with
    | nil => cases h
    | cons c q ih =>
      by_cases h13 : c = 13
      · rw [multiCount.eq_def] at h
        simp only [if_pos h13] at h
        cases h
        exact ⟨[], .inl ⟨forall_mem_nil _, rfl⟩, rfl, q, by rw [h13]⟩
      by_cases h45 : c = 45
      · subst h45
        rw [multiCount_minus] at h
        cases q with
        | nil => cases h
        | cons d q =>
          dsimp only at h
          split_ifs at h with hdigit
          rw [fromCr_cons, if_neg (ne_of_isDigit hdigit).1] at h
          obtain ⟨r, hr, heq⟩ := map_eq_some_iff.mp h
          cases heq
          obtain ⟨junk, hjunk, rfl, hcr⟩ := fromCr_iff.mp hr
          exact ⟨45 :: d :: junk, .inr ⟨⟨[], d, junk, rfl, forall_mem_nil _, hdigit, hjunk⟩, rfl⟩, rfl, hcr⟩
      rw [multiCount_cons h13 h45] at h
      split_ifs at h with hdigit
      obtain ⟨text, htext, rfl, hr⟩ := ih h
      refine ⟨c :: text, ?_, rfl, hr⟩
      rcases htext with ⟨htext, rfl⟩ | ⟨⟨digits, d, junk, rfl, hdigits, hd, hjunk⟩, rfl⟩
      · exact .inl ⟨Digits.cons_iff.mpr ⟨hdigit, htext⟩, rfl⟩
      · exact .inr ⟨⟨c :: digits, d, junk, rfl, Digits.cons_iff.mpr ⟨hdigit, hdigits⟩, hd, hjunk⟩, rfl⟩
  · rintro ⟨text, ⟨htext, rfl⟩ | ⟨⟨digits, d, junk, rfl, hdigits, hd, hjunk⟩, rfl⟩, rfl, r', rfl⟩
    · rw [multiCount_digits htext, multiCount.eq_def]
      rfl
    · have hcr : fromCr (d :: (junk ++ 13 :: r')) = some (13 :: r') := by
        rw [fromCr_cons, if_neg (ne_of_isDigit hd).1]
        exact fromCr_iff.mpr ⟨junk, hjunk, rfl, r', rfl⟩
      rw [append_assoc, multiCount_digits hdigits, cons_append, cons_append, multiCount_minus]
      dsimp only
      rw [if_pos hd, hcr]
      rfl

/-! ## Lines -/

theorem parse_single_line_reply_cons (h : ¬ crlf <+: c :: q) (i : Nat) :
    parse_single_line_reply (c :: q) false i = parse_single_line_reply q false (i + 1) := by
  rw [parse_single_line_reply]
  by_cases h13 : c = 13
  · subst h13
    rw [if_pos rfl]
    -- after a CR the next byte is no LF, and a CR is seen again
    cases q with
    | nil => rfl
    | cons d q =>
      have h10 : d ≠ 10 := fun h10 => h (h10 ▸ prefix_append crlf q)
      rw [parse_single_line_reply, parse_single_line_reply]
      by_cases hd : d = 13
      · rw [if_pos hd, if_pos hd]
      · rw [if_neg hd, if_neg hd, if_pos rfl, if_neg h10, if_neg (by decide)]
  · rw [if_neg h13, if_neg (by decide)]

/-- A line ends at the first CR LF. -/
theorem parse_single_line_reply_iff {i m : Nat} : parse_single_line_reply q false i = some m ↔
    ∃ text r, ¬ crlf <:+: text ∧ q = text ++ (crlf ++ r) ∧ m = i + text.length := by
  constructor
  · intro h
    induction q generalizing i with
    | nil => cases h
    | cons c q ih =>
      by_cases hcrlf : crlf <+: c :: q
      · obtain ⟨r, hr⟩ := hcrlf
        rw [← hr] at h
        cases h
        exact ⟨[], r, by decide, hr.symm, rfl⟩
      · rw [parse_single_line_reply_cons hcrlf] at h
        obtain ⟨text, r, htext, rfl, rfl⟩ := ih h
        refine ⟨c :: text, r, ?_, rfl, by rw [length_cons]; omega⟩
        rw [infix_cons_iff, not_or]
        refine ⟨fun hpre => hcrlf ?_, htext⟩
        exact hpre.trans (prefix_append (c :: text) (crlf ++ r))
  · rintro ⟨text, r, htext, rfl, rfl⟩
    induction text generalizing i with
    | nil => rfl
    | cons c text ih =>
      rw [infix_cons_iff, not_or] at htext
      have hcons : ¬ crlf <+: c :: (text ++ (crlf ++ r)) := fun hpre => by
        obtain ⟨rfl, hnext⟩ := cons_prefix_cons.mp hpre
        cases text with
        | nil => cases (cons_prefix_cons.mp hnext).1
        | cons d text =>
          obtain ⟨rfl, -⟩ := cons_prefix_cons.mp hnext
          exact htext.1 (prefix_append crlf text)
      rw [cons_append, parse_single_line_reply_cons hcons, ih htext.2, length_cons, Nat.add_right_comm]
      rfl

/-! ## Parts -/

theorem take_text : (text ++ (crlf ++ r)).take text.length = text ∧
    (text ++ (crlf ++ r)).drop (text.length + 2) = r := by
  rw [← append_assoc]
  exact take_line text

theorem parse_bulk_reply_null_iff :
    parse_bulk_reply q = .null r ↔ ∃ text, Digits text ∧ q = 45 :: (text ++ (crlf ++ r)) := by
  constructor
  · intro h
    cases q with
    | nil => cases h
    | cons c q =>
      rw [parse_bulk_reply] at h
      split_ifs at h with h45
      · subst h45
        split at h
        · next rest hskip =>
          cases h
          obtain ⟨text, htext, rfl, -⟩ := skipDigits_iff.mp hskip
          exact ⟨text, htext, rfl⟩
        · cases h
      · split at h
        · rw [bulkData] at h
          split_ifs at h
        · cases h
  · rintro ⟨text, htext, rfl⟩
    have hskip : skipDigits (text ++ (crlf ++ r)) = some (13 :: 10 :: r) :=
      skipDigits_iff.mpr ⟨text, htext, rfl, _, rfl⟩
    simp only [parse_bulk_reply, hskip, if_true]

variable {a b data x y : Bytes}

theorem bulkData_iff {size : Int} :
    bulkData size q = .data data r ↔ size = data.length ∧ q = data ++ (crlf ++ r) := by
  constructor
  · intro h
    rw [bulkData] at h
    split_ifs at h with hneg hlen hcrlf
    obtain ⟨rfl, rfl⟩ := Bulk.data.inj h
    have htake : (q.take size.toNat).length = size.toNat := by
      rw [length_take]
      omega
    refine ⟨by omega, ?_⟩
    rw [← hcrlf, ← drop_drop, take_append_drop, take_append_drop]
  · rintro ⟨rfl, rfl⟩
    have hlen : ¬ (data ++ (crlf ++ r)).length < data.length + 2 := by
      rw [length_append, length_append]
      exact Nat.not_lt.mpr (Nat.add_le_add_left (Nat.le_add_right 2 r.length) _)
    rw [bulkData, if_neg (Int.not_lt.mpr (Int.natCast_nonneg _)), Int.toNat_natCast, if_neg hlen, drop_left,
      if_pos (show (crlf ++ r).take 2 = crlf from rfl), take_text.2, take_left]

theorem parse_bulk_reply_size (h : q.head? ≠ some 45) :
    parse_bulk_reply q =
      match bulkSize q 0 with
      | some (size, 13 :: 10 :: rest) => bulkData size rest
      | _ => .invalid := by
  cases q with
  | nil => rfl
  | cons c q =>
    have h45 : c ≠ 45 := fun h45 => h (h45 ▸ rfl)
    exact if_neg h45

theorem Digits.head (h : Digits text) : (text ++ (crlf ++ r)).head? ≠ some 45 := by
  cases text with
  | nil => exact fun h => by cases h
  | cons c text => exact fun heq => (ne_of_isDigit (Digits.cons_iff.mp h).1).2 (some.inj heq)

theorem parse_bulk_reply_data_iff : parse_bulk_reply q = .data data r ↔
    ∃ size, Digits size ∧ wrap 64 (value size) = data.length ∧ q = size ++ (crlf ++ (data ++ (crlf ++ r))) := by
  constructor
  · intro h
    by_cases h45 : q.head? = some 45
    · obtain ⟨q', rfl⟩ := head?_eq_some_iff.mp h45
      rw [parse_bulk_reply] at h
      simp only [if_true] at h
      split at h <;> cases h
    rw [parse_bulk_reply_size h45] at h
    split at h
    · next size rest hsize =>
      obtain ⟨text, htext, hval, rfl, -⟩ := bulkSize_iff.mp hsize
      obtain ⟨hlen, rfl⟩ := bulkData_iff.mp h
      rw [foldl_addDigit_zero (by decide), hlen] at hval
      exact ⟨text, htext, hval.symm, rfl⟩
    · cases h
  · rintro ⟨size, htext, hval, rfl⟩
    have hsize : bulkSize (size ++ (crlf ++ (data ++ (crlf ++ r)))) 0 = some ((data.length : Int),
      crlf ++ (data ++ (crlf ++ r))) :=
      bulkSize_iff.mpr ⟨size, htext, by rw [foldl_addDigit_zero (by decide), hval], rfl, _, rfl⟩
    rw [parse_bulk_reply_size htext.head, hsize]
    exact bulkData_iff.mpr ⟨rfl, rfl⟩

theorem parseElement_line (hc : c = 43 ∨ c = 45 ∨ c = 58) :
    (∃ v, parseElement (c :: q) = some (v, r)) ↔ ∃ text, ¬ crlf <:+: text ∧ q = text ++ (crlf ++ r) := by
  rw [parseElement, if_pos hc]
  constructor
  · rintro ⟨v, h⟩
    obtain ⟨m, hm, heq⟩ := map_eq_some_iff.mp h
    obtain ⟨text, r', htext, rfl, rfl⟩ := parse_single_line_reply_iff.mp hm
    obtain ⟨-, rfl⟩ := Prod.mk.inj heq
    refine ⟨text, htext, ?_⟩
    rw [Nat.zero_add, take_text.2]
  · rintro ⟨text, htext, rfl⟩
    rw [parse_single_line_reply_iff.mpr ⟨text, r, htext, rfl, rfl⟩, map_some, Nat.zero_add, take_text.2]
    exact ⟨_, rfl⟩

theorem parseElement_bulk : (∃ v, parseElement (36 :: q) = some (v, r)) ↔
    parse_bulk_reply q = .null r ∨ ∃ data, parse_bulk_reply q = .data data r := by
  rw [parseElement, if_neg (by decide), if_pos rfl]
  cases parse_bulk_reply q with
  | invalid => simp
  | null rest => simp
  | data dst rest => simp

theorem parseElement_iff : (∃ v, parseElement q = some (v, r)) ↔ ∃ p : Part, p.Taken ∧ q = p.encode ++ r := by
  constructor
  · rintro ⟨v, h⟩
    cases q with
    | nil => cases h
    | cons c q =>
      by_cases hline : c = 43 ∨ c = 45 ∨ c = 58
      · obtain ⟨text, htext, rfl⟩ := (parseElement_line hline).mp ⟨v, h⟩
        exact ⟨.line c text, ⟨hline, htext⟩, by simp [Part.encode]⟩
      by_cases hbulk : c = 36
      · subst hbulk
        rcases parseElement_bulk.mp ⟨v, h⟩ with hnull | ⟨data, hdata⟩
        · obtain ⟨text, htext, rfl⟩ := parse_bulk_reply_null_iff.mp hnull
          exact ⟨.null text, htext, by simp [Part.encode]⟩
        · obtain ⟨size, hsize, hval, rfl⟩ := parse_bulk_reply_data_iff.mp hdata
          exact ⟨.bulk size data, ⟨hsize, hval⟩, by simp [Part.encode]⟩
      · rw [parseElement, if_neg hline, if_neg hbulk] at h
        cases h
  · rintro ⟨p, hp, rfl⟩
    cases p with
    | line c text => exact (parseElement_line hp.1).mpr ⟨text, hp.2, append_assoc text crlf r⟩
    | null text =>
      rw [Part.encode, cons_append, cons_append, append_assoc]
      exact parseElement_bulk.mpr (.inl (parse_bulk_reply_null_iff.mpr ⟨text, hp, rfl⟩))
    | bulk size data =>
      simp only [Part.encode, cons_append, append_assoc]
      exact parseElement_bulk.mpr (.inr ⟨data, parse_bulk_reply_data_iff.mpr ⟨size, hp.1, hp.2, rfl⟩⟩)

/-! ## Replies -/

theorem parseElements_iff {i : Nat} : (parseElements k i st q).2 = some r ↔
    ∃ parts : List Part, parts.length = k ∧ (∀ p ∈ parts, p.Taken) ∧ q = parts.flatMap Part.encode ++ r := by
  induction k generalizing i st q with
  | zero =>
    constructor
    · intro h
      cases h
      exact ⟨[], rfl, nofun, rfl⟩
    · rintro ⟨parts, hlen, -, rfl⟩
      rw [length_eq_zero_iff.mp hlen]
      rfl
  | succ k ih =>
    rw [parseElements]
    constructor
    · intro h
      split at h
      · cases h
      · next v rest hfirst =>
        obtain ⟨p, hp, rfl⟩ := parseElement_iff.mp ⟨v, hfirst⟩
        obtain ⟨parts, hlen, hparts, rfl⟩ := ih.mp h
        refine ⟨p :: parts, by rw [length_cons, hlen], forall_mem_cons.mpr ⟨hp, hparts⟩, ?_⟩
        rw [flatMap_cons, append_assoc]
    · rintro ⟨parts, hlen, hparts, rfl⟩
      cases parts with
      | nil => cases hlen
      | cons p parts =>
        obtain ⟨hp, hparts⟩ := forall_mem_cons.mp hparts
        rw [flatMap_cons, append_assoc]
        obtain ⟨v, hv⟩ := parseElement_iff.mpr ⟨p, hp, rfl⟩
        rw [hv]
        exact ih.mpr ⟨parts, succ.inj hlen, hparts, rfl⟩

theorem Count.iff_multiCount : Count text n ↔ multiCount (text ++ (crlf ++ r)) 0 = some (n, crlf ++ r) := by
  rw [multiCount_iff]
  constructor
  · intro h
    refine ⟨text, ?_, rfl, 10 :: r, rfl⟩
    rwa [foldl_addDigit_zero (by decide)]
  · rintro ⟨text', h, heq, -⟩
    rw [append_cancel_right heq]
    rwa [foldl_addDigit_zero (by decide)] at h

/-- A part does not start as a multi-bulk reply does. -/
theorem Part.encode_ne {p : Part} (hp : p.Taken) : p.encode ++ r ≠ 42 :: q := by
  cases p with
  | line c text =>
    intro h
    obtain rfl : c = 42 := (List.cons.inj h).1
    exact absurd hp.1 (by decide)
  | null text => exact fun h => absurd (List.cons.inj h).1 (by decide)
  | bulk size data => exact fun h => absurd (List.cons.inj h).1 (by decide)

theorem parse_multi_bulk_reply_iff : (parse_multi_bulk_reply st q).2 = some r ↔
    ∃ m : Message, m.Taken ∧ 42 :: q = m.encode ++ r := by
  constructor
  · intro h
    rw [parse_multi_bulk_reply] at h
    split at h
    · next count rest hcount =>
      obtain ⟨text, -, rfl, -⟩ := multiCount_iff.mp hcount
      have htext : Count text count := Count.iff_multiCount.mpr hcount
      split_ifs at h with hnull
      · subst hnull
        cases h
        exact ⟨.null text, htext, by simp [Message.encode, crlf]⟩
      · obtain ⟨parts, hlen, hparts, rfl⟩ := parseElements_iff.mp h
        exact ⟨.multi text parts, ⟨count, htext, hnull, hlen, hparts⟩, by simp [Message.encode, crlf]⟩
    · cases h
  · rintro ⟨m, hm, heq⟩
    cases m with
    | part p => exact absurd heq.symm (Part.encode_ne hm)
    | null text =>
      obtain rfl : q = text ++ (crlf ++ r) := by simpa [Message.encode] using heq
      rw [parse_multi_bulk_reply, Count.iff_multiCount.mp hm]
      rfl
    | multi text parts =>
      obtain rfl : q = text ++ (crlf ++ (parts.flatMap Part.encode ++ r)) := by simpa [Message.encode] using heq
      obtain ⟨count, hcount, hne, hlen, hparts⟩ := hm
      rw [parse_multi_bulk_reply, Count.iff_multiCount.mp hcount]
      change (if count = -1 then _ else parseElements _ _ _ _).2 = _
      rw [if_neg hne]
      exact parseElements_iff.mpr ⟨parts, hlen, hparts, rfl⟩

theorem parse_reply_part (h : c ≠ 42) :
    (parse_reply (c :: q)).2 ≠ .num BAD_REPLY ↔ ∃ v r, parseElement (c :: q) = some (v, r) := by
  rw [parse_reply, parse_reply_helper, parseElement]
  by_cases hline : c = 43 ∨ c = 45 ∨ c = 58
  · rw [if_pos hline]
    cases parse_single_line_reply q false 0 with
    | none => rcases hline with rfl | rfl | rfl <;> simp
    | some m => rcases hline with rfl | rfl | rfl <;> simp [STATUS_REPLY, ERROR_REPLY, INTEGER_REPLY, BAD_REPLY]
  rw [not_or, not_or] at hline
  obtain ⟨h43, h45, h58⟩ := hline
  by_cases hbulk : c = 36
  · subst hbulk
    cases parse_bulk_reply q <;> simp [BULK_REPLY, BAD_REPLY]
  · simp [h43, h45, h58, hbulk, h]

theorem parse_reply_multi :
    (parse_reply (42 :: q)).2 ≠ .num BAD_REPLY ↔ ∃ r, (parse_multi_bulk_reply [] q).2 = some r := by
  rw [parse_reply, parse_reply_helper]
  obtain ⟨st, rest⟩ := parse_multi_bulk_reply [] q
  cases rest with
  | none => simp
  | some rest => cases st <;> simp [MULTI_BULK_REPLY, BAD_REPLY]

theorem Message.encode_ne_nil (m : Message) : m.encode ≠ [] := by
  cases m with
  | part p => cases p <;> exact cons_ne_nil _ _
  | null count => exact cons_ne_nil _ _
  | multi count parts => exact cons_ne_nil _ _

/-- **A reply is accepted exactly when the input starts with a text that is taken for one.** -/
theorem accepts_iff (q : Bytes) : (parse_reply q).2 ≠ .num BAD_REPLY ↔ ∃ m : Message, m.Taken ∧ m.encode <+: q := by
  cases q with
  | nil =>
    refine ⟨fun h => absurd rfl h, ?_⟩
    rintro ⟨m, -, hpre⟩
    exact absurd (prefix_nil.mp hpre) m.encode_ne_nil
  | cons c q =>
    by_cases h42 : c = 42
    · subst h42
      rw [parse_reply_multi]
      constructor
      · rintro ⟨r, hr⟩
        obtain ⟨m, hm, heq⟩ := parse_multi_bulk_reply_iff.mp hr
        exact ⟨m, hm, r, heq.symm⟩
      · rintro ⟨m, hm, r, heq⟩
        exact ⟨r, parse_multi_bulk_reply_iff.mpr ⟨m, hm, heq.symm⟩⟩
    · rw [parse_reply_part h42]
      constructor
      · rintro ⟨v, r, h⟩
        obtain ⟨p, hp, heq⟩ := parseElement_iff.mp ⟨v, h⟩
        exact ⟨.part p, hp, r, heq.symm⟩
      · rintro ⟨m, hm, r, heq⟩
        cases m with
        | part p =>
          obtain ⟨v, hv⟩ := parseElement_iff.mpr ⟨p, hm, heq.symm⟩
          exact ⟨v, r, hv⟩
        | null count => exact absurd (List.cons.inj heq).1.symm h42
        | multi count parts => exact absurd (List.cons.inj heq).1.symm h42

/-! ## One reading only -/

/-- A header ends at its first CR. -/
theorem header_inj (ha : 13 ∉ a) (hb : 13 ∉ b) (h : a ++ (crlf ++ x) = b ++ (crlf ++ y)) : a = b ∧ x = y := by
  have hx : fromCr (a ++ (crlf ++ x)) = some (crlf ++ x) := fromCr_iff.mpr ⟨a, ha, rfl, _, rfl⟩
  have hy : fromCr (b ++ (crlf ++ y)) = some (crlf ++ y) := fromCr_iff.mpr ⟨b, hb, rfl, _, rfl⟩
  rw [h, hy] at hx
  obtain rfl : y = x := append_cancel_left (some.inj hx)
  exact ⟨append_cancel_right h, rfl⟩

theorem line_inj (ha : ¬ crlf <:+: a) (hb : ¬ crlf <:+: b)
    (h : a ++ (crlf ++ x) = b ++ (crlf ++ y)) :
    a = b ∧ x = y := by
  have hx := parse_single_line_reply_iff (i := 0).mpr ⟨a, x, ha, rfl, rfl⟩
  have hy := parse_single_line_reply_iff (i := 0).mpr ⟨b, y, hb, rfl, rfl⟩
  rw [h, hy] at hx
  have hlen := some.inj hx
  obtain ⟨rfl, htail⟩ := append_inj h (by omega)
  exact ⟨rfl, append_cancel_left htail⟩

theorem Part.inj {p p' : Part} (hp : p.Taken) (hp' : p'.Taken) (h : p.encode ++ x = p'.encode ++ y) :
    p = p' ∧ x = y := by
  have h13 : isDigit 13 = false := rfl
  cases p with
  | line c a =>
    cases p' with
    | line c' b =>
      simp only [Part.encode, cons_append, append_assoc] at h
      obtain ⟨rfl, htail⟩ := List.cons.inj h
      obtain ⟨rfl, rfl⟩ := line_inj hp.2 hp'.2 htail
      exact ⟨rfl, rfl⟩
    | null b =>
      obtain rfl : c = 36 := (List.cons.inj h).1
      exact absurd hp.1 (by decide)
    | bulk size data =>
      obtain rfl : c = 36 := (List.cons.inj h).1
      exact absurd hp.1 (by decide)
  | null a =>
    simp only [Part.encode, cons_append, append_assoc] at h
    cases p' with
    | line c' b =>
      obtain rfl : 36 = c' := (List.cons.inj h).1
      exact absurd hp'.1 (by decide)
    | null b =>
      simp only [cons_append, append_assoc] at h
      obtain ⟨rfl, rfl⟩ := header_inj (Digits.notMem hp h13) (Digits.notMem hp' h13)
        (List.cons.inj (List.cons.inj h).2).2
      exact ⟨rfl, rfl⟩
    | bulk size data =>
      simp only [cons_append, append_assoc] at h
      exact absurd (by rw [← (List.cons.inj h).2]; rfl) hp'.1.head
  | bulk size data =>
    simp only [Part.encode, cons_append, append_assoc] at h
    cases p' with
    | line c' b =>
      obtain rfl : 36 = c' := (List.cons.inj h).1
      exact absurd hp'.1 (by decide)
    | null b =>
      simp only [cons_append, append_assoc] at h
      exact absurd (by rw [(List.cons.inj h).2]; rfl) hp.1.head
    | bulk size' data' =>
      simp only [cons_append, append_assoc] at h
      obtain ⟨rfl, htail⟩ := header_inj (hp.1.notMem h13) (hp'.1.notMem h13) (List.cons.inj h).2
      have hlen : data.length = data'.length := Int.ofNat.inj (hp.2.symm.trans hp'.2)
      obtain ⟨rfl, hrest⟩ := append_inj htail hlen
      exact ⟨rfl, append_cancel_left hrest⟩

theorem parts_inj {ps ps' : List Part} (hlen : ps.length = ps'.length) (hp : ∀ p ∈ ps, p.Taken)
    (hp' : ∀ p ∈ ps', p.Taken) (h : ps.flatMap Part.encode ++ x = ps'.flatMap Part.encode ++ y) :
    ps = ps' ∧ x = y := by
  induction ps generalizing ps' with
  | nil =>
    rw [length_nil, eq_comm, length_eq_zero_iff] at hlen
    subst hlen
    exact ⟨rfl, h⟩
  | cons p ps ih =>
    cases ps' with
    | nil => cases hlen
    | cons p' ps' =>
      rw [flatMap_cons, flatMap_cons, append_assoc, append_assoc] at h
      obtain ⟨hfirst, hps⟩ := forall_mem_cons.mp hp
      obtain ⟨hfirst', hps'⟩ := forall_mem_cons.mp hp'
      obtain ⟨rfl, htail⟩ := Part.inj hfirst hfirst' h
      obtain ⟨rfl, rfl⟩ := ih (succ.inj hlen) hps hps' htail
      exact ⟨rfl, rfl⟩

theorem Minus.notMem (h : Minus text) : 13 ∉ text := by
  obtain ⟨digits, c, junk, rfl, hdigits, hc, hjunk⟩ := h
  have h13 : (13 : UInt8) ≠ c := fun h13 => (ne_of_isDigit hc).1 h13.symm
  rw [mem_append, mem_cons, mem_cons]
  rintro (hmem | hmem | hmem | hmem)
  · exact hdigits.notMem rfl hmem
  · cases hmem
  · exact h13 hmem
  · exact hjunk hmem

theorem Count.notMem (h : Count text n) : 13 ∉ text := by
  rcases h with ⟨hdigits, -⟩ | ⟨hminus, -⟩
  · exact hdigits.notMem rfl
  · exact hminus.notMem

theorem Count.unique {m : Int} (h : Count text n) (h' : Count text m) : n = m := by
  have hn := Count.iff_multiCount (r := []).mp h
  rw [Count.iff_multiCount.mp h'] at hn
  exact (Prod.mk.inj (some.inj hn)).1.symm

/-- What is taken for a reply is one text with one reading. -/
theorem Message.inj {m m' : Message} (hm : m.Taken) (hm' : m'.Taken)
    (h : m.encode ++ x = m'.encode ++ y) :
    m = m' := by
  cases m with
  | part p =>
    cases m' with
    | part p' => rw [(Part.inj hm hm' h).1]
    | null b => exact absurd h (Part.encode_ne hm)
    | multi b parts => exact absurd h (Part.encode_ne hm)
  | null a =>
    cases m' with
    | part p' => exact absurd h.symm (Part.encode_ne hm')
    | null b =>
      simp only [Message.encode, cons_append, append_assoc] at h
      rw [(header_inj (Count.notMem hm) (Count.notMem hm') (List.cons.inj h).2).1]
    | multi b parts =>
      obtain ⟨n, hn, hne, -⟩ := hm'
      simp only [Message.encode, cons_append, append_assoc] at h
      obtain ⟨rfl, -⟩ := header_inj (Count.notMem hm) hn.notMem (List.cons.inj h).2
      exact absurd (hn.unique hm) hne
  | multi a parts =>
    obtain ⟨n, hn, hne, hlen, hparts⟩ := hm
    cases m' with
    | part p' => exact absurd h.symm (Part.encode_ne hm')
    | null b =>
      simp only [Message.encode, cons_append, append_assoc] at h
      obtain ⟨rfl, -⟩ := header_inj hn.notMem (Count.notMem hm') (List.cons.inj h).2
      exact absurd (hn.unique hm') hne
    | multi b parts' =>
      obtain ⟨n', hn', -, hlen', hparts'⟩ := hm'
      simp only [Message.encode, cons_append, append_assoc] at h
      obtain ⟨rfl, htail⟩ := header_inj hn.notMem hn'.notMem (List.cons.inj h).2
      obtain rfl := hn.unique hn'
      rw [(parts_inj (hlen.trans hlen'.symm) hparts hparts' htail).1]

/-! ## What is taken and plain is what the protocol has -/

theorem IsInteger.notMem (h : IsInteger text) : 13 ∉ text := by
  obtain ⟨digits, -, hdigits, rfl | rfl | rfl⟩ := h
  · exact hdigits.notMem rfl
  · exact not_mem_cons_of_ne_of_not_mem (by decide) (hdigits.notMem rfl)
  · exact not_mem_cons_of_ne_of_not_mem (by decide) (hdigits.notMem rfl)

theorem IsInteger.no_crlf (h : IsInteger text) : ¬ crlf <:+: text := fun hin =>
  h.notMem (hin.subset (mem_cons_self : (13 : UInt8) ∈ crlf))

theorem Part.complete_iff (p : Part) : p.Complete ↔ p.Taken ∧ p.Plain := by
  cases p with
  | line c text =>
    constructor
    · rintro (⟨hc, htext⟩ | ⟨rfl, htext⟩)
      · refine ⟨⟨hc.imp_right .inl, htext⟩, fun h58 => ?_⟩
        rw [h58] at hc
        exact absurd hc (by decide)
      · exact ⟨⟨.inr (.inr rfl), htext.no_crlf⟩, fun _ => htext⟩
    · rintro ⟨⟨hc | hc | hc, htext⟩, hplain⟩
      · exact .inl ⟨.inl hc, htext⟩
      · exact .inl ⟨.inr hc, htext⟩
      · exact .inr ⟨hc, hplain hc⟩
  | null text =>
    refine ⟨fun h => ⟨?_, h⟩, And.right⟩
    obtain rfl : text = [49] := h
    exact fun c hc => by rw [mem_singleton.mp hc]; rfl
  | bulk size data =>
    constructor
    · rintro ⟨hne, hdigits, hlen, hlt⟩
      exact ⟨⟨hdigits, by rw [wrap_of_lt (by decide) hlt, hlen]⟩, hne, hlt⟩
    · rintro ⟨⟨hdigits, hwrap⟩, hne, hlt⟩
      rw [wrap_of_lt (by decide) hlt] at hwrap
      exact ⟨hne, hdigits, Int.ofNat.inj hwrap, hlt⟩

theorem forall_complete_iff (parts : List Part) :
    (∀ p ∈ parts, p.Complete) ↔ (∀ p ∈ parts, p.Taken) ∧ ∀ p ∈ parts, p.Plain := by
  simp only [Part.complete_iff]
  exact ⟨fun h => ⟨fun p hp => (h p hp).1, fun p hp => (h p hp).2⟩, fun h p hp => ⟨h.1 p hp, h.2 p hp⟩⟩

theorem Message.complete_iff (m : Message) : m.Complete ↔ m.Taken ∧ m.Plain := by
  cases m with
  | part p => exact p.complete_iff
  | null count =>
    refine ⟨fun h => ⟨?_, h⟩, And.right⟩
    obtain rfl : count = [45, 49] := h
    exact .inr ⟨⟨[], 49, [], rfl, nofun, rfl, not_mem_nil⟩, rfl⟩
  | multi count parts =>
    constructor
    · rintro ⟨hne, hdigits, hlen, hlt, hparts⟩
      obtain ⟨htaken, hplain⟩ := (forall_complete_iff parts).mp hparts
      have hwrap : wrap 32 (value count) = value count := wrap_of_lt (by decide) hlt
      refine ⟨⟨value count, .inl ⟨hdigits, hwrap.symm⟩, by omega, ?_, htaken⟩, hne, hlt, hplain⟩
      rw [Int.toNat_natCast, hlen]
    · rintro ⟨⟨n, ⟨hdigits, hcount⟩ | ⟨-, hcount⟩, hn, hlen, htaken⟩, hne, hlt, hplain⟩
      · have hwrap : wrap 32 (value count) = value count := wrap_of_lt (by decide) hlt
        rw [hcount, hwrap, Int.toNat_natCast] at hlen
        exact ⟨hne, hdigits, hlen.symm, hlt, (forall_complete_iff parts).mpr ⟨htaken, hplain⟩⟩
      · exact absurd hcount hn

/-! ## Any input -/

/-- The type that `parse_reply` returns is another than `BAD_REPLY`. -/
def Accepts (s : Input) : Prop := ∃ res typ, RedisPointers.parse_reply s.1 = .ok (res, typ) ∧ typ ≠ .num BAD_REPLY

/-- No read is outside of the input, and what is accepted starts with a reply of the protocol. -/
structure Right (s : Input) : Prop where
  reads : ∃ r, RedisPointers.parse_reply s.1 = .ok r
  accepts : Accepts s ↔ ∃ m : Message, m.Complete ∧ m.encode <+: s.1

/-- A text at the start of the input that is taken for a reply has the headers of one. -/
def Careful (s : Bytes) : Prop := ∀ m : Message, m.encode <+: s → m.Taken → m.Plain

theorem Accepts.iff_taken (s : Input) : Accepts s ↔ ∃ m : Message, m.Taken ∧ m.encode <+: s.1 := by
  rw [← accepts_iff, Accepts, RedisPointers.parse_reply_eq]
  constructor
  · rintro ⟨res, typ, h, hne⟩
    rw [Except.ok.inj h]
    exact hne
  · exact fun h => ⟨_, _, rfl, h⟩

theorem Right.careful {s : Input} (h : Right s) : Careful s.1 := by
  intro m hpre hm
  obtain ⟨m', hm', hpre'⟩ := h.accepts.mp ((Accepts.iff_taken s).mpr ⟨m, hm, hpre⟩)
  obtain ⟨htaken, hplain⟩ := m'.complete_iff.mp hm'
  obtain ⟨x, hx⟩ := hpre
  obtain ⟨y, hy⟩ := hpre'
  rwa [Message.inj hm htaken (hx.trans hy.symm)]

/-- **`parse_reply` accepts exactly the inputs that start with a complete reply, as long as no text that
it takes for one has a header that the protocol has not.** -/
theorem grammar_right_iff (s : Input) : Right s ↔ Careful s.1 := by
  refine ⟨Right.careful, fun h => ⟨⟨_, RedisPointers.parse_reply_eq s⟩, ?_⟩⟩
  rw [Accepts.iff_taken]
  constructor
  · rintro ⟨m, hm, hpre⟩
    exact ⟨m, m.complete_iff.mpr ⟨hm, h m hpre hm⟩, hpre⟩
  · rintro ⟨m, hm, hpre⟩
    exact ⟨m, (m.complete_iff.mp hm).1, hpre⟩

/-- A minus without a digit, which the count of a multi-bulk reply may not have -/
def bareMinus : Input := ⟨ascii "$-\r\n".toList, by decide⟩

theorem not_right_bareMinus : ¬ Right bareMinus := by
  intro h
  have hplain := h.careful (.part (.null [])) (prefix_refl _) nofun
  cases hplain

end OpenResty.Resty.RedisGrammar
