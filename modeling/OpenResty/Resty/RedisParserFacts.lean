/-
What the parser makes of well-formed replies, of requests, and of any input.

A reply that `parse_reply` takes leaves the stack with its value and type on it,
and a bad one leaves it so too, unless an element of a multi-bulk reply is bad:
then the table of the elements before it is left below them.
-/
import OpenResty.Resty.RedisParser

namespace OpenResty.Resty.RedisParser

open Lib.Resp List Option
open Lib (lookup_assign lookup_unassign assign unassign)

variable {q rest t : Bytes} {c : UInt8} {st : Stack}

/-! ## Sizes -/

theorem digit_facts : ∀ d < 10, isDigit (digit d) = true ∧ (digit d).toNat - 48 = d := by decide

variable {i k n w : Nat}

/-- A number that fits does not wrap around. -/
theorem wrap_of_lt (hw : 0 < w) (h : n < 2 ^ (w - 1)) : wrap w n = n := by
  have hpow : (2 : Int) ^ w = 2 ^ (w - 1) + 2 ^ (w - 1) := by
    rw [← two_mul, ← pow_succ', Nat.sub_add_cancel hw]
  have hn : (n : Int) < 2 ^ (w - 1) := by exact_mod_cast h
  rw [wrap, hpow, Int.emod_eq_of_lt (by positivity) (by omega)]
  omega

theorem addDigit_digit (hw : 0 < w) (h : n < 2 ^ (w - 1)) : addDigit w (n / 10 : Nat) (digit (n % 10)) = n := by
  have hdiv : (n / 10) * 10 + n % 10 = n := Nat.div_add_mod' n 10
  have hval : (((n / 10 : Nat) : Int) * 10 + ((digit (n % 10)).toNat - 48 : Nat)) = n := by
    rw [(digit_facts (n % 10) (Nat.mod_lt _ (by decide))).2]
    exact_mod_cast hdiv
  rw [addDigit, hval, wrap_of_lt hw h]

theorem foldl_decimal (hw : 0 < w) (h : n < 2 ^ (w - 1)) : (decimal n).foldl (addDigit w) 0 = n := by
  induction n using decimal_induction with
  | digit n hn =>
    have hadd := addDigit_digit hw h
    rw [Nat.div_eq_of_lt hn, Nat.mod_eq_of_lt hn] at hadd
    rw [decimal_of_lt hn]
    exact hadd
  | append n hn ih =>
    rw [decimal_of_le hn, foldl_append, ih (by omega)]
    exact addDigit_digit hw h

theorem isDigit_decimal (n : Nat) : ∀ c ∈ decimal n, isDigit c = true := fun c hc => by
  obtain ⟨d, hd, rfl⟩ := mem_decimal hc
  exact (digit_facts d hd).1

theorem ne_of_isDigit (h : isDigit c = true) : c ≠ 13 ∧ c ≠ 45 := by
  refine ⟨?_, ?_⟩ <;> rintro rfl <;> cases h

/-- The size of a bulk is read digit by digit. -/
theorem bulkSize_digits {n : Int} (h : ∀ c ∈ t, isDigit c = true) :
    bulkSize (t ++ rest) n = bulkSize rest (t.foldl (addDigit 64) n) := by
  induction t generalizing n with
  | nil => rfl
  | cons c t ih =>
    obtain ⟨hdigit, h⟩ := forall_mem_cons.mp h
    rw [cons_append, bulkSize, if_neg (ne_of_isDigit hdigit).1, if_pos hdigit, ih h, foldl_cons]

theorem bulkSize_decimal (h : n < 2 ^ 63) : bulkSize (decimal n ++ t) 0 = bulkSize t n := by
  rw [bulkSize_digits (isDigit_decimal n), foldl_decimal (by decide) h]

theorem skipDigits_eq (q : Bytes) (size : Int) : skipDigits q = (bulkSize q size).map Prod.snd := by
  induction q generalizing size with
  | nil => rfl
  | cons c q ih =>
    rw [skipDigits, bulkSize]
    split_ifs
    · rfl
    · exact ih (addDigit 64 size c)
    · rfl

theorem wrap_bounds (hw : 0 < w) (n : Int) : -2 ^ (w - 1) ≤ wrap w n ∧ wrap w n < 2 ^ (w - 1) := by
  have hpow : (2 : Int) ^ w = 2 * 2 ^ (w - 1) := by rw [← pow_succ', Nat.sub_add_cancel hw]
  have hpos : (0 : Int) < 2 ^ w := by positivity
  have hlow := Int.emod_nonneg (n + 2 ^ (w - 1)) hpos.ne'
  have hhigh := Int.emod_lt_of_pos (n + 2 ^ (w - 1)) hpos
  rw [wrap]
  omega

theorem bulkSize_bounds {size n : Int} (h : bulkSize q n = some (size, rest)) (hn : -2 ^ 63 ≤ n ∧ n < 2 ^ 63) :
    -2 ^ 63 ≤ size ∧ size < 2 ^ 63 := by
  induction q generalizing n with
  | nil => cases h
  | cons c q ih =>
    rw [bulkSize] at h
    split_ifs at h
    · cases h
      exact hn
    · exact ih h (wrap_bounds (by decide) _)

/-- The rest of the input from the first CR on -/
def fromCr (q : Bytes) : Option Bytes :=
  match q.dropWhile (· ≠ 13) with
  | [] => none
  | rest => some rest

theorem fromCr_cons (c : UInt8) (q : Bytes) : fromCr (c :: q) = if c = 13 then some (c :: q) else fromCr q := by
  by_cases h13 : c = 13 <;> simp [fromCr, h13]

theorem multiCount_minus (q : Bytes) (count : Int) :
    multiCount (45 :: q) count =
      match q with
      | [] => none
      | d :: q => if isDigit d then (fromCr (d :: q)).map ((-1 : Int), ·) else none := by
  rw [multiCount.eq_def]
  cases q with
  | nil => rfl
  | cons d q =>
    simp only [fromCr]
    rw [if_neg (by decide), if_pos trivial]
    cases hdrop : (d :: q).dropWhile (· ≠ 13) <;> rfl

theorem multiCount_cons (h13 : c ≠ 13) (h45 : c ≠ 45) (q : Bytes) (count : Int) :
    multiCount (c :: q) count = if isDigit c then multiCount q (addDigit 32 count c) else none := by
  rw [multiCount.eq_def]
  simp only [if_neg h13, if_neg h45]

/-- And so is the count of a multi-bulk reply. -/
theorem multiCount_digits {n : Int} (h : ∀ c ∈ t, isDigit c = true) :
    multiCount (t ++ rest) n = multiCount rest (t.foldl (addDigit 32) n) := by
  induction t generalizing n with
  | nil => rfl
  | cons c t ih =>
    obtain ⟨hdigit, h⟩ := forall_mem_cons.mp h
    obtain ⟨h13, h45⟩ := ne_of_isDigit hdigit
    rw [cons_append, multiCount_cons h13 h45, if_pos hdigit, ih h, foldl_cons]

theorem multiCount_decimal (h : n < 2 ^ 31) : multiCount (decimal n ++ t) 0 = multiCount t n := by
  rw [multiCount_digits (isDigit_decimal n), foldl_decimal (by decide) h]

/-! ## Elements -/

theorem parse_single_line_reply_crlf {s : Bytes} (hs : 13 ∉ s) (i : Nat) :
    parse_single_line_reply (s ++ (crlf ++ rest)) false i = some (i + s.length) := by
  induction s generalizing i with
  | nil => rfl
  | cons c s ih =>
    rw [mem_cons, not_or] at hs
    rw [cons_append, parse_single_line_reply, if_neg (Ne.symm hs.1), if_neg (by decide), ih hs.2, length_cons,
      Nat.add_right_comm]
    rfl

theorem parse_single_line_reply_line (s : Line) :
    parse_single_line_reply (s.1 ++ crlf ++ rest) false 0 = some s.1.length := by
  rw [append_assoc, parse_single_line_reply_crlf s.2.1, Nat.zero_add]

/-- The bytes around a text of one line. -/
theorem take_line (s : Bytes) : (s ++ crlf ++ rest).take s.length = s ∧ (s ++ crlf ++ rest).drop (s.length + 2) = rest := by
  refine ⟨by rw [append_assoc, take_left], ?_⟩
  have hlen : (s ++ crlf).length = s.length + 2 := length_append
  rw [← hlen, drop_left]

theorem parse_bulk_reply_bulk (s : LuaString) :
    parse_bulk_reply (decimal s.1.length ++ crlf ++ s.1 ++ crlf ++ rest) = .data s.1 rest := by
  have hsize : bulkSize (decimal s.1.length ++ (crlf ++ (s.1 ++ (crlf ++ rest)))) 0 =
      some ((s.1.length : Int), crlf ++ (s.1 ++ (crlf ++ rest))) := by
    rw [bulkSize_decimal (s.2.trans (by decide))]
    rfl
  have hdata : bulkData s.1.length (s.1 ++ (crlf ++ rest)) = .data s.1 rest := by
    have hlen : ¬(s.1 ++ (crlf ++ rest)).length < s.1.length + 2 := by simp [crlf]
    have htail : (s.1 ++ crlf ++ rest).drop (s.1.length + 2) = rest := (take_line s.1).2
    rw [append_assoc] at htail
    rw [bulkData, if_neg (by omega), Int.toNat_natCast, if_neg hlen, drop_left, if_pos (by rfl), take_left, htail]
  obtain ⟨c, q, hcq⟩ := exists_cons_of_ne_nil (decimal_ne_nil s.1.length)
  obtain ⟨d, hd, rfl⟩ := mem_decimal (hcq ▸ mem_cons_self : c ∈ decimal s.1.length)
  simp only [append_assoc]
  rw [hcq, cons_append] at hsize ⊢
  rw [parse_bulk_reply]
  simp only [if_neg (digit_ne hd).2.2, hsize]
  exact hdata

theorem parse_bulk_reply_null : parse_bulk_reply (45 :: 49 :: crlf ++ rest) = .null rest := rfl

/-- What an element of a multi-bulk reply is parsed to. -/
def elementValue : Lib.Resp.Item → LVal
  | .status s => .str s.1
  | .error s => .str s.1
  | .integer n => .str (decimalInt n)
  | .bulk s => .str s.1
  | .null => .nil

theorem notMem_decimalInt (n : Int) : (13 : UInt8) ∉ decimalInt n := by
  have hdec : ∀ n, (13 : UInt8) ∉ decimal n := by
    intro n h
    obtain ⟨d, hd, heq⟩ := mem_decimal h
    exact (digit_ne hd).1 heq.symm
  cases n with
  | ofNat n => exact hdec n
  | negSucc n =>
    rw [decimalInt, mem_cons, not_or]
    exact ⟨by decide, hdec _⟩

theorem parseElement_encode (i : Lib.Resp.Item) : parseElement (i.encode ++ rest) = some (elementValue i, rest) := by
  have line : ∀ (c : UInt8) (s : Bytes), c = 43 ∨ c = 45 ∨ c = 58 → 13 ∉ s →
      parseElement (c :: (s ++ crlf) ++ rest) = some (.str s, rest) := by
    intro c s hc hs
    have hparse : parse_single_line_reply (s ++ (crlf ++ rest)) false 0 = some (0 + s.length) :=
      parse_single_line_reply_crlf hs 0
    rw [Nat.zero_add] at hparse
    rw [cons_append, parseElement, if_pos hc, append_assoc, hparse, map_some, ← append_assoc,
      (take_line s).1, (take_line s).2]
  cases i with
  | status s => exact line 43 s.1 (.inl rfl) s.2.1
  | error s => exact line 45 s.1 (.inr (.inl rfl)) s.2.1
  | integer n => exact line 58 (decimalInt n) (.inr (.inr rfl)) (notMem_decimalInt n)
  | bulk s =>
    rw [Lib.Resp.Item.encode, cons_append, parseElement, if_neg (by decide), if_pos rfl, parse_bulk_reply_bulk]
    rfl
  | null => rfl

/-! ## Tables of elements -/

/-- The fields with the values from index `i` on. -/
def fill : LVal → Nat → List LVal → LVal
  | t, _, [] => t
  | t, i, v :: vs => fill (t.set i v) (i + 1) vs

/-- The table `{ vs[1], vs[2], ... }`, whose values may be nil. -/
def LVal.array (vs : List LVal) : LVal := fill (.table []) 1 vs

/-- The elements of a multi-bulk reply before a bad one. -/
def beforeBad : Nat → Bytes → Option (List LVal)
  | 0, _ => none
  | k + 1, p =>
    match parseElement p with
    | none => some []
    | some (v, p) => (beforeBad k p).map (v :: ·)

variable {p : Bytes} {vs : List LVal}

theorem parseElements_bad {tab : LVal} (h : beforeBad k p = some vs) :
    parseElements k i (tab :: st) p = (fill tab i vs :: st, none) := by
  induction k generalizing i tab p vs with
  | zero => cases h
  | succ k ih =>
    rw [beforeBad] at h
    rw [parseElements]
    split
    · next hp =>
      rw [hp] at h
      cases h
      rfl
    · next v p' hp =>
      rw [hp] at h
      obtain ⟨vs, hvs, rfl⟩ := map_eq_some_iff.mp h
      exact ih hvs

theorem parseElements_good {tab : LVal} (h : beforeBad k p = none) :
    ∃ vs p', vs.length = k ∧ ∀ st, parseElements k i (tab :: st) p = (fill tab i vs :: st, some p') := by
  induction k generalizing i tab p with
  | zero => exact ⟨[], p, rfl, fun _ => rfl⟩
  | succ k ih =>
    rw [beforeBad] at h
    simp only [parseElements]
    cases hp : parseElement p with
    | none =>
      rw [hp] at h
      cases h
    | some vp =>
      rw [hp] at h
      obtain ⟨vs, p', hlen, hvs⟩ := ih (i := i + 1) (map_eq_none_iff.mp h)
      exact ⟨vp.1 :: vs, p', by rw [length_cons, hlen], hvs⟩

theorem parseElements_encode (items : List Lib.Resp.Item) (i : Nat) (tab : LVal) :
    parseElements items.length i (tab :: st) (items.flatMap Lib.Resp.Item.encode ++ rest) =
      (fill tab i (items.map elementValue) :: st, some rest) := by
  induction items generalizing i tab with
  | nil => rfl
  | cons x items ih =>
    rw [flatMap_cons, append_assoc, length_cons, parseElements, parseElement_encode]
    exact ih (i + 1) (tab.set i (elementValue x))

/-! ## Replies -/

/-- The elements that come before a bad one, when the input starts with a
multi-bulk reply that has one. -/
def badElement : Bytes → Option (List LVal)
  | [] => none
  | c :: q =>
    if c = 42 then
      match multiCount q 0 with
      | some (count, 13 :: 10 :: p) => if count = -1 then none else beforeBad count.toNat p
      | _ => none
    else none

theorem multi_bad {q : Bytes} (h : badElement (42 :: q) = some vs) (st : Stack) :
    parse_multi_bulk_reply st q = (LVal.array vs :: st, none) := by
  rw [badElement, if_pos rfl] at h
  rw [parse_multi_bulk_reply]
  split at h
  · next count p hcount =>
    split at h
    · cases h
    · next hne =>
      simp only [hcount, if_neg hne]
      exact parseElements_bad h
  · cases h

/-- A multi-bulk reply whose header is bad leaves the stack as it was; any other
pushes a value. -/
theorem multi_good {q : Bytes} (h : badElement (42 :: q) = none) :
    (∀ st, parse_multi_bulk_reply st q = (st, none)) ∨
      ∃ v rest, ∀ st, parse_multi_bulk_reply st q = (v :: st, some rest) := by
  rw [badElement, if_pos rfl] at h
  split at h
  · next count p hcount =>
    right
    simp only [parse_multi_bulk_reply, hcount]
    split at h
    · next hnull =>
      simp only [if_pos hnull]
      exact ⟨.nil, p, fun _ => rfl⟩
    · next hne =>
      obtain ⟨vs, p', -, hvs⟩ := parseElements_good (i := 1) h
      simp only [if_neg hne]
      exact ⟨_, p', hvs⟩
  · next hbad =>
    left
    intro st
    rw [parse_multi_bulk_reply]
    split
    · next count p hcount => exact absurd hcount (hbad count p)
    · rfl

/-- What is left of the input after a reply. -/
def afterReply (p : Bytes) : Bytes := (parse_reply_helper [] p).2

/-- Without a bad element, a result and its type are pushed; a bad reply consumes nothing. -/
theorem helper_cases (h : badElement p = none) :
    (∃ msg, ∀ st, parse_reply_helper st p = (.num BAD_REPLY :: text msg :: st, p)) ∨
      ∃ typ res rest, typ ≠ BAD_REPLY ∧ ∀ st, parse_reply_helper st p = (.num typ :: res :: st, rest) := by
  cases p with
  | nil => exact .inl ⟨_, fun _ => rfl⟩
  | cons c q =>
    simp only [parse_reply_helper]
    split_ifs with h43 h45 h58 h36 h42
    · cases parse_single_line_reply q false 0 with
      | none => exact .inl ⟨_, fun _ => rfl⟩
      | some n => exact .inr ⟨STATUS_REPLY, _, _, by decide, fun _ => rfl⟩
    · cases parse_single_line_reply q false 0 with
      | none => exact .inl ⟨_, fun _ => rfl⟩
      | some n => exact .inr ⟨ERROR_REPLY, _, _, by decide, fun _ => rfl⟩
    · cases parse_single_line_reply q false 0 with
      | none => exact .inl ⟨_, fun _ => rfl⟩
      | some n => exact .inr ⟨INTEGER_REPLY, _, _, by decide, fun _ => rfl⟩
    · cases parse_bulk_reply q with
      | invalid => exact .inl ⟨_, fun _ => rfl⟩
      | null rest => exact .inr ⟨BULK_REPLY, _, _, by decide, fun _ => rfl⟩
      | data dst rest => exact .inr ⟨BULK_REPLY, _, _, by decide, fun _ => rfl⟩
    · subst h42
      rcases multi_good h with hmulti | ⟨v, rest, hmulti⟩
      · simp only [hmulti]
        exact .inl ⟨_, fun _ => rfl⟩
      · simp only [hmulti]
        exact .inr ⟨MULTI_BULK_REPLY, _, _, by decide, fun _ => rfl⟩
    · exact .inl ⟨_, fun _ => rfl⟩

theorem helper_good (h : badElement p = none) (st : Stack) :
    parse_reply_helper st p = ((parse_reply p).2 :: (parse_reply p).1 :: st, afterReply p) := by
  rw [parse_reply, afterReply]
  rcases helper_cases h with ⟨msg, hst⟩ | ⟨typ, res, rest, -, hst⟩
  · simp only [hst]
  · simp only [hst]

/-- With one, the table of the elements before it is left below them. -/
theorem helper_bad (h : badElement p = some vs) (st : Stack) :
    parse_reply_helper st p = (.num BAD_REPLY :: text "bad multi bulk reply" :: LVal.array vs :: st, p) := by
  cases p with
  | nil => cases h
  | cons c q =>
    by_cases h42 : c = 42
    · subst h42
      have hmulti := multi_bad h st
      simp only [parse_reply_helper, hmulti]
      rfl
    · rw [badElement, if_neg h42] at h
      cases h

theorem parse_reply_bad (h : badElement p = some vs) :
    parse_reply p = (text "bad multi bulk reply", .num BAD_REPLY) ∧ afterReply p = p := by
  rw [parse_reply, afterReply, helper_bad h]
  exact ⟨rfl, rfl⟩

/-- A bad reply consumes nothing. -/
theorem afterReply_of_bad (h : (parse_reply p).2 = .num BAD_REPLY) : afterReply p = p := by
  cases hbad : badElement p with
  | some vs => exact (parse_reply_bad hbad).2
  | none =>
    rcases helper_cases hbad with ⟨msg, hst⟩ | ⟨typ, res, rest, htyp, hst⟩
    · rw [afterReply, hst]
    · rw [parse_reply, hst] at h
      exact absurd (LVal.num.inj h) htyp

/-! ## The loop -/

/-- The table of a result and its type. -/
def pair (r : LVal × LVal) : LVal := ((LVal.table []).set 2 r.2).set 1 r.1

/-- What is left after `k` replies. -/
def afterReplies : Nat → Bytes → Bytes
  | 0, p => p
  | k + 1, p => afterReplies k (afterReply p)

/-- The results of `k` replies. -/
def results : Nat → Bytes → List (LVal × LVal)
  | 0, _ => []
  | k + 1, p => parse_reply p :: results k (afterReply p)

theorem parseNext_good (h : badElement p = none) (i : Nat) (tab : LVal) (st : Stack) :
    parseNext i (tab :: st) p = (tab.set i (pair (parse_reply p)) :: st, afterReply p) := by
  rw [parseNext, helper_good h]
  rfl

theorem parseNext_bad (h : badElement p = some vs) (i : Nat) (tab : LVal) (st : Stack) :
    parseNext i (tab :: st) p =
      ((LVal.table []).set i (((LVal.array vs).set 2 (.num BAD_REPLY)).set 1 (text "bad multi bulk reply")) :: tab :: st, p) := by
  rw [parseNext, helper_bad h]
  rfl

/-- The first `a` replies, without bad elements, are in the table. -/
theorem parseLoop_good {a : Nat} (b : Nat) (h : ∀ j < a, badElement (afterReplies j p) = none)
    (tab : LVal) (st : Stack) :
    parseLoop (a + b) i (tab :: st) p =
      parseLoop b (i + a) (fill tab i ((results a p).map pair) :: st) (afterReplies a p) := by
  induction a generalizing i p tab with
  | zero =>
    rw [Nat.zero_add]
    rfl
  | succ a ih =>
    have hfirst : badElement p = none := h 0 (Nat.zero_lt_succ a)
    rw [Nat.succ_add, parseLoop, parseNext_good hfirst, ih (fun j hj => h (j + 1) (Nat.succ_lt_succ hj)),
      Nat.add_right_comm, Nat.add_assoc]
    rfl

/-- The table of the elements before a bad one, with a pair over its first two. -/
def leftover (vs : List LVal) : LVal := ((LVal.array vs).set 2 (.num BAD_REPLY)).set 1 (text "bad multi bulk reply")

/-- After a bad element every further reply is the same bad one, and the table
at the top has the last of them only. -/
theorem parseLoop_bad (h : badElement p = some vs) (hk : 0 < k) (tab : LVal)
    (st : Stack) :
    (parseLoop k i (tab :: st) p).headD .nil = (LVal.table []).set (i + k - 1) (leftover vs) := by
  induction k generalizing i tab st with
  | zero => cases hk
  | succ k ih =>
    rw [parseLoop, parseNext_bad h]
    rcases Nat.eq_zero_or_pos k with rfl | hk
    · rfl
    · rw [ih hk, show i + 1 + k - 1 = i + (k + 1) - 1 by omega]

/-! ## What is in a table -/

def LVal.IsTable (v : LVal) : Prop := ∃ fields, v = .table fields

theorem isTable_set {t : LVal} (h : t.IsTable) (n : Nat) (v : LVal) : (t.set n v).IsTable := by
  obtain ⟨fields, rfl⟩ := h
  cases v <;> exact ⟨_, rfl⟩

theorem get_set {t : LVal} (h : t.IsTable) (n m : Nat) (v : LVal) : (t.set n v).get m = if m = n then v else t.get m := by
  obtain ⟨fields, rfl⟩ := h
  cases v with
  | nil =>
    simp only [LVal.set, LVal.get, lookup_unassign]
    split <;> rfl
  | num q =>
    simp only [LVal.set, LVal.get, lookup_assign]
    split <;> rfl
  | str s =>
    simp only [LVal.set, LVal.get, lookup_assign]
    split <;> rfl
  | table fs =>
    simp only [LVal.set, LVal.get, lookup_assign]
    split <;> rfl

theorem isTable_fill {t : LVal} (h : t.IsTable) (i : Nat) (vs : List LVal) : (fill t i vs).IsTable := by
  induction vs generalizing t i with
  | nil => exact h
  | cons v vs ih => exact ih (isTable_set h i v) (i + 1)

theorem get_fill {t : LVal} (h : t.IsTable) (i : Nat) (vs : List LVal) (j : Nat) :
    (fill t i vs).get j = if i ≤ j then vs.getD (j - i) (t.get j) else t.get j := by
  induction vs generalizing t i with
  | nil => rw [fill, getD_nil, ite_self]
  | cons v vs ih =>
    rw [fill, ih (isTable_set h i v), get_set h]
    rcases Nat.lt_trichotomy j i with hlt | rfl | hgt
    · rw [if_neg (by omega), if_neg (by omega), if_neg (by omega)]
    · rw [if_neg (by omega), if_pos rfl, if_pos (Nat.le_refl _), Nat.sub_self, getD_cons_zero]
    · rw [if_pos (by omega), if_neg (by omega), if_pos (by omega), show j - i = (j - (i + 1)) + 1 by omega,
        getD_cons_succ]

theorem get_array (vs : List LVal) (j : Nat) : (LVal.array vs).get j = if 1 ≤ j then vs.getD (j - 1) .nil else .nil :=
  get_fill ⟨[], rfl⟩ 1 vs j

theorem get_pair (r : LVal × LVal) (j : Nat) : (pair r).get j = if j = 1 then r.1 else if j = 2 then r.2 else .nil := by
  rw [pair, get_set (isTable_set ⟨[], rfl⟩ 2 r.2), get_set ⟨[], rfl⟩]
  rfl

theorem isTable_pair (r : LVal × LVal) : (pair r).IsTable := isTable_set (isTable_set ⟨[], rfl⟩ 2 r.2) 1 r.1

theorem length_results (k : Nat) (p : Bytes) : (results k p).length = k := by
  induction k generalizing p with
  | zero => rfl
  | succ k ih => rw [results, length_cons, ih]

theorem getElem?_results (p : Bytes) (h : i < k) : (results k p)[i]? = some (parse_reply (afterReplies i p)) := by
  induction k generalizing i p with
  | zero => cases h
  | succ k ih =>
    cases i with
    | zero => rfl
    | succ i => exact ih (afterReply p) (Nat.lt_of_succ_lt_succ h)

theorem afterReplies_succ (k : Nat) (p : Bytes) : afterReplies (k + 1) p = afterReply (afterReplies k p) := by
  induction k generalizing p with
  | zero => rfl
  | succ k ih => exact ih (afterReply p)

/-! ## Any input -/

/-- An array of a result and its type, and of nothing else. -/
def IsPair (v : LVal) (r : LVal × LVal) : Prop :=
  v.IsTable ∧ ∀ j, v.get j = if j = 1 then r.1 else if j = 2 then r.2 else .nil

/-- The results are those of `parse_reply` on what each reply leaves of the input;
a bad reply leaves all of it. -/
structure Right (p : Bytes) (n : Nat) : Prop where
  pairs : ∀ i < n, IsPair ((parse_replies p n).get (i + 1)) (parse_reply (afterReplies i p))
  length : ∀ j, j = 0 ∨ n < j → (parse_replies p n).get j = .nil
  bad : ∀ i < n, (parse_reply (afterReplies i p)).2 = .num BAD_REPLY → afterReplies (i + 1) p = afterReplies i p

/-- No reply is a multi-bulk reply with a bad element; or only one is asked for,
and it has none but nil elements from the third on to a bad one. -/
def Careful (p : Bytes) (n : Nat) : Prop :=
  (∀ i < n, badElement (afterReplies i p) = none) ∨
    n = 1 ∧ ∀ vs, badElement p = some vs → ∀ j, 2 ≤ j → vs.getD j .nil = .nil

theorem afterReplies_of_bad (h : (parse_reply (afterReplies i p)).2 = .num BAD_REPLY) :
    afterReplies (i + 1) p = afterReplies i p := by
  rw [afterReplies_succ]
  exact afterReply_of_bad h

theorem parse_replies_good (h : ∀ i < n, badElement (afterReplies i p) = none) :
    parse_replies p n = LVal.array ((results n p).map pair) := by
  have := parseLoop_good 0 (i := 1) h (.table []) []
  rw [Nat.add_zero] at this
  rw [parse_replies, this]
  rfl

theorem Right.of_good (h : ∀ i < n, badElement (afterReplies i p) = none) : Right p n := by
  have hget : ∀ j, (parse_replies p n).get j =
      if 1 ≤ j then ((results n p).map pair).getD (j - 1) .nil else .nil := fun j => by
    rw [parse_replies_good h, get_array]
  refine ⟨fun i hi => ?_, fun j hj => ?_, fun i _ => afterReplies_of_bad⟩
  · have hpair : ((results n p).map pair).getD i .nil = pair (parse_reply (afterReplies i p)) := by
      rw [getD_eq_getElem?_getD, getElem?_map, getElem?_results p hi]
      rfl
    rw [hget, if_pos (Nat.le_add_left 1 i), Nat.add_sub_cancel, hpair]
    exact ⟨isTable_pair _, get_pair _⟩
  · rw [hget]
    rcases hj with rfl | hj
    · rfl
    · have hlen : ((results n p).map pair).length ≤ j - 1 := by
        rw [length_map, length_results]
        omega
      rw [if_pos (by omega), getD_eq_getElem?_getD, getElem?_eq_none hlen, getD_none]

theorem parse_replies_bad (hi : i < n)
    (hgood : ∀ j < i, badElement (afterReplies j p) = none) (hbad : badElement (afterReplies i p) = some vs) :
    parse_replies p n = (LVal.table []).set n (leftover vs) := by
  obtain ⟨k, rfl⟩ := Nat.exists_eq_add_of_lt hi
  rw [parse_replies, Nat.add_assoc, parseLoop_good _ hgood, parseLoop_bad hbad (Nat.succ_pos k)]
  congr 1
  omega

theorem isTable_leftover (vs : List LVal) : (leftover vs).IsTable :=
  isTable_set (isTable_set (isTable_fill ⟨[], rfl⟩ 1 vs) 2 _) 1 _

theorem get_leftover (vs : List LVal) (j : Nat) :
    (leftover vs).get j =
      if j = 1 then text "bad multi bulk reply" else if j = 2 then .num BAD_REPLY else (LVal.array vs).get j := by
  have htable : (LVal.array vs).IsTable := isTable_fill ⟨[], rfl⟩ 1 vs
  rw [leftover, get_set (isTable_set htable 2 _), get_set htable]

/-- The first reply with a bad element. -/
theorem exists_first_bad (h : ¬∀ i < n, badElement (afterReplies i p) = none) :
    ∃ i < n, ∃ vs, badElement (afterReplies i p) = some vs ∧ ∀ j < i, badElement (afterReplies j p) = none := by
  push Not at h
  obtain ⟨hi, hne⟩ := Nat.find_spec h
  obtain ⟨vs, hvs⟩ := ne_none_iff_exists'.mp hne
  refine ⟨Nat.find h, hi, vs, hvs, fun j hj => ?_⟩
  by_contra hj'
  exact Nat.find_min h hj ⟨hj.trans hi, hj'⟩

/-- All pairs but the last are missing after a bad element. -/
theorem Right.careful (h : Right p n) : Careful p n := by
  by_cases hgood : ∀ i < n, badElement (afterReplies i p) = none
  · exact .inl hgood
  obtain ⟨i, hi, vs, hbad, hbefore⟩ := exists_first_bad hgood
  have hget : ∀ j, (parse_replies p n).get j = if j = n then leftover vs else .nil := fun j => by
    rw [parse_replies_bad hi hbefore hbad, get_set ⟨[], rfl⟩]
    rfl
  have hn : n = 1 := by
    by_contra hn
    obtain ⟨⟨fields, hfirst⟩, -⟩ := h.pairs 0 (by omega)
    rw [hget, if_neg (by omega)] at hfirst
    cases hfirst
  subst hn
  obtain rfl : i = 0 := by omega
  refine .inr ⟨rfl, fun vs' hvs' j hj => ?_⟩
  rw [show badElement p = some vs from hbad] at hvs'
  cases hvs'
  have hpair := (h.pairs 0 (by decide)).2 (j + 1)
  rw [hget, if_pos rfl, if_neg (by omega), if_neg (by omega), get_leftover, if_neg (by omega), if_neg (by omega),
    get_array, if_pos (by omega), Nat.add_sub_cancel] at hpair
  exact hpair

theorem Right.of_first (hbad : badElement p = some vs) (hnil : ∀ j, 2 ≤ j → vs.getD j .nil = .nil) : Right p 1 := by
  have hget : ∀ j, (parse_replies p 1).get j = if j = 1 then leftover vs else .nil := fun j => by
    rw [parse_replies_bad (i := 0) (by decide) nofun hbad, get_set ⟨[], rfl⟩]
    rfl
  refine ⟨fun j hj => ?_, fun j hj => ?_, fun j _ => afterReplies_of_bad⟩
  · obtain rfl : j = 0 := by omega
    rw [hget, if_pos rfl]
    refine ⟨isTable_leftover vs, fun j => ?_⟩
    rw [get_leftover, show parse_reply (afterReplies 0 p) = _ from (parse_reply_bad hbad).1]
    split
    · rfl
    · split
      · rfl
      · rw [get_array]
        split
        · exact hnil (j - 1) (by omega)
        · rfl
  · rw [hget, if_neg (by omega)]

/-- **`parse_replies` returns the pairs that `parse_reply` gives, one after the
other, exactly when no multi-bulk reply has a bad element, or the values before it
are overwritten.** -/
theorem replies_right_iff_careful (p : Bytes) (n : Nat) : Right p n ↔ Careful p n := by
  refine ⟨Right.careful, ?_⟩
  rintro (hgood | ⟨rfl, hnil⟩)
  · exact .of_good hgood
  · cases hbad : badElement p with
    | none =>
      refine .of_good fun i hi => ?_
      obtain rfl : i = 0 := by omega
      exact hbad
    | some vs => exact .of_first hbad (hnil vs hbad)

/-- After a status reply and a truncated multi-bulk reply the array that is
returned has the second pair only. -/
theorem replies_not_right_truncated : ¬ Right (ascii "+OK\r\n*2\r\n$1\r\na\r\n".toList) 2 := by
  intro h
  rcases h.careful with hgood | ⟨hn, -⟩
  · have hbad : (badElement (afterReplies 1 (ascii "+OK\r\n*2\r\n$1\r\na\r\n".toList))).isSome := by decide +kernel
    rw [hgood 1 (by decide)] at hbad
    cases hbad
  · cases hn

end OpenResty.Resty.RedisParser
