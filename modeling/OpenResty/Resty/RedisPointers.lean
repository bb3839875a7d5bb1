/-
`redis-parser.c`: the functions of the parser over pointers into the input.

A pointer is the number of bytes before it. To read a byte outside of the input is
a fault, and so is a loop that goes on for more turns than the input has bytes: what
returns has done neither, and it returns what the functions on the rest of the input do.
-/
import OpenResty.Resty.RedisParserFacts

namespace OpenResty.Resty.RedisPointers

open Lib.Resp RedisParser Nat
open List hiding count

inductive Fault
  | outside
  | endless
deriving Repr

/-- An object in memory, whose pointers have a difference -/
def Input := { s : Bytes // s.length < 2 ^ 63 }

section

variable (s : Bytes)

/-- `*p` -/
def deref (p : Int) : Except Fault UInt8 :=
  if p < 0 then .error .outside
  else
    match s[p.toNat]? with
    | some c => .ok c
    | none => .error .outside

/-- `lua_pushlstring(L, dst, dst_len)`, whose length is unsigned -/
def pushlstring (dst : Nat) (dst_len : Int) : Except Fault LVal :=
  if 0 ≤ dst_len ∧ dst + dst_len.toNat ≤ s.length then .ok (.str ((s.drop dst).take dst_len.toNat))
  else .error .outside

/-- What a parser of a part returns, with `*dst_len` -/
structure Dst where
  dst : Nat
  dst_len : Int

/-- `NULL`, with the length of an invalid reply -/
def Dst.invalid : Dst := ⟨0, -2⟩

/-- The loop of `parse_single_line_reply` -/
def lineLoop (src : Nat) : Nat → Nat → Bool → Except Fault Dst
  | 0, _, _ => .error .endless
  | turns + 1, p, seen_cr =>
    if p = s.length then .ok .invalid
    else do
      let c ← deref s p
      if c = 13 then lineLoop src turns (p + 1) true
      else if seen_cr then
        if c = 10 then return ⟨src, p - src - 1⟩
        lineLoop src turns (p + 1) false
      else lineLoop src turns (p + 1) false

def parse_single_line_reply (src : Nat) : Except Fault Dst := lineLoop s src (s.length + 1) src false

/-- The loop over the digits after a minus; `none` is `goto invalid`. -/
def skipLoop : Nat → Nat → Except Fault (Option Nat)
  | 0, _ => .error .endless
  | turns + 1, p => do
    let c ← deref s p
    if c = 13 then return some p
    if ¬ isDigit c then return none
    if s.length ≤ p + 1 then return none
    skipLoop turns (p + 1)

/-- The loop over the digits of a size -/
def sizeLoop : Nat → Nat → Int → Except Fault (Option (Nat × Int))
  | 0, _, _ => .error .endless
  | turns + 1, p, size => do
    let c ← deref s p
    if c = 13 then return some (p, size)
    if ¬ isDigit c then return none
    if s.length ≤ p + 1 then return none
    sizeLoop turns (p + 1) (addDigit 64 size c)

/-- `last - p < size + sizeof("\r\n") - 1`, which is a comparison of unsigned numbers -/
def short (p : Nat) (size : Int) : Bool := ((s.length - p : Nat) : Int) < (size + 2) % 2 ^ 64

/-- From the CR after the digits of a negative size on -/
def nullEnd (p : Nat) : Except Fault Dst := do
  if short s p 0 then return .invalid
  if (← deref s (p + 1 : Nat)) ≠ 10 then return .invalid
  return ⟨p + 2 - 2, -1⟩

/-- From the CR after the digits of a size on -/
def dataEnd (p : Nat) (size : Int) : Except Fault Dst := do
  if s.length ≤ p + 1 then return .invalid
  if (← deref s (p + 1 : Nat)) ≠ 10 then return .invalid
  if short s (p + 2) size then return .invalid
  if (← deref s ((p + 2 : Nat) + size)) ≠ 13 then return .invalid
  if (← deref s ((p + 2 : Nat) + size + 1)) ≠ 10 then return .invalid
  return ⟨p + 2, size⟩

def parse_bulk_reply (src : Nat) : Except Fault Dst := do
  if s.length ≤ src then return .invalid
  if (← deref s src) = 45 then
    if s.length ≤ src + 1 then return .invalid
    match ← skipLoop s (s.length + 1) (src + 1) with
    | none => return .invalid
    | some p => nullEnd s p
  else
    match ← sizeLoop s (s.length + 1) src 0 with
    | none => return .invalid
    | some (p, size) => dataEnd s p size

/-- The loop to the CR after a minus and a digit -/
def crLoop : Nat → Nat → Except Fault (Option Nat)
  | 0, _ => .error .endless
  | turns + 1, p => do
    if (← deref s p) = 13 then return some p
    if s.length ≤ p + 1 then return none
    crLoop turns (p + 1)

/-- The loop over the digits of a count -/
def countLoop : Nat → Nat → Int → Except Fault (Option (Nat × Int))
  | 0, _, _ => .error .endless
  | turns + 1, p, count => do
    let c ← deref s p
    if c = 13 then return some (p, count)
    if c = 45 then
      if s.length ≤ p + 1 then return none
      if ¬ isDigit (← deref s (p + 1 : Nat)) then return none
      return (← crLoop s (s.length + 1) (p + 1)).map fun p => (p, -1)
    if ¬ isDigit c then return none
    if s.length ≤ p + 1 then return none
    countLoop turns (p + 1) (addDigit 32 count c)

/-- The value of a part and the pointer behind it -/
def pushDst (d : Dst) : Except Fault (Option (LVal × Nat)) := do
  if d.dst_len = -2 then return none
  if d.dst_len = -1 then return some (.nil, d.dst + 2)
  return some (← pushlstring s d.dst d.dst_len, (d.dst + d.dst_len + 2).toNat)

/-- An element of a multi-bulk reply -/
def element (p : Nat) : Except Fault (Option (LVal × Nat)) := do
  if s.length ≤ p then return none
  let c ← deref s p
  if c = 43 ∨ c = 45 ∨ c = 58 then pushDst s (← parse_single_line_reply s (p + 1))
  else if c = 36 then pushDst s (← parse_bulk_reply s (p + 1))
  else return none

def elements : Nat → Nat → Stack → Nat → Except Fault (Stack × Option Nat)
  | 0, _, st, p => .ok (st, some p)
  | k + 1, i, st, p => do
    match ← element s p with
    | none => return (st, none)
    | some (v, p) => elements k (i + 1) (rawseti 2 i (v :: st)) p

/-- The stack and the pointer; `none` is PARSE_ERROR. -/
def parse_multi_bulk_reply (st : Stack) (p : Nat) : Except Fault (Stack × Option Nat) := do
  if s.length ≤ p then return (st, none)
  match ← countLoop s (s.length + 1) p 0 with
  | none => return (st, none)
  | some (p, count) =>
    if s.length ≤ p + 1 then return (st, none)
    if (← deref s (p + 1 : Nat)) ≠ 10 then return (st, none)
    if count = -1 then return (.nil :: st, some (p + 2))
    elements s count.toNat 1 (.table [] :: st) (p + 2)

/-- What is pushed after a line, with its type -/
def lineReply (st : Stack) (src : Nat) (message : String) (value : LVal → LVal) (typ : Rat) :
    Except Fault (Stack × Nat) := do
  let d ← parse_single_line_reply s (src + 1)
  if d.dst_len = -2 then return (.num BAD_REPLY :: text message :: st, src)
  return (.num typ :: value (← pushlstring s d.dst d.dst_len) :: st, (src + d.dst_len + 1 + 2).toNat)

/-- `lua_tonumber` of what is on the stack -/
def toNum : LVal → LVal
  | .str t => .num (tonumber t)
  | v => v

def parse_reply_helper (st : Stack) (src : Nat) : Except Fault (Stack × Nat) := do
  if s.length - src = 0 then return (.num BAD_REPLY :: text "empty reply" :: st, src)
  let c ← deref s src
  if c = 43 then lineReply s st src "bad status reply" id STATUS_REPLY
  else if c = 45 then lineReply s st src "bad error reply" id ERROR_REPLY
  else if c = 58 then lineReply s st src "bad integer reply" toNum INTEGER_REPLY
  else if c = 36 then
    match ← pushDst s (← parse_bulk_reply s (src + 1)) with
    | none => return (.num BAD_REPLY :: text "bad bulk reply" :: st, src)
    | some (v, p) => return (.num BULK_REPLY :: v :: st, p)
  else if c = 42 then
    match ← parse_multi_bulk_reply s st (src + 1) with
    | (st, none) => return (.num BAD_REPLY :: text "bad multi bulk reply" :: st, src)
    | (st, some p) => return (.num MULTI_BULK_REPLY :: st, p)
  else return (.num BAD_REPLY :: text "invalid reply" :: st, src)

/-- The result and its type, the two values at the top -/
def parse_reply : Except Fault (LVal × LVal) := do
  match (← parse_reply_helper s [] 0).1 with
  | typ :: res :: _ => return (res, typ)
  | _ => return (.nil, .nil)

end

variable {s q rest : Bytes} {c : UInt8} {p n : Nat} {st : Stack}

/-! ## Pointers and what is left of the input there -/

/-- `q` is left of the input at `p`. -/
structure At (s : Bytes) (p : Nat) (q : Bytes) : Prop where
  le : p ≤ s.length
  drop : s.drop p = q

theorem At.start (s : Bytes) : At s 0 s := ⟨Nat.zero_le _, rfl⟩

theorem At.length (h : At s p q) : p + q.length = s.length := by
  have hle := h.le
  rw [← h.drop, length_drop]
  omega

theorem At.after (h : At s p q) (hn : n ≤ q.length) : At s (p + n) (q.drop n) where
  le := by
    have hlen := h.length
    omega
  drop := by rw [← drop_drop, h.drop]

theorem At.next (h : At s p (c :: q)) : At s (p + 1) q := h.after (succ_le_succ (Nat.zero_le _))

theorem At.two {d : UInt8} (h : At s p (c :: d :: q)) : At s (p + 2) q := h.next.next

theorem At.deref (h : At s p (c :: q)) : deref s p = .ok c := by
  have hget : s[p]? = some c := by
    rw [← Nat.add_zero p, ← getElem?_drop, h.drop, getElem?_cons_zero]
  rw [RedisPointers.deref, if_neg (by omega), Int.toNat_natCast]
  simp only [hget]

/-- `CHECK_EOF` fails at the end of the input. -/
theorem At.eof_iff (h : At s p q) : s.length ≤ p ↔ q = [] := by
  have hlen := h.length
  rw [← length_eq_zero_iff]
  omega

theorem At.more (h : At s p (c :: q)) : ¬ s.length ≤ p := by
  rw [h.eof_iff]
  exact cons_ne_nil c q

theorem At.pushlstring (h : At s p q) (hn : n ≤ q.length) : pushlstring s p n = .ok (.str (q.take n)) := by
  have hlen := h.length
  rw [RedisPointers.pushlstring, if_pos
    ⟨Int.natCast_nonneg n, by rw [Int.toNat_natCast]; omega⟩, Int.toNat_natCast, h.drop]

/-! ## The loops -/

/-- What `parse_single_line_reply` returns for a length -/
def Dst.line (src : Nat) : Option Nat → Dst
  | none => .invalid
  | some n => ⟨src, n⟩

theorem lineLoop_eq {src turns : Nat} {seen_cr : Bool} (h : At s p q) (hsrc : src ≤ p)
    (hseen : seen_cr = true → src < p)
    (hturns : q.length < turns) :
    lineLoop s src turns p seen_cr = .ok (.line src (RedisParser.parse_single_line_reply q seen_cr (p - src))) := by
  induction q generalizing p turns seen_cr with
  | nil =>
    obtain ⟨turns, rfl⟩ := exists_eq_add_one_of_ne_zero (Nat.ne_of_gt hturns)
    have hend : p = s.length := h.length
    rw [lineLoop, if_pos hend]
    rfl
  | cons c q ih =>
    obtain ⟨turns, rfl⟩ := exists_eq_add_one_of_ne_zero (Nat.ne_zero_of_lt hturns)
    have hmore : p ≠ s.length := fun hp => h.more hp.ge
    have hrest : ∀ seen, lineLoop s src turns (p + 1) seen =
        .ok (.line src (RedisParser.parse_single_line_reply q seen (p - src + 1))) := fun seen => by
      rw [ih h.next (by omega) (fun _ => by omega) (lt_of_succ_lt_succ hturns), Nat.sub_add_comm hsrc]
    rw [lineLoop, if_neg hmore, h.deref, RedisParser.parse_single_line_reply]
    change (if c = 13 then _ else _) = _
    by_cases h13 : c = 13
    · rw [if_pos h13, if_pos h13, hrest]
    rw [if_neg h13, if_neg h13]
    cases seen_cr with
    | false => exact hrest false
    | true =>
      have hlt := hseen rfl
      rw [if_pos rfl, if_pos rfl]
      by_cases h10 : c = 10
      · rw [if_pos h10, if_pos h10]
        change Except.ok _ = Except.ok _
        rw [Dst.line, show ((p - src - 1 : Nat) : Int) = p - src - 1 by omega]
      · rw [if_neg h10, if_neg h10]
        exact hrest false

theorem parse_single_line_reply_eq (h : At s p q) :
    parse_single_line_reply s p = .ok (.line p (RedisParser.parse_single_line_reply q false 0)) := by
  have hlen := h.length
  rw [RedisPointers.parse_single_line_reply, lineLoop_eq h (Nat.le_refl p) (by nofun) (by omega), Nat.sub_self]

/-- A CR is at the pointer. -/
def AtCr (s : Bytes) (p : Nat) (q : Bytes) : Prop := At s p q ∧ ∃ r, q = 13 :: r

/-- A CR at the pointer, and the same number -/
def Counted (s : Bytes) (a : Nat × Int) (b : Int × Bytes) : Prop := AtCr s a.1 b.2 ∧ a.2 = b.1

theorem sizeLoop_rel (turns : Nat) (size : Int) (h : At s p q) (hq : q ≠ []) (hturns : q.length < turns) :
    ∃ r, sizeLoop s turns p size = .ok r ∧ Option.Rel (Counted s) r (bulkSize q size) := by
  induction q generalizing p turns size with
  | nil => exact absurd rfl hq
  | cons c q ih =>
    obtain ⟨turns, rfl⟩ := exists_eq_add_one_of_ne_zero (Nat.ne_zero_of_lt hturns)
    rw [sizeLoop, h.deref, bulkSize]
    change ∃ r, (if c = 13 then _ else _) = _ ∧ _
    by_cases h13 : c = 13
    · rw [if_pos h13, if_pos h13]
      exact ⟨some (p, size), rfl, .some ⟨⟨h, q, by rw [h13]⟩, rfl⟩⟩
    rw [if_neg h13, if_neg h13]
    by_cases hdigit : isDigit c
    · rw [if_neg (not_not_intro hdigit), if_pos hdigit]
      by_cases hend : s.length ≤ p + 1
      · rw [if_pos hend, h.next.eof_iff.mp hend]
        exact ⟨none, rfl, .none⟩
      · rw [if_neg hend]
        exact ih _ _ h.next (fun hq => hend (h.next.eof_iff.mpr hq)) (lt_of_succ_lt_succ hturns)
    · rw [if_pos hdigit, if_neg hdigit]
      exact ⟨none, rfl, .none⟩

/-- Without the size the loop over the digits is the one after a minus. -/
theorem skipLoop_eq (turns p : Nat) (size : Int) :
    skipLoop s turns p = (sizeLoop s turns p size).map (Option.map Prod.fst) := by
  induction turns generalizing p size with
  | zero => rfl
  | succ turns ih =>
    rw [skipLoop, sizeLoop]
    cases deref s p with
    | error fault => rfl
    | ok c =>
      simp only [bind, Except.bind]
      split_ifs
      · rfl
      · rfl
      · exact ih (p + 1) (addDigit 64 size c)
      · rfl

theorem skipLoop_rel (turns : Nat) (h : At s p q) (hq : q ≠ []) (hturns : q.length < turns) :
    ∃ r, skipLoop s turns p = .ok r ∧ Option.Rel (AtCr s) r (skipDigits q) := by
  obtain ⟨r, hr, hrel⟩ := sizeLoop_rel turns 0 h hq hturns
  rw [skipLoop_eq turns p 0, hr, skipDigits_eq q 0]
  refine ⟨_, rfl, ?_⟩
  generalize bulkSize q 0 = b at hrel ⊢
  cases hrel with
  | none => exact .none
  | some hat => exact .some hat.1

theorem crLoop_rel (turns : Nat) (h : At s p q) (hq : q ≠ []) (hturns : q.length < turns) :
    ∃ r, crLoop s turns p = .ok r ∧ Option.Rel (AtCr s) r (fromCr q) := by
  induction q generalizing p turns with
  | nil => exact absurd rfl hq
  | cons c q ih =>
    obtain ⟨turns, rfl⟩ := exists_eq_add_one_of_ne_zero (Nat.ne_zero_of_lt hturns)
    rw [crLoop, h.deref, fromCr_cons]
    change ∃ r, (if c = 13 then _ else _) = _ ∧ _
    by_cases h13 : c = 13
    · rw [if_pos h13, if_pos h13]
      exact ⟨some p, rfl, .some ⟨h, q, by rw [h13]⟩⟩
    rw [if_neg h13, if_neg h13]
    by_cases hend : s.length ≤ p + 1
    · rw [if_pos hend, h.next.eof_iff.mp hend]
      exact ⟨none, rfl, .none⟩
    · rw [if_neg hend]
      exact ih _ h.next (fun hq => hend (h.next.eof_iff.mpr hq)) (lt_of_succ_lt_succ hturns)

theorem countLoop_rel (turns : Nat) (count : Int) (h : At s p q) (hq : q ≠ []) (hturns : q.length < turns) :
    ∃ r, countLoop s turns p count = .ok r ∧ Option.Rel (Counted s) r (multiCount q count) := by
  induction q generalizing p turns count with
  | nil => exact absurd rfl hq
  | cons c q ih =>
    obtain ⟨turns, rfl⟩ := exists_eq_add_one_of_ne_zero (Nat.ne_zero_of_lt hturns)
    rw [countLoop, h.deref]
    change ∃ r, (if c = 13 then _ else _) = _ ∧ _
    by_cases h13 : c = 13
    · rw [if_pos h13, multiCount.eq_def]
      simp only [if_pos h13]
      exact ⟨some (p, count), rfl, .some ⟨⟨h, q, by rw [h13]⟩, rfl⟩⟩
    rw [if_neg h13]
    by_cases h45 : c = 45
    · subst h45
      rw [if_pos rfl, multiCount_minus]
      cases q with
      | nil =>
        rw [if_pos (h.next.eof_iff.mpr rfl)]
        exact ⟨none, rfl, .none⟩
      | cons d q =>
        rw [if_neg h.next.more, h.next.deref]
        change ∃ r, (if ¬ isDigit d = true then _ else _) = _ ∧ _
        by_cases hdigit : isDigit d
        · have hlen := h.next.length
          obtain ⟨r, hr, hrel⟩ := crLoop_rel (s.length + 1) h.next (cons_ne_nil d q) (by omega)
          rw [if_neg (not_not_intro hdigit), hr]
          simp only [if_pos hdigit]
          refine ⟨_, rfl, ?_⟩
          generalize fromCr (d :: q) = rest at hrel ⊢
          cases hrel with
          | none => exact .none
          | some hat => exact .some ⟨hat, rfl⟩
        · rw [if_pos hdigit]
          simp only [if_neg hdigit]
          exact ⟨none, rfl, .none⟩
    rw [if_neg h45, multiCount_cons h13 h45]
    by_cases hdigit : isDigit c
    · rw [if_neg (not_not_intro hdigit), if_pos hdigit]
      by_cases hend : s.length ≤ p + 1
      · rw [if_pos hend, h.next.eof_iff.mp hend]
        exact ⟨none, rfl, .none⟩
      · rw [if_neg hend]
        exact ih _ _ h.next (fun hq => hend (h.next.eof_iff.mpr hq)) (lt_of_succ_lt_succ hturns)
    · rw [if_pos hdigit, if_neg hdigit]
      exact ⟨none, rfl, .none⟩

/-! ## Bulk replies -/

/-- The value and what is left of the input, in the input -/
def Ends (s : Bytes) (d : Dst) : Bulk → Prop
  | .invalid => d.dst_len = -2
  | .null rest => d.dst_len = -1 ∧ At s (d.dst + 2) rest
  | .data dst rest => d.dst_len = dst.length ∧ ∃ q, At s d.dst (dst ++ q) ∧ At s (d.dst + dst.length + 2) rest

theorem At.short (h : At s p q) (size : Int) : short s p size = true ↔ (q.length : Int) < (size + 2) % 2 ^ 64 := by
  have hlen := h.length
  rw [RedisPointers.short, decide_eq_true_iff, show s.length - p = q.length by omega]

theorem nullEnd_crlf (h : At s p (13 :: 10 :: rest)) : nullEnd s p = .ok ⟨p, -1⟩ := by
  have hshort : ¬ short s p 0 = true := by
    rw [h.short, length_cons, length_cons]
    omega
  rw [nullEnd, if_neg hshort, h.next.deref]
  rfl

theorem nullEnd_bad (h : AtCr s p q) (hbad : ∀ rest, q ≠ 13 :: 10 :: rest) : nullEnd s p = .ok .invalid := by
  obtain ⟨h, r, rfl⟩ := h
  cases r with
  | nil =>
    have hshort : short s p 0 = true := by
      rw [h.short]
      decide
    rw [nullEnd, if_pos hshort]
    rfl
  | cons d r =>
    have hd : d ≠ 10 := fun hd => hbad r (by rw [hd])
    have hshort : ¬ short s p 0 = true := by
      rw [h.short, length_cons, length_cons]
      omega
    rw [nullEnd, if_neg hshort, h.next.deref]
    exact if_pos hd

/-- The data of a size that is no negative number -/
theorem dataEnd_nat (h : At s p (13 :: 10 :: rest)) {size : Nat} (hsize : size < 2 ^ 63) :
    ∃ d, dataEnd s p size = .ok d ∧ Ends s d (bulkData size rest) := by
  have hmod : ((size : Int) + 2) % 2 ^ 64 = size + 2 := Int.emod_eq_of_lt (by omega) (by omega)
  have hstart : dataEnd s p size = (do
      if short s (p + 2) size then return Dst.invalid
      if (← deref s ((p + 2 : Nat) + size)) ≠ 13 then return .invalid
      if (← deref s ((p + 2 : Nat) + size + 1)) ≠ 10 then return .invalid
      return ⟨p + 2, size⟩) := by
    rw [dataEnd, if_neg h.next.more, h.next.deref]
    rfl
  have hshort : short s (p + 2) size = true ↔ rest.length < size + 2 := by
    rw [h.two.short, hmod]
    omega
  rw [hstart, bulkData, if_neg (Int.not_lt.mpr (Int.natCast_nonneg size)), Int.toNat_natCast]
  by_cases hlt : rest.length < size + 2
  · rw [if_pos hlt, if_pos (hshort.mpr hlt)]
    exact ⟨.invalid, rfl, rfl⟩
  rw [if_neg hlt, if_neg (mt hshort.mp hlt)]
  have hdrop : (rest.drop size).length = rest.length - size := length_drop
  obtain ⟨a, b, more, hab⟩ : ∃ a b more, rest.drop size = a :: b :: more := by
    cases hd : rest.drop size with
    | nil =>
      rw [hd, length_nil] at hdrop
      omega
    | cons a tail =>
      cases tail with
      | nil =>
        rw [hd, length_singleton] at hdrop
        omega
      | cons b more => exact ⟨a, b, more, rfl⟩
  have hat : At s (p + 2 + size) (a :: b :: more) := hab ▸ h.two.after (by omega)
  have htail : (rest.drop size).take 2 = crlf ↔ a = 13 ∧ b = 10 := by simp [hab, crlf]
  change ∃ d, (deref s ((p + 2 + size : Nat) : Int) >>= _) = _ ∧ _
  rw [hat.deref]
  change ∃ d, (if a ≠ 13 then _ else deref s ((p + 2 + size + 1 : Nat) : Int) >>= _) = _ ∧ _
  rw [hat.next.deref]
  by_cases ha : a = 13
  · rw [if_neg (not_not_intro ha)]
    change ∃ d, (if b ≠ 10 then _ else _) = _ ∧ _
    by_cases hb : b = 10
    · subst ha hb
      rw [if_neg (not_not_intro rfl), if_pos (htail.mpr ⟨rfl, rfl⟩)]
      have htake : (rest.take size).length = size := by
        rw [length_take]
        omega
      refine ⟨⟨p + 2, size⟩, rfl, by rw [htake], rest.drop size, ?_, ?_⟩
      · rw [take_append_drop]
        exact h.two
      · rw [htake, ← drop_drop, hab]
        exact hat.two
    · rw [if_pos hb, if_neg fun h => hb (htail.mp h).2]
      exact ⟨.invalid, rfl, rfl⟩
  · rw [if_pos ha, if_neg fun h => ha (htail.mp h).1]
    exact ⟨.invalid, rfl, rfl⟩

/-- A negative size is a number that wrapped around: `size + 2` is more than what is left of the
input, or the bytes before the data are compared with a CR LF. -/
theorem dataEnd_neg (h : At s p (13 :: 10 :: rest)) (hs : s.length < 2 ^ 63) {size : Int} (hlow : -2 ^ 63 ≤ size)
    (hneg : size < 0) : ∃ d, dataEnd s p size = .ok d ∧ d.dst_len = -2 := by
  have hlen := h.two.length
  rw [dataEnd, if_neg h.next.more, h.next.deref]
  change ∃ d, (if short s (p + 2) size = true then _ else deref s _ >>= _) = _ ∧ _
  by_cases hshort : short s (p + 2) size = true
  · rw [if_pos hshort]
    exact ⟨.invalid, rfl, rfl⟩
  rw [if_neg hshort]
  rw [h.two.short] at hshort
  have hsmall : size = -1 ∨ size = -2 := by omega
  rcases hsmall with rfl | rfl
  · have hread : ((p + 2 : Nat) : Int) + -1 = (p + 1 : Nat) := by omega
    rw [hread, h.next.deref]
    exact ⟨.invalid, rfl, rfl⟩
  · have hread : ((p + 2 : Nat) : Int) + -2 = p := by omega
    rw [hread, h.deref]
    change ∃ d, (deref s ((p : Int) + 1) >>= _) = _ ∧ _
    rw [← cast_succ, h.next.deref]
    exact ⟨⟨p + 2, -2⟩, rfl, rfl⟩

theorem dataEnd_bad (h : AtCr s p q) (hbad : ∀ rest, q ≠ 13 :: 10 :: rest) (size : Int) :
    dataEnd s p size = .ok .invalid := by
  obtain ⟨h, r, rfl⟩ := h
  cases r with
  | nil =>
    rw [dataEnd, if_pos (h.next.eof_iff.mpr rfl)]
    rfl
  | cons d r =>
    have hd : d ≠ 10 := fun hd => hbad r (by rw [hd])
    rw [dataEnd, if_neg h.next.more, h.next.deref]
    exact if_pos hd

/-- With a size, the data is in the input or the reply is invalid. -/
theorem dataEnd_rel (h : At s p (13 :: 10 :: rest)) (hs : s.length < 2 ^ 63) {size : Int}
    (hsize : -2 ^ 63 ≤ size ∧ size < 2 ^ 63) : ∃ d, dataEnd s p size = .ok d ∧ Ends s d (bulkData size rest) := by
  rcases lt_or_ge size 0 with hneg | hnat
  · rw [bulkData, if_pos hneg]
    exact dataEnd_neg h hs hsize.1 hneg
  · obtain ⟨n, rfl⟩ := Int.eq_ofNat_of_zero_le hnat
    exact dataEnd_nat h (by omega)

/-- An LF is after the CR, or it is not. -/
theorem crlf_or_not (q : Bytes) : (∃ rest, q = 13 :: 10 :: rest) ∨ ∀ rest, q ≠ 13 :: 10 :: rest := by
  by_cases hq : ∃ rest, q = 13 :: 10 :: rest
  · exact .inl hq
  · exact .inr fun rest hrest => hq ⟨rest, hrest⟩

theorem parse_bulk_reply_rel (h : At s p q) (hs : s.length < 2 ^ 63) :
    ∃ d, parse_bulk_reply s p = .ok d ∧ Ends s d (RedisParser.parse_bulk_reply q) := by
  have hlen := h.length
  cases q with
  | nil =>
    rw [parse_bulk_reply, if_pos (h.eof_iff.mpr rfl)]
    exact ⟨.invalid, rfl, rfl⟩
  | cons c q =>
    rw [parse_bulk_reply, if_neg h.more, h.deref, RedisParser.parse_bulk_reply]
    change ∃ d, (if c = 45 then _ else _) = _ ∧ _
    by_cases h45 : c = 45
    · simp only [if_pos h45]
      by_cases hq : q = []
      · rw [if_pos (h.next.eof_iff.mpr hq), hq]
        exact ⟨.invalid, rfl, rfl⟩
      rw [if_neg (mt h.next.eof_iff.mp hq)]
      obtain ⟨r, hr, hrel⟩ := skipLoop_rel (s.length + 1) h.next hq (by rw [← hlen, length_cons]; omega)
      rw [hr]
      generalize skipDigits q = rest at hrel ⊢
      cases hrel with
      | none => exact ⟨.invalid, rfl, rfl⟩
      | @some p' q' hat =>
        change ∃ d, nullEnd s p' = _ ∧ _
        rcases crlf_or_not q' with ⟨rest, rfl⟩ | hbad
        · exact ⟨⟨p', -1⟩, nullEnd_crlf hat.1, rfl, hat.1.two⟩
        · refine ⟨.invalid, nullEnd_bad hat hbad, ?_⟩
          split
          · next rest heq => exact absurd (Option.some.inj heq) (hbad rest)
          · rfl
    · simp only [if_neg h45]
      obtain ⟨r, hr, hrel⟩ := sizeLoop_rel (s.length + 1) 0 h (cons_ne_nil c q) (by omega)
      rw [hr]
      generalize hsize : bulkSize (c :: q) 0 = b at hrel ⊢
      cases hrel with
      | none => exact ⟨.invalid, rfl, rfl⟩
      | @some a b hat =>
        obtain ⟨p', size⟩ := a
        obtain ⟨size', q'⟩ := b
        obtain ⟨hat, rfl⟩ : AtCr s p' q' ∧ size = size' := hat
        change ∃ d, dataEnd s p' size = _ ∧ _
        rcases crlf_or_not q' with ⟨rest, rfl⟩ | hbad
        · exact dataEnd_rel hat.1 hs (bulkSize_bounds hsize (by decide))
        · refine ⟨.invalid, dataEnd_bad hat hbad size, ?_⟩
          split
          · next _ rest heq => exact absurd (Prod.mk.inj (Option.some.inj heq)).2 (hbad rest)
          · rfl

/-! ## Elements -/

/-- The same value, and the pointer at what is left -/
def Pushed (s : Bytes) (a : LVal × Nat) (b : LVal × Bytes) : Prop := a.1 = b.1 ∧ At s a.2 b.2

def bulkValue : Bulk → Option (LVal × Bytes)
  | .invalid => none
  | .null rest => some (.nil, rest)
  | .data dst rest => some (.str dst, rest)

theorem pushDst_rel {d : Dst} {b : Bulk} (h : Ends s d b) :
    ∃ r, pushDst s d = .ok r ∧ Option.Rel (Pushed s) r (bulkValue b) := by
  obtain ⟨dst, dst_len⟩ := d
  cases b with
  | invalid =>
    obtain rfl : dst_len = -2 := h
    exact ⟨none, rfl, .none⟩
  | null rest =>
    obtain ⟨hlen, hat⟩ := h
    obtain rfl : dst_len = -1 := hlen
    exact ⟨_, rfl, .some ⟨rfl, hat⟩⟩
  | data t rest =>
    obtain ⟨hlen, q, hat, hrest⟩ := h
    obtain rfl : dst_len = t.length := hlen
    have hpush : pushlstring s dst t.length = .ok (.str t) := by
      rw [At.pushlstring hat (by rw [length_append]; omega), take_left]
    have hnext : ((dst : Int) + t.length + 2).toNat = dst + t.length + 2 := by omega
    simp only [pushDst]
    rw [if_neg (by omega), if_neg (by omega), hpush, hnext]
    exact ⟨_, rfl, .some ⟨rfl, hrest⟩⟩

/-- A CR LF is behind a line. -/
theorem line_length {i n : Nat} {seen_cr : Bool} (h : RedisParser.parse_single_line_reply q seen_cr i = some n)
    (hi : seen_cr = true → 0 < i) : n + 2 ≤ i + q.length := by
  induction q generalizing i seen_cr with
  | nil => cases h
  | cons c q ih =>
    rw [RedisParser.parse_single_line_reply] at h
    rw [length_cons]
    split_ifs at h with h13 hseen h10
    · have := ih h (fun _ => succ_pos i)
      omega
    · have hpos := hi hseen
      cases h
      omega
    · have := ih h Bool.noConfusion
      omega
    · have := ih h Bool.noConfusion
      omega

theorem pushDst_line (h : At s p q) :
    ∃ r, pushDst s (.line p (RedisParser.parse_single_line_reply q false 0)) = .ok r ∧
      Option.Rel (Pushed s) r ((RedisParser.parse_single_line_reply q false 0).map fun n =>
        (.str (q.take n), q.drop (n + 2))) := by
  cases hline : RedisParser.parse_single_line_reply q false 0 with
  | none => exact ⟨none, rfl, .none⟩
  | some n =>
    have hn := line_length hline (by nofun)
    have hnext : ((p : Int) + n + 2).toNat = p + (n + 2) := by omega
    change ∃ r, pushDst s ⟨p, n⟩ = _ ∧ _
    simp only [pushDst]
    rw [if_neg (by omega), if_neg (by omega), h.pushlstring (by omega), hnext]
    exact ⟨_, rfl, .some ⟨rfl, h.after (by omega)⟩⟩

theorem element_rel (h : At s p q) (hs : s.length < 2 ^ 63) :
    ∃ r, element s p = .ok r ∧ Option.Rel (Pushed s) r (parseElement q) := by
  cases q with
  | nil =>
    rw [element, if_pos (h.eof_iff.mpr rfl)]
    exact ⟨none, rfl, .none⟩
  | cons c q =>
    rw [element, if_neg h.more, h.deref, parseElement]
    change ∃ r, (if c = 43 ∨ c = 45 ∨ c = 58 then _ else if c = 36 then _ else _) = _ ∧ _
    by_cases hline : c = 43 ∨ c = 45 ∨ c = 58
    · rw [if_pos hline, if_pos hline, parse_single_line_reply_eq h.next]
      exact pushDst_line h.next
    rw [if_neg hline, if_neg hline]
    by_cases hbulk : c = 36
    · obtain ⟨d, hd, hends⟩ := parse_bulk_reply_rel h.next hs
      obtain ⟨r, hr, hrel⟩ := pushDst_rel hends
      rw [if_pos hbulk, if_pos hbulk, hd]
      refine ⟨r, hr, ?_⟩
      cases hb : RedisParser.parse_bulk_reply q <;> rw [hb] at hrel <;> exact hrel
    · rw [if_neg hbulk, if_neg hbulk]
      exact ⟨none, rfl, .none⟩

/-- The same stack, and the pointer at what is left -/
def Stacked (s : Bytes) (a : Stack × Option Nat) (b : Stack × Option Bytes) : Prop :=
  a.1 = b.1 ∧ Option.Rel (At s) a.2 b.2

theorem elements_rel {k i : Nat} (h : At s p q) (hs : s.length < 2 ^ 63) :
    ∃ r, elements s k i st p = .ok r ∧ Stacked s r (parseElements k i st q) := by
  induction k generalizing i st p q with
  | zero => exact ⟨_, rfl, rfl, .some h⟩
  | succ k ih =>
    obtain ⟨r, hr, hrel⟩ := element_rel h hs
    rw [elements, hr, parseElements]
    generalize parseElement q = e at hrel ⊢
    cases hrel with
    | none => exact ⟨_, rfl, rfl, .none⟩
    | @some a b hat =>
      obtain ⟨v, p'⟩ := a
      obtain ⟨v', q'⟩ := b
      obtain ⟨rfl, hat⟩ : v = v' ∧ At s p' q' := hat
      exact ih hat

theorem parse_multi_bulk_reply_rel (st : Stack) (h : At s p q) (hs : s.length < 2 ^ 63) :
    ∃ r, parse_multi_bulk_reply s st p = .ok r ∧ Stacked s r (RedisParser.parse_multi_bulk_reply st q) := by
  by_cases hq : q = []
  · rw [parse_multi_bulk_reply, if_pos (h.eof_iff.mpr hq), hq]
    exact ⟨_, rfl, rfl, .none⟩
  have hlen := h.length
  obtain ⟨r, hr, hrel⟩ := countLoop_rel (s.length + 1) 0 h hq (by omega)
  rw [parse_multi_bulk_reply, if_neg (mt h.eof_iff.mp hq), hr, RedisParser.parse_multi_bulk_reply]
  generalize multiCount q 0 = b at hrel ⊢
  cases hrel with
  | none => exact ⟨_, rfl, rfl, .none⟩
  | @some a b hat =>
    obtain ⟨p', count⟩ := a
    obtain ⟨count', q'⟩ := b
    obtain ⟨⟨hat, r, rfl⟩, rfl⟩ : AtCr s p' q' ∧ count = count' := hat
    change ∃ r, (if s.length ≤ p' + 1 then _ else deref s (p' + 1 : Nat) >>= _) = _ ∧ _
    cases r with
    | nil =>
      rw [if_pos (hat.next.eof_iff.mpr rfl)]
      exact ⟨_, rfl, rfl, .none⟩
    | cons d r =>
      rw [if_neg hat.next.more, hat.next.deref]
      change ∃ r, (if d ≠ 10 then _ else _) = _ ∧ _
      by_cases hd : d = 10
      · subst hd
        rw [if_neg (not_not_intro rfl)]
        change ∃ r, (if count = -1 then _ else _) = _ ∧ Stacked s _ (if count = -1 then _ else _)
        by_cases hnull : count = -1
        · rw [if_pos hnull, if_pos hnull]
          exact ⟨_, rfl, rfl, .some hat.two⟩
        · rw [if_neg hnull, if_neg hnull]
          exact elements_rel hat.two hs
      · rw [if_pos hd]
        refine ⟨_, rfl, ?_⟩
        split
        · next heq =>
          cases heq
          exact absurd rfl hd
        · exact ⟨rfl, .none⟩

/-! ## Replies -/

/-- The same stack, and the pointer at what is left -/
def Replied (s : Bytes) (a : Stack × Nat) (b : Stack × Bytes) : Prop := a.1 = b.1 ∧ At s a.2 b.2

theorem lineReply_rel {message : String} {value : LVal → LVal} {typ : Rat} (h : At s p (c :: q)) :
    ∃ r, lineReply s st p message value typ = .ok r ∧
      Replied s r (match RedisParser.parse_single_line_reply q false 0 with
        | none => (.num BAD_REPLY :: text message :: st, c :: q)
        | some n => (.num typ :: value (.str (q.take n)) :: st, q.drop (n + 2))) := by
  rw [lineReply, parse_single_line_reply_eq h.next]
  cases hline : RedisParser.parse_single_line_reply q false 0 with
  | none => exact ⟨_, rfl, rfl, h⟩
  | some n =>
    have hn := line_length hline (by nofun)
    have hnext : ((p : Int) + n + 1 + 2).toNat = p + 1 + (n + 2) := by omega
    simp only [Dst.line, bind, Except.bind]
    rw [h.next.pushlstring (by omega)]
    refine ⟨_, rfl, rfl, ?_⟩
    change At s ((p : Int) + n + 1 + 2).toNat _
    rw [hnext]
    exact h.next.after (by omega)

/-- **The functions over pointers never fault, and do what the functions on the rest of the input do.** -/
theorem parse_reply_helper_rel (st : Stack) (h : At s p q) (hs : s.length < 2 ^ 63) :
    ∃ r, parse_reply_helper s st p = .ok r ∧ Replied s r (RedisParser.parse_reply_helper st q) := by
  have hlen := h.length
  cases q with
  | nil =>
    rw [parse_reply_helper, if_pos (Nat.sub_eq_zero_of_le (h.eof_iff.mpr rfl))]
    exact ⟨_, rfl, rfl, h⟩
  | cons c q =>
    rw [parse_reply_helper, if_neg (by rw [← hlen, length_cons]; omega), h.deref, RedisParser.parse_reply_helper]
    simp only [bind, Except.bind]
    split_ifs with h43 h45 h58 h36 h42
    · exact lineReply_rel h
    · exact lineReply_rel h
    · exact lineReply_rel h
    · obtain ⟨d, hd, hends⟩ := parse_bulk_reply_rel h.next hs
      obtain ⟨r, hr, hrel⟩ := pushDst_rel hends
      simp only [hd, hr]
      cases hb : RedisParser.parse_bulk_reply q with
      | invalid =>
        rw [hb] at hrel
        cases hrel
        exact ⟨_, rfl, rfl, h⟩
      | null rest =>
        rw [hb] at hrel
        cases hrel with
        | some hat => exact ⟨_, rfl, by rw [hat.1], hat.2⟩
      | data t rest =>
        rw [hb] at hrel
        cases hrel with
        | some hat => exact ⟨_, rfl, by rw [hat.1], hat.2⟩
    · obtain ⟨⟨st', r⟩, hr, hstack, hrel⟩ := parse_multi_bulk_reply_rel st h.next hs
      simp only [hr]
      generalize RedisParser.parse_multi_bulk_reply st q = b at hstack hrel
      obtain ⟨st'', rest⟩ := b
      obtain rfl : st' = st'' := hstack
      cases hrel with
      | none => exact ⟨_, rfl, rfl, h⟩
      | some hat => exact ⟨_, rfl, rfl, hat⟩
    · exact ⟨_, rfl, rfl, h⟩

/-- No read goes past the end of the input, and the reply is the one that the functions on the
rest of the input give. -/
theorem parse_reply_eq (s : Input) : parse_reply s.1 = .ok (RedisParser.parse_reply s.1) := by
  obtain ⟨⟨st, p⟩, hr, hst, -⟩ := parse_reply_helper_rel [] (At.start s.1) s.2
  rw [parse_reply, hr, RedisParser.parse_reply, ← show st = _ from hst]
  rcases st with _ | ⟨typ, _ | ⟨res, st⟩⟩ <;> rfl

end OpenResty.Resty.RedisPointers
