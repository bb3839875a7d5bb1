/-
`validate_utf8` of kong/tools/utils.lua: whether a string is UTF-8.

At each index nine patterns, one byte class for each byte, are tried with `find`;
the index goes on by the length of the one that fits there. The second byte of the
pattern for two bytes begins at 123 where the table has 128.
-/
import OpenResty.Lib.CodeWords
import OpenResty.Lib.Memory

namespace OpenResty.Kong.Utf8

open Lib Lib.CodeWords List Option

/-- A character class: ranges of bytes. -/
abbrev Class := List (Nat × Nat)

def inClass (c : Class) (b : UInt8) : Bool := c.any fun r => r.1 ≤ b.toNat && b.toNat ≤ r.2

/-- The pattern matches at the beginning of the bytes. -/
def fits : List Class → Bytes → Bool
  | [], _ => true
  | _ :: _, [] => false
  | c :: cs, b :: bs => inClass c b && fits cs bs

def findFrom (pattern : List Class) : Bytes → Nat → Option Nat
  | [], i => if fits pattern [] then some i else none
  | b :: bs, i => if fits pattern (b :: bs) then some i else findFrom pattern bs (i + 1)

/-- The first index from `i` on, counted from 1, where the pattern matches. -/
def find (str : Bytes) (pattern : List Class) (i : Nat) : Option Nat := findFrom pattern (str.drop (i - 1)) i

/-- How far the loop goes on from `i`. -/
def width (str : Bytes) (i : Nat) : Option Nat :=
  if some i = find str [[(0, 0), (1, 127)]] i then some 1
  else if some i = find str [[(194, 223)], [(123, 191)]] i then some 2
  else if some i = find str [[(224, 224)], [(160, 191)], [(128, 191)]] i
      ∨ some i = find str [[(225, 236)], [(128, 191)], [(128, 191)]] i
      ∨ some i = find str [[(237, 237)], [(128, 159)], [(128, 191)]] i
      ∨ some i = find str [[(238, 239)], [(128, 191)], [(128, 191)]] i then some 3
  else if some i = find str [[(240, 240)], [(144, 191)], [(128, 191)], [(128, 191)]] i
      ∨ some i = find str [[(241, 243)], [(128, 191)], [(128, 191)], [(128, 191)]] i
      ∨ some i = find str [[(244, 244)], [(128, 143)], [(128, 191)], [(128, 191)]] i then some 4
  else none

theorem width_pos {str : Bytes} {i k : Nat} (h : width str i = some k) : 0 < k := by
  unfold width at h
  repeat' split at h
  all_goals cases h
  all_goals decide

/-- The index the loop returns `false` with, or none where it comes to the end. -/
def validateLoop (str : Bytes) (i : Nat) : Option Nat :=
  if i ≤ str.length then
    match _hwidth : width str i with
    | some k => validateLoop str (i + k)
    | none => some i
  else none
termination_by str.length + 1 - i
decreasing_by
  have := width_pos ‹_›
  omega

def validate_utf8 (str : Bytes) : Bool × Option Nat :=
  match validateLoop str 1 with
  | some i => (false, some i)
  | none => (true, none)

/-! ## The table of the well-formed sequences -/

def table : List (List Class) :=
  [ [[(0x00, 0x7F)]],
    [[(0xC2, 0xDF)], [(0x80, 0xBF)]],
    [[(0xE0, 0xE0)], [(0xA0, 0xBF)], [(0x80, 0xBF)]],
    [[(0xE1, 0xEC)], [(0x80, 0xBF)], [(0x80, 0xBF)]],
    [[(0xED, 0xED)], [(0x80, 0x9F)], [(0x80, 0xBF)]],
    [[(0xEE, 0xEF)], [(0x80, 0xBF)], [(0x80, 0xBF)]],
    [[(0xF0, 0xF0)], [(0x90, 0xBF)], [(0x80, 0xBF)], [(0x80, 0xBF)]],
    [[(0xF1, 0xF3)], [(0x80, 0xBF)], [(0x80, 0xBF)], [(0x80, 0xBF)]],
    [[(0xF4, 0xF4)], [(0x80, 0x8F)], [(0x80, 0xBF)], [(0x80, 0xBF)]] ]

/-- The bytes of one character, a row of the table. -/
def Sequence (q : Bytes) : Prop := ∃ row ∈ table, fits row q ∧ q.length = row.length

/-- A byte of the two-byte row with one of the five bytes behind it that only the code takes. -/
def OddPair (t : Bytes) : Prop := fits [[(0xC2, 0xDF)], [(123, 127)]] t

/-- The patterns of the source, in its order. -/
def patterns : List (List Class) :=
  [[(0, 0), (1, 127)]] :: [[(194, 223)], [(123, 191)]] :: table.drop 2

variable {p row : List Class} {str t q : Bytes} {i n k : Nat}

/-! ## One pattern at one index -/

theorem fits_append (h : fits p q) (t : Bytes) : fits p (q ++ t) := by
  fun_induction fits p q with
  | case1 => rw [fits]
  | case2 => cases h
  | case3 c cs b bs ih =>
    rw [Bool.and_eq_true] at h
    rw [cons_append, fits, h.1, ih h.2, Bool.and_self]

theorem fits_take (h : fits p t) : fits p (t.take p.length) ∧ (t.take p.length).length = p.length := by
  fun_induction fits p t with
  | case1 t => exact ⟨rfl, rfl⟩
  | case2 => cases h
  | case3 c cs b bs ih =>
    rw [Bool.and_eq_true] at h
    obtain ⟨hfits, hlength⟩ := ih h.2
    rw [length_cons, take_succ_cons, fits, h.1, hfits, length_cons, hlength]
    exact ⟨rfl, rfl⟩

theorem findFrom_ge {j : Nat} (h : findFrom p t i = some j) : i ≤ j := by
  induction t generalizing i with
  | nil =>
    rw [findFrom] at h
    split at h
    · exact (some.inj h).le
    · cases h
  | cons b bs ih =>
    rw [findFrom] at h
    split at h
    · exact (some.inj h).le
    · exact Nat.le_of_succ_le (ih h)

theorem find_eq_some_iff : some i = find str p i ↔ fits p (str.drop (i - 1)) := by
  rw [find]
  cases str.drop (i - 1) with
  | nil => simp [findFrom]
  | cons b bs =>
    rw [findFrom]
    split
    · next h => simp [h]
    · next h =>
      refine iff_of_false (fun heq => ?_) h
      have := findFrom_ge heq.symm
      omega

theorem width_eq (str : Bytes) (i : Nat) :
    width str i = (patterns.find? (fits · (str.drop (i - 1)))).map List.length := by
  simp only [width, find_eq_some_iff, patterns, table, List.drop, List.find?]
  repeat' split
  all_goals simp_all

/-! ## The patterns and the rows -/

/-- The number of bytes of the sequence that a byte begins. -/
def lead (b : UInt8) : Nat := if b.toNat ≤ 127 then 1 else if b.toNat ≤ 223 then 2 else if b.toNat ≤ 239 then 3 else 4

theorem length_of_fits {b : UInt8} (hp : p ∈ patterns ++ table) (h : fits p (b :: t)) : p.length = lead b := by
  simp only [patterns, table, List.drop, mem_append, mem_cons, not_mem_nil, or_false] at hp
  rcases hp with (rfl | rfl | rfl | rfl | rfl | rfl | rfl | rfl | rfl) |
    (rfl | rfl | rfl | rfl | rfl | rfl | rfl | rfl | rfl)
  all_goals
    simp [fits, inClass] at h
    simp only [lead, length_cons, length_nil]
    split_ifs <;> omega

theorem length_eq_of_fits (hp : p ∈ patterns ++ table) (hrow : row ∈ patterns ++ table) (h : fits p t)
    (h' : fits row t) : p.length = row.length := by
  cases t with
  | nil =>
    have hne : ∀ p ∈ patterns ++ table, ¬ fits p [] := by decide
    exact absurd h (hne p hp)
  | cons b bs => rw [length_of_fits hp h, length_of_fits hrow h']

/-- A pattern that fits is a row that fits, but for the odd pairs. -/
theorem row_of_pattern (hp : p ∈ patterns) (h : fits p t) :
    (∃ row ∈ table, fits row t ∧ row.length = p.length) ∨ OddPair t ∧ p.length = 2 := by
  rw [patterns, mem_cons, mem_cons] at hp
  rcases hp with rfl | rfl | hrest
  · refine .inl ⟨_, .head _, ?_, rfl⟩
    rcases t with _ | ⟨a, t⟩
    · cases h
    · simp [fits, inClass] at h ⊢
      omega
  · rcases t with _ | ⟨a, _ | ⟨b, t⟩⟩
    · cases h
    · simp [fits] at h
    · simp [fits, inClass] at h
      by_cases hb : b.toNat ≤ 127
      · refine .inr ⟨?_, rfl⟩
        simp [OddPair, fits, inClass]
        omega
      · refine .inl ⟨[[(0xC2, 0xDF)], [(0x80, 0xBF)]], by decide, ?_, rfl⟩
        simp [fits, inClass]
        omega
  · exact .inl ⟨p, mem_of_mem_drop hrest, h, rfl⟩

theorem pattern_of_row (hrow : row ∈ table) (h : fits row t) : ∃ p ∈ patterns, fits p t := by
  rw [table, mem_cons, mem_cons] at hrow
  rcases hrow with rfl | rfl | hrest
  · refine ⟨_, .head _, ?_⟩
    rcases t with _ | ⟨a, t⟩
    · cases h
    · simp [fits, inClass] at h ⊢
      omega
  · refine ⟨_, .tail _ (.head _), ?_⟩
    rcases t with _ | ⟨a, _ | ⟨b, t⟩⟩
    · cases h
    · simp [fits] at h
    · simp [fits, inClass] at h ⊢
      omega
  · exact ⟨row, .tail _ (.tail _ hrest), h⟩

theorem prefixCode_sequence : PrefixCode Sequence where
  ne_nil := by
    rintro w ⟨row, hrow, -, hlength⟩ rfl
    have hpos : ∀ row ∈ table, 0 < row.length := by decide
    exact absurd hlength (hpos row hrow).ne
  eq_of_prefix := by
    rintro w w' ⟨row, hrow, hfits, hlength⟩ ⟨row', hrow', hfits', hlength'⟩ ⟨s, rfl⟩
    have heq := length_eq_of_fits (mem_append_right _ hrow) (mem_append_right _ hrow')
      (fits_append hfits s) hfits'
    rw [length_append] at hlength'
    have hs : s = [] := eq_nil_of_length_eq_zero (by omega)
    rw [hs, append_nil]

/-! ## One turn of the loop -/

/-- The sequence at the index is as long as the loop goes on, unless an odd pair stands there. -/
theorem width_spec (h : width str i = some k) :
    (∃ q t, str.drop (i - 1) = q ++ t ∧ Sequence q ∧ q.length = k) ∨ OddPair (str.drop (i - 1)) ∧ k = 2 := by
  rw [width_eq, map_eq_some_iff] at h
  obtain ⟨p, hfind, rfl⟩ := h
  have hpfits : fits p (str.drop (i - 1)) := find?_some (p := (fits · (str.drop (i - 1)))) hfind
  rcases row_of_pattern (mem_of_find?_eq_some hfind) hpfits with ⟨row, hrow, hfits, hlength⟩ | hodd
  · obtain ⟨htake, hlen⟩ := fits_take hfits
    exact .inl ⟨_, _, (take_append_drop row.length _).symm, ⟨row, hrow, htake, hlen⟩, hlen.trans hlength⟩
  · exact .inr hodd

theorem noWord_of_width (h : width str i = none) : NoWord Sequence (str.drop (i - 1)) := by
  rw [width_eq, map_eq_none_iff, find?_eq_none] at h
  rintro w ⟨row, hrow, hfits, -⟩ ⟨t, ht⟩
  obtain ⟨p, hp, hpfits⟩ := pattern_of_row hrow (fits_append hfits t)
  rw [ht] at hpfits
  exact h p hp hpfits

theorem width_of_fits (hp : p ∈ patterns) (h : fits p (str.drop (i - 1))) : width str i = some p.length := by
  rw [width_eq]
  cases hfind : patterns.find? (fits · (str.drop (i - 1))) with
  | none => exact absurd h (find?_eq_none.mp hfind p hp)
  | some p' =>
    have hp' := mem_of_find?_eq_some hfind
    have hfits' : fits p' (str.drop (i - 1)) := find?_some (p := (fits · (str.drop (i - 1)))) hfind
    rw [map_some, length_eq_of_fits (mem_append_left _ hp') (mem_append_left _ hp) hfits' h]

theorem width_of_sequence (hq : Sequence q) (h : str.drop (i - 1) = q ++ t) : width str i = some q.length := by
  obtain ⟨row, hrow, hfits, hlength⟩ := hq
  have hrowFits := fits_append hfits t
  obtain ⟨p, hp, hpfits⟩ := pattern_of_row hrow hrowFits
  rw [width_of_fits hp (by rwa [h]), hlength,
    length_eq_of_fits (mem_append_left _ hp) (mem_append_right _ hrow) hpfits hrowFits]

theorem pattern_of_oddPair (h : OddPair t) : fits [[(194, 223)], [(123, 191)]] t := by
  unfold OddPair at h
  rcases t with _ | ⟨a, _ | ⟨b, t⟩⟩
  · cases h
  · simp [fits] at h
  · simp [fits, inClass] at h ⊢
    omega

/-- No row has an odd pair at its beginning. -/
theorem noWord_of_oddPair (h : OddPair t) : NoWord Sequence t := by
  rintro w ⟨row, hrow, hfits, -⟩ ⟨s, rfl⟩
  have hrowFits := fits_append hfits s
  have hlength := length_eq_of_fits (mem_append_right _ hrow)
    (mem_append_left _ (.tail _ (.head _))) hrowFits
    (pattern_of_oddPair h)
  have htwo : ∀ row ∈ table, row.length = 2 → row = [[(0xC2, 0xDF)], [(0x80, 0xBF)]] := by decide
  rw [htwo row hrow hlength] at hrowFits
  unfold OddPair at h
  generalize w ++ s = t at h hrowFits
  rcases t with _ | ⟨a, _ | ⟨b, t⟩⟩
  · cases h
  · simp [fits] at h
  · simp [fits, inClass] at h hrowFits
    omega

/-! ## The loop -/

theorem validateLoop_ge (h : validateLoop str i = some n) : i ≤ n := by
  fun_induction validateLoop str i with
  | case1 i hi k hwidth ih => exact Nat.le_of_add_right_le (ih h)
  | case2 i hi hwidth => exact (some.inj h).le
  | case3 => cases h

/-- The loop passes over the sequences it stands at. -/
theorem validateLoop_of_reads (h : Reads Sequence t n q) (hi : 0 < i) (ht : str.drop (i - 1) = t) :
    validateLoop str i = validateLoop str (i + n) := by
  induction h generalizing i with
  | done s => rfl
  | @word w s t n hw rest ih =>
    have hwidth := width_of_sequence hw ht
    have hpos := width_pos hwidth
    have hlength := congrArg List.length ht
    rw [length_drop, length_append] at hlength
    have hrest : str.drop (i + w.length - 1) = s := by
      rw [show i + w.length - 1 = i - 1 + w.length by omega, ← drop_drop, ht, drop_left]
    rw [← Nat.add_assoc, ← ih (by omega) hrest]
    rw [validateLoop, if_pos (by omega)]
    split
    · next k hk => rw [some.inj (hk.symm.trans hwidth)]
    · next hk => cases hk.symm.trans hwidth

/-- Behind some sequences stands an odd pair. -/
def OddAfter (str : Bytes) : Prop := ∃ n t, Reads Sequence str n t ∧ OddPair t

/-- Without an odd pair, the loop stops where the sequences do. -/
theorem validateLoop_spec (hi : 0 < i) (hreads : Reads Sequence str (i - 1) (str.drop (i - 1)))
    (hodd : ¬ OddAfter str) :
    (validateLoop str i = none ∧ AllWords Sequence str) ∨
      ∃ n, validateLoop str i = some (n + 1) ∧ StopsAt Sequence str n := by
  fun_induction validateLoop str i with
  | case1 i hle k hwidth ih =>
    rcases width_spec hwidth with ⟨q, t, hdrop, hq, rfl⟩ | ⟨hpair, -⟩
    · refine ih (by omega) ?_
      rw [hdrop] at hreads
      have hnext := hreads.snoc hq
      rw [show i + q.length - 1 = i - 1 + q.length by omega]
      rwa [hnext.drop]
    · exact absurd ⟨_, _, hreads, hpair⟩ hodd
  | case2 i hle hwidth =>
    refine .inr ⟨i - 1, by rw [Nat.sub_add_cancel hi], _, hreads, ?_, noWord_of_width hwidth⟩
    intro hnil
    have := drop_eq_nil_iff.mp hnil
    omega
  | case3 i hle =>
    rw [drop_eq_nil_of_le (by omega)] at hreads
    exact .inl ⟨rfl, allWords_iff.mpr ⟨_, hreads⟩⟩

/-- True for the sequences and nothing else, and the first index where none begins for the rest. -/
structure Right (str : Bytes) : Prop where
  accepts : validate_utf8 str = (true, none) ↔ AllWords Sequence str
  refuses : ¬ AllWords Sequence str → ∃ n, validate_utf8 str = (false, some (n + 1)) ∧ StopsAt Sequence str n

theorem right_of_loop (h : ¬ OddAfter str) : Right str := by
  rcases validateLoop_spec Nat.one_pos (.done str) h with ⟨hnone, hall⟩ | ⟨n, hsome, hstops⟩
  · refine ⟨iff_of_true ?_ hall, fun hnot => absurd hall hnot⟩
    rw [validate_utf8, hnone]
  · have hvalid : validate_utf8 str = (false, some (n + 1)) := by rw [validate_utf8, hsome]
    refine ⟨iff_of_false ?_ (prefixCode_sequence.not_allWords hstops), fun _ => ⟨n, hvalid, hstops⟩⟩
    rw [hvalid]
    exact fun heq => Bool.false_ne_true (Prod.mk.inj heq).1

/-- The loop goes on behind an odd pair. -/
theorem not_right_of_oddAfter (h : OddAfter str) : ¬ Right str := by
  obtain ⟨n, t, hreads, hpair⟩ := h
  have hfits := pattern_of_oddPair hpair
  have hne : t ≠ [] := by
    rintro rfl
    cases hfits
  have hstops : StopsAt Sequence str n := ⟨t, hreads, hne, noWord_of_oddPair hpair⟩
  intro hright
  obtain ⟨m, hvalid, hstops'⟩ := hright.refuses (prefixCode_sequence.not_allWords hstops)
  obtain rfl := prefixCode_sequence.stopsAt_unique hstops hstops'
  have hloop : validateLoop str 1 = some (n + 1) := by
    rw [validate_utf8] at hvalid
    split at hvalid
    · next hsome => rw [hsome, (Prod.mk.inj hvalid).2]
    · cases hvalid
  rw [validateLoop_of_reads hreads Nat.one_pos rfl, Nat.add_comm 1 n, validateLoop] at hloop
  have hwidth : width str (n + 1) = some 2 :=
    width_of_fits (p := [[(194, 223)], [(123, 191)]]) (by decide) (by rwa [Nat.add_sub_cancel, hreads.drop])
  split at hloop
  · split at hloop
    · next k hk =>
      obtain rfl := some.inj (hk.symm.trans hwidth)
      have := validateLoop_ge hloop
      omega
    · next hk => cases hk.symm.trans hwidth
  · cases hloop

/-- **`validate_utf8` is right exactly where no byte of C2 to DF stands behind the
sequences with one of 7B to 7F behind it.** -/
theorem validate_utf8_iff (str : Bytes) : Right str ↔ ¬ OddAfter str :=
  ⟨fun hright hodd => not_right_of_oddAfter hodd hright, right_of_loop⟩

/-- C2 7B is taken for a character. -/
theorem validate_utf8_oddPair :
    validate_utf8 [0xC2, 0x7B] = (true, none) ∧ ¬ AllWords Sequence [0xC2, 0x7B] := by
  constructor
  · have hwidth : width [0xC2, 0x7B] 1 = some 2 := by decide
    have hloop : validateLoop [0xC2, 0x7B] 1 = none := by
      rw [validateLoop, if_pos (by decide)]
      split
      · next k hk =>
        obtain rfl := some.inj (hk.symm.trans hwidth)
        rw [validateLoop, if_neg (by decide)]
      · next hk => cases hk.symm.trans hwidth
    rw [validate_utf8, hloop]
  · have hpair : OddPair [0xC2, 0x7B] := rfl
    exact prefixCode_sequence.not_allWords ⟨_, .done _, cons_ne_nil _ _, noWord_of_oddPair hpair⟩

end OpenResty.Kong.Utf8
