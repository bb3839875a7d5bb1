/-
`css_decode` reads back every text, in whatever forms its bytes are written.
-/
import OpenResty.Waf.CssDecode
import Mathlib.Data.List.TakeWhile

namespace OpenResty.Waf

open Lib List Option Nat
open UInt8 (ofNat)

/-! ## Numbers -/

theorem hexNumber_append (ds : Bytes) (a : UInt8) :
    hexNumber (ds ++ [a]) = hexNumber ds * 16 + (hexValue a).getD 0 := by
  unfold hexNumber
  rw [foldl_append]
  rfl

theorem ofNat_low (n m : Nat) : ofNat (n * 256 + m) = ofNat m := by
  rw [UInt8.ofNat_add, UInt8.ofNat_mul]
  simp

/-- The low byte of a number is that of its last two digits. -/
theorem ofNat_hexNumber (ds : Bytes) (a b : UInt8) : ofNat (hexNumber (ds ++ [a, b])) = hexPair a b := by
  have happend : ds ++ [a, b] = ds ++ [a] ++ [b] := by simp
  have hsplit : (hexNumber ds * 16 + (hexValue a).getD 0) * 16 + (hexValue b).getD 0 =
      hexNumber ds * 256 + ((hexValue a).getD 0 * 16 + (hexValue b).getD 0) := by omega
  rw [happend, hexNumber_append, hexNumber_append, hsplit, ofNat_low, hexPair]

/-- The letter `f` is the digit that stands for 15, and `0` the one that stands for nothing. -/
theorem digit_values (c : UInt8) : (hexValue c).isSome →
    ((isF c = true ↔ (hexValue c).getD 0 = 15) ∧ (c = '0'.toUInt8 ↔ (hexValue c).getD 0 = 0)) :=
  forall_byte (p := fun c => (hexValue c).isSome →
    ((isF c = true ↔ (hexValue c).getD 0 = 15) ∧ (c = '0'.toUInt8 ↔ (hexValue c).getD 0 = 0))) (by decide +kernel) c

theorem digit_lt {c : UInt8} (h : (hexValue c).isSome) : (hexValue c).getD 0 < 16 := (digit_plain c h).2.2.2.2

/-- A number with four digits behind `n` is full width if `n` is 0 and the digits are those of a letter. -/
theorem fullWidth_iff (n : Nat) {a b c d : UInt8} (ha : (hexValue a).isSome) (hb : (hexValue b).isSome)
    (hc : (hexValue c).isSome) (hd : (hexValue d).isSome) :
    FullWidth (n * 65536 + hexNumber [a, b, c, d]) ↔
      n = 0 ∧ (0 < hexPair c d ∧ hexPair c d < 0x5f) ∧ isF a = true ∧ isF b = true := by
  have ha' := digit_lt ha
  have hb' := digit_lt hb
  have hc' := digit_lt hc
  have hd' := digit_lt hd
  have hpair : (hexPair c d).toNat = (hexValue c).getD 0 * 16 + (hexValue d).getD 0 := by
    rw [hexPair, UInt8.toNat_ofNat']
    exact mod_eq_of_lt (by omega)
  have hnumber : hexNumber [a, b, c, d] = (((0 * 16 + (hexValue a).getD 0) * 16 + (hexValue b).getD 0) * 16 +
      (hexValue c).getD 0) * 16 + (hexValue d).getD 0 := rfl
  rw [(digit_values a ha).1, (digit_values b hb).1, UInt8.lt_iff_toNat_lt, UInt8.lt_iff_toNat_lt, hpair, hnumber]
  unfold FullWidth
  have hzero : (0 : UInt8).toNat = 0 := rfl
  have hend : (0x5f : UInt8).toNat = 95 := rfl
  omega

theorem hexNumber_four (zs : Bytes) (a b c d : UInt8) :
    hexNumber (zs ++ [a, b, c, d]) = hexNumber zs * 65536 + hexNumber [a, b, c, d] := by
  have happend : zs ++ [a, b, c, d] = zs ++ [a] ++ [b] ++ [c] ++ [d] := by simp
  have hnumber : hexNumber [a, b, c, d] = (((0 * 16 + (hexValue a).getD 0) * 16 + (hexValue b).getD 0) * 16 +
      (hexValue c).getD 0) * 16 + (hexValue d).getD 0 := rfl
  rw [happend, hexNumber_append, hexNumber_append, hexNumber_append, hexNumber_append, hnumber]
  omega

/-- From four digits on, the last two and the two in front of them decide, if the others are 0. -/
theorem cssValue_four (zs : Bytes) {a b c d : UInt8} (ha : (hexValue a).isSome) (hb : (hexValue b).isSome)
    (hc : (hexValue c).isSome) (hd : (hexValue d).isSome) :
    cssValue (zs ++ [a, b, c, d]) =
      if hexNumber zs = 0 then fullWidth a b (hexPair c d) else hexPair c d := by
  have hlow : ofNat (hexNumber (zs ++ [a, b, c, d])) = hexPair c d := by
    have happend : zs ++ [a, b, c, d] = zs ++ [a, b] ++ [c, d] := by simp
    rw [happend, ofNat_hexNumber]
  have hwide := fullWidth_iff (hexNumber zs) ha hb hc hd
  rw [← hexNumber_four] at hwide
  unfold cssValue fullWidth
  rw [hlow]
  by_cases hzero : hexNumber zs = 0
  · rw [if_pos hzero]
    exact if_congr (hwide.trans (and_iff_right hzero)) rfl rfl
  · rw [if_neg hzero, if_neg fun h => hzero (hwide.mp h).1]

/-- Up to three digits are too few for a full width letter. -/
theorem cssValue_short {ds : Bytes} (hhex : ∀ c ∈ ds, (hexValue c).isSome) (hlen : ds.length ≤ 3) :
    cssValue ds = ofNat (hexNumber ds) := by
  have hsmall : hexNumber ds < 4096 := by
    rcases ds with _ | ⟨a, _ | ⟨b, _ | ⟨c, _ | ⟨d, r⟩⟩⟩⟩
    · exact succ_pos _
    · have ha := digit_lt (hhex a (by simp))
      simp only [hexNumber, foldl_cons, foldl_nil]
      omega
    · have ha := digit_lt (hhex a (by simp))
      have hb := digit_lt (hhex b (by simp))
      simp only [hexNumber, foldl_cons, foldl_nil]
      omega
    · have ha := digit_lt (hhex a (by simp))
      have hb := digit_lt (hhex b (by simp))
      have hc := digit_lt (hhex c (by simp))
      simp only [hexNumber, foldl_cons, foldl_nil]
      omega
    · simp only [length_cons] at hlen
      omega
  unfold cssValue
  exact if_neg fun h => by
    have hwide := h.1
    omega

/-! ## The step -/

section

variable {s : Pass} {cs : Bytes}

theorem read_at (hrest : s.rest = cs) (k : Nat) : s.read (s.i + k) = cs[k]? := by
  rw [Pass.read_rest, hrest]

/-- The loop over the digits counts those that follow, up to six. -/
theorem hexRun_eq (hrest : s.rest = cs) (fuel j : Nat) :
    hexRun s fuel j = some (j + (((cs.drop j).takeWhile validHex).take fuel).length) := by
  have hlen : s.buf.length - s.i = cs.length := by rw [← s.length_rest, hrest]
  induction fuel generalizing j with
  | zero => rw [hexRun, take_zero, length_nil, Nat.add_zero]
  | succ fuel ih =>
    rw [hexRun]
    by_cases hlt : j < cs.length
    · rw [if_pos (by omega), read_at hrest, getElem?_eq_getElem hlt, drop_eq_getElem_cons hlt]
      simp only [bind, Option.bind]
      cases hhex : validHex cs[j] with
      | true =>
        rw [if_pos rfl, ih, takeWhile_cons_of_pos hhex, take_succ_cons, length_cons]
        congr 1
        omega
      | false =>
        rw [if_neg (by simp), takeWhile_cons_of_neg (by simp [hhex])]
        rfl
    · rw [if_neg (by omega), drop_eq_nil_of_le (by omega)]
      rfl

/-- Behind the digits, a white space character or none. -/
theorem spaceBehind_set (hbehind : s.d < s.i) (hi : s.i ≤ s.buf.length) (hrest : s.rest = cs) (c : UInt8) (j : Nat) :
    spaceBehind (s.set c) j = some ((cs[j]?.map isSpace).getD false) := by
  have hlen : s.buf.length - s.i = cs.length := by rw [← s.length_rest, hrest]
  unfold spaceBehind
  rw [Pass.set_i, Pass.length_set, Pass.read_set (by omega), read_at hrest]
  by_cases hlt : j < cs.length
  · rw [if_pos (by omega), getElem?_eq_getElem hlt]
    rfl
  · rw [if_neg (by omega), getElem?_eq_none (by omega)]
    rfl

variable {a b v : UInt8}

theorem needsAdding_set (hbehind : s.d < s.i) (hrest : s.rest = cs) {j : Nat} {full : Bool}
    (hread : full = true → 4 ≤ j ∧ cs[j - 4]? = some a ∧ cs[j - 3]? = some b) :
    needsAdding (s.set v) j full v =
      some (decide (full = true ∧ (0 < v ∧ v < 0x5f) ∧ isF a = true ∧ isF b = true)) := by
  unfold needsAdding
  cases full with
  | false => rfl
  | true =>
    obtain ⟨hj, ha, hb⟩ := hread rfl
    have hread3 : (s.set v).read (s.i + j - 3) = some b := by
      rw [Pass.read_set (by omega), show s.i + j - 3 = s.i + (j - 3) by omega, read_at hrest, hb]
    have hread4 : (s.set v).read (s.i + j - 4) = some a := by
      rw [Pass.read_set (by omega), show s.i + j - 4 = s.i + (j - 4) by omega, read_at hrest, ha]
    simp only [Pass.set_i, hread3, hread4, map_some, bind, Option.bind, Bool.true_and, Bool.and_eq_true,
      decide_eq_true_eq, true_and]
    by_cases hlow : 0 < v ∧ v < 0x5f
    · simp only [hlow, and_self, if_true, true_and]
      cases isF a <;> cases isF b <;> rfl
    · simp only [hlow, if_false, false_and]
      rfl

/-- The byte of an escape, once its digits are read. -/
theorem cssEscape_eq (hbehind : s.d < s.i) (hi : s.i ≤ s.buf.length) (hrest : s.rest = cs) {j : Nat}
    {full : Bool} (hlow : lowByte s j = some v) (hfull : fullcheck (s.set v) j = some full)
    (hread : full = true → 4 ≤ j ∧ cs[j - 4]? = some a ∧ cs[j - 3]? = some b) :
    cssEscape s j = some ((s.set (if full = true then fullWidth a b v else v)).move 1
      (if (cs[j]?.map isSpace).getD false then j + 1 else j)) := by
  have hd : s.d < s.buf.length := by omega
  have hspace := spaceBehind_set hbehind hi hrest
  have hwide := needsAdding_set (v := v) hbehind hrest hread
  have hself : (s.set v).read (s.set v).d = some v := Pass.read_set_self hd
  simp only [cssEscape, hlow, hfull, hself, hwide, bind, Option.bind, pure]
  unfold fullWidth
  by_cases hcond : full = true ∧ (0 < v ∧ v < 0x5f) ∧ isF a = true ∧ isF b = true
  · simp only [hcond, decide_true, if_true, Pass.set_set, hspace, and_self]
  · simp only [hcond, decide_false, Bool.false_eq_true, if_false, hspace]
    by_cases hf : full = true
    · rw [if_pos hf, if_neg fun h => hcond ⟨hf, h⟩]
    · rw [if_neg hf]

/-- The last two digits, once there are two. -/
theorem lowByte_two (hrest : s.rest = cs) {j : Nat} (hj : 2 ≤ j) (ha : cs[j - 2]? = some a)
    (hb : cs[j - 1]? = some b) : lowByte s j = some (x2c a b) := by
  have hread2 : s.read (s.i + j - 2) = some a := by
    rw [show s.i + j - 2 = s.i + (j - 2) by omega, read_at hrest, ha]
  have hread1 : s.read (s.i + j - 1) = some b := by
    rw [show s.i + j - 1 = s.i + (j - 1) by omega, read_at hrest, hb]
  unfold lowByte
  rw [if_neg (by omega), hread2, hread1]
  rfl

variable {ds r zs : Bytes}

/-- A check is made for four digits, and for more if the first ones are 0. -/
theorem fullcheck_set (hbehind : s.d < s.i) (hrest : s.rest = cs) (c : UInt8) {j : Nat}
    (hcs : cs = zs ++ r) (hhex : ∀ z ∈ zs, (hexValue z).isSome) (hj : j = zs.length + 4) (hle : j ≤ 6) :
    fullcheck (s.set c) j = some (decide (hexNumber zs = 0)) := by
  have hread : ∀ k, (s.set c).read (s.i + k) = (zs ++ r)[k]? := by
    intro k
    rw [Pass.read_set (by omega), read_at hrest, hcs]
  have hread0 : (s.set c).read s.i = (zs ++ r)[0]? := hread 0
  unfold fullcheck
  rcases zs with _ | ⟨y, _ | ⟨z, _ | ⟨_, _⟩⟩⟩
  · cases hj
    rfl
  · have hy := (digit_values y (hhex y (by simp))).2
    cases hj
    simp only [Pass.set_i, hread0]
    rw [if_neg (by simp), if_pos (by rfl)]
    simp only [cons_append, getElem?_cons_zero, map_some, hexNumber, foldl_cons, foldl_nil,
      Nat.zero_mul, Nat.zero_add, ← hy]
    rfl
  · have hy := (digit_values y (hhex y (by simp))).2
    have hz := (digit_values z (hhex z (by simp))).2
    cases hj
    have hread1 : (s.set c).read (s.i + 1) = some z := hread 1
    have hnumber : hexNumber [y, z] = 0 ↔ y = '0'.toUInt8 ∧ z = '0'.toUInt8 := by
      rw [hy, hz]
      simp only [hexNumber, foldl_cons, foldl_nil]
      omega
    simp only [Pass.set_i, hread0, hread1]
    rw [if_neg (by simp), if_neg (by simp), if_pos (by rfl)]
    simp only [cons_append, getElem?_cons_zero, map_some, bind, Option.bind, hnumber,
      beq_iff_eq]
    by_cases hyz : y = '0'.toUInt8
    · rw [if_pos hyz]
      simp [hyz]
      rfl
    · rw [if_neg hyz]
      simp [hyz]
  · simp only [length_cons] at hj
    omega

/-- A byte that needs no check. -/
theorem cssEscape_short (hbehind : s.d < s.i) (hi : s.i ≤ s.buf.length)
    (hrest : s.rest = ds ++ r) (hhex : ∀ c ∈ ds, (hexValue c).isSome) (hlen : ds.length ≤ 3)
    (hlow : lowByte s ds.length = some v) (hvalue : ofNat (hexNumber ds) = v) :
    cssEscape s ds.length = some ((s.set (cssValue ds)).move 1
      (if (((ds ++ r)[ds.length]?).map isSpace).getD false then ds.length + 1 else ds.length)) := by
  have hfull : fullcheck (s.set v) ds.length = some false := by
    unfold fullcheck
    rw [if_neg (by omega), if_neg (by omega), if_neg (by omega)]
  have hescape := cssEscape_eq (a := 0) (b := 0) hbehind hi hrest hlow hfull (by simp)
  rw [hescape, cssValue_short hhex hlen, hvalue]
  rfl

/-- A byte whose four digits are checked, if what stands in front of them is 0. -/
theorem cssEscape_long {c d : UInt8} (hbehind : s.d < s.i) (hi : s.i ≤ s.buf.length)
    (hrest : s.rest = zs ++ [a, b, c, d] ++ r) (hhex : ∀ x ∈ zs ++ [a, b, c, d], (hexValue x).isSome)
    (hlen : (zs ++ [a, b, c, d]).length ≤ 6) :
    cssEscape s (zs ++ [a, b, c, d]).length = some ((s.set (cssValue (zs ++ [a, b, c, d]))).move 1
      (if (((zs ++ [a, b, c, d] ++ r)[(zs ++ [a, b, c, d]).length]?).map isSpace).getD false
        then (zs ++ [a, b, c, d]).length + 1 else (zs ++ [a, b, c, d]).length)) := by
  have hj : (zs ++ [a, b, c, d]).length = zs.length + 4 := length_append
  have hcs : zs ++ [a, b, c, d] ++ r = zs ++ (a :: b :: c :: d :: r) := by simp
  have hbehind4 : ∀ k, (zs ++ (a :: b :: c :: d :: r))[zs.length + k]? = (a :: b :: c :: d :: r)[k]? := by
    intro k
    rw [getElem?_append_right (Nat.le_add_right _ _), Nat.add_sub_cancel_left]
  have ha := hhex a (by simp)
  have hb := hhex b (by simp)
  have hc := hhex c (by simp)
  have hd := hhex d (by simp)
  have hzs : ∀ z ∈ zs, (hexValue z).isSome := fun z hz => hhex z (mem_append_left _ hz)
  rw [hcs] at hrest ⊢
  rw [hj] at hlen ⊢
  have hlow : lowByte s (zs.length + 4) = some (hexPair c d) := by
    rw [lowByte_two hrest (by omega) (hbehind4 2) (hbehind4 3), x2c_eq hc hd]
  have hfull := fullcheck_set hbehind hrest (hexPair c d) rfl hzs rfl hlen
  rw [cssEscape_eq hbehind hi hrest hlow hfull fun _ => ⟨by omega, hbehind4 0, hbehind4 1⟩,
    cssValue_four zs ha hb hc hd]
  simp only [decide_eq_true_eq]

theorem last_four (h : 4 ≤ ds.length) : ∃ zs a b c d, ds = zs ++ [a, b, c, d] := by
  have hlen : (ds.drop (ds.length - 4)).length = 4 := by rw [length_drop]; omega
  have hsplit := take_append_drop (ds.length - 4) ds
  rcases hdrop : ds.drop (ds.length - 4) with _ | ⟨a, _ | ⟨b, _ | ⟨c, _ | ⟨d, _ | ⟨e, r⟩⟩⟩⟩⟩
  case cons.cons.cons.cons.nil => exact ⟨_, a, b, c, d, by rw [← hdrop, hsplit]⟩
  all_goals
    rw [hdrop] at hlen
    simp at hlen

/-- The code for an escape writes the byte it stands for and reads it with the white space behind. -/
theorem cssEscape_digits {ds r : Bytes} (hbehind : s.d < s.i) (hi : s.i ≤ s.buf.length) (hrest : s.rest = ds ++ r)
    (hhex : ∀ c ∈ ds, (hexValue c).isSome) (hne : ds ≠ []) (hlen : ds.length ≤ 6) :
    cssEscape s ds.length = some ((s.set (cssValue ds)).move 1 (ds.length + spaceAfter ds (ds ++ r))) := by
  have hspace : (if (((ds ++ r)[ds.length]?).map isSpace).getD false = true then ds.length + 1 else ds.length) =
      ds.length + spaceAfter ds (ds ++ r) := by
    unfold spaceAfter
    rw [head?_drop]
    split <;> rfl
  rw [← hspace]
  by_cases hlong : 4 ≤ ds.length
  · obtain ⟨zs, a, b, c, d, rfl⟩ := last_four hlong
    exact cssEscape_long hbehind hi hrest hhex hlen
  · rcases ds with _ | ⟨a, _ | ⟨b, _ | ⟨c, _ | ⟨d, ds⟩⟩⟩⟩
    · exact absurd rfl hne
    · have ha := hhex a (by simp)
      have hread : s.read s.i = some a := read_at hrest 0
      refine cssEscape_short (v := xsingle2c a) hbehind hi hrest hhex (by simp) ?_ ?_
      · unfold lowByte
        rw [if_pos (by rfl), hread]
        rfl
      · rw [xsingle2c_eq a ha]
        simp only [hexNumber, foldl_cons, foldl_nil, Nat.zero_mul, Nat.zero_add]
    · refine cssEscape_short (v := hexPair a b) hbehind hi hrest hhex (by simp) ?_ (ofNat_hexNumber [] a b)
      rw [lowByte_two (j := [a, b].length) hrest (by simp) rfl rfl, x2c_eq (hhex a (by simp)) (hhex b (by simp))]
    · refine cssEscape_short (v := hexPair b c) hbehind hi hrest hhex (by simp) ?_ (ofNat_hexNumber [a] b c)
      rw [lowByte_two (j := [a, b, c].length) hrest (by simp) rfl rfl, x2c_eq (hhex b (by simp)) (hhex c (by simp))]
    · simp only [length_cons] at hlong
      omega

/-- Behind the backslash, which is passed over, the rest of an escape follows. -/
theorem Writes.skip {s' : Pass} {out : Bytes} {n : Nat} (h : Writes (s.move 0 1) s' (out, n)) :
    Writes s s' (out, 1 + n) := by
  obtain ⟨hi, hd, hlength, hout, hrest⟩ := h
  refine ⟨?_, hd, hlength, hout, ?_⟩
  · rw [hi]
    exact Nat.add_assoc s.i 1 n
  · rw [hrest]
    simp only [Pass.rest, Pass.move]
    rw [drop_drop, drop_drop, Nat.add_assoc]

theorem length_cssDigits (cs : Bytes) : (cssDigits cs).length ≤ 6 := by
  unfold cssDigits
  exact (length_take_le _ _)

theorem cssDigits_hex {cs : Bytes} : ∀ c ∈ cssDigits cs, (hexValue c).isSome := by
  intro c hc
  rw [← validHex_eq]
  exact mem_takeWhile_imp (mem_of_mem_take hc)

theorem cssDigits_append (cs : Bytes) : ∃ r, cs = cssDigits cs ++ r := by
  have hprefix : cssDigits cs <+: cs := ( take_prefix _ _).trans ( takeWhile_prefix _)
  obtain ⟨r, hr⟩ := hprefix
  exact ⟨r, hr.symm⟩

/-- A step with a byte behind the backslash. -/
theorem step_backslash (hbehind : s.d ≤ s.i) {e : UInt8} (hrest : s.rest = '\\'.toUInt8 :: e :: cs) :
    ∃ s', cssStep s = some s' ∧ Writes s s' (cssPiece s.i ('\\'.toUInt8 :: e :: cs)) := by
  have hlen := length_behind hrest
  have hlt : s.i + 1 < s.buf.length := by
    rw [length_cons] at hlen
    omega
  have h0 := read_first hrest
  have hskip : (s.move 0 1).rest = e :: cs := by
    have hdrop : (s.move 0 1).rest = s.rest.drop 1 := by
      simp only [Pass.rest, Pass.move]
      rw [drop_drop]
    rw [hdrop, hrest]
    rfl
  have hbehind' : (s.move 0 1).d < (s.move 0 1).i := lt_succ_of_le hbehind
  have hrun : hexRun (s.move 0 1) 6 0 = some (cssDigits (e :: cs)).length := by
    rw [hexRun_eq hskip, drop_zero, Nat.zero_add]
    rfl
  have hfirst : (s.move 0 1).read (s.move 0 1).i = some e := read_first hskip
  unfold cssPiece
  dsimp only
  rw [if_pos rfl]
  by_cases hdigits : cssDigits (e :: cs) = []
  · rw [if_pos hdigits]
    simp only [cssStep, h0, hlt, hrun, hfirst, hdigits, bind, Option.bind, if_true, length_nil, Nat.lt_irrefl,
      if_false, pure]
    by_cases hnewline : e = '\n'.toUInt8
    · simp only [hnewline, if_true]
      exact ⟨_, rfl, Writes.skip (n := 1) Pass.writes_nothing⟩
    · simp only [hnewline, if_false]
      exact ⟨_, rfl, Writes.skip (n := 1) (Pass.writes_byte (Nat.le_of_lt hbehind') hlt Nat.one_pos)⟩
  · rw [if_neg hdigits]
    obtain ⟨r, hr⟩ := cssDigits_append (e :: cs)
    have hescape := @cssEscape_digits (s.move 0 1) (cssDigits (e :: cs)) r hbehind'
      (Nat.le_of_lt hlt)
      (hskip.trans hr) cssDigits_hex hdigits (length_cssDigits _)
    have hpos : 0 < (cssDigits (e :: cs)).length := length_pos_iff.mpr hdigits
    rw [← hr] at hescape
    simp only [cssStep, h0, hlt, hrun, hpos, bind, Option.bind, if_true]
    refine ⟨_, hescape, ?_⟩
    rw [Nat.add_assoc]
    exact Writes.skip (Pass.writes_byte (Nat.le_of_lt hbehind') hlt (by omega))

theorem stepsBy_css : StepsBy cssStep cssPiece := by
  intro s hbehind hi
  obtain ⟨c, cs, hrest⟩ := Pass.rest_cons hi
  rw [hrest]
  by_cases hc : c = '\\'.toUInt8
  · rw [hc] at hrest ⊢
    cases cs with
    | nil =>
      have hlen := length_behind hrest
      have hnot : ¬ s.i + 1 < s.buf.length := by
        rw [length_nil] at hlen
        omega
      refine ⟨s.move 0 1, ?_, Pass.writes_nothing⟩
      simp only [cssStep, read_first hrest, hnot, bind, Option.bind, if_true, if_false, pure]
    | cons e cs => exact step_backslash hbehind hrest
  · unfold cssPiece
    dsimp only
    rw [if_neg hc]
    refine ⟨(s.set c).move 1 1, ?_, Pass.writes_byte hbehind hi Nat.one_pos⟩
    simp only [cssStep, read_first hrest, hc, bind, Option.bind, if_false, pure]

theorem spaceAfter_le {ds r : Bytes} : ds.length + spaceAfter ds (ds ++ r) ≤ (ds ++ r).length := by
  unfold spaceAfter
  rw [drop_left, length_append]
  cases r with
  | nil => exact Nat.le_refl _
  | cons c r =>
    rw [length_cons]
    split <;> omega

theorem shrinking_css : Shrinking cssPiece := by
  intro i c cs
  unfold cssPiece
  dsimp only
  by_cases hc : c = '\\'.toUInt8
  · rw [if_pos hc]
    by_cases hdigits : cssDigits cs = []
    · rw [if_pos hdigits]
      cases cs with
      | nil => exact ⟨Nat.one_pos, Nat.le_refl _, Nat.zero_le _⟩
      | cons e cs =>
        dsimp only
        split
        · exact ⟨Nat.two_pos, by simp, Nat.zero_le _⟩
        · exact ⟨Nat.two_pos, by simp, by simp⟩
    · rw [if_neg hdigits]
      obtain ⟨r, hr⟩ := cssDigits_append cs
      have hle := @spaceAfter_le (cssDigits cs) r
      rw [← hr] at hle
      simp only [length_cons, length_nil]
      omega
  · rw [if_neg hc]
    exact ⟨Nat.one_pos, succ_le_succ (Nat.zero_le _), Nat.le_refl _⟩

end

theorem cssDecode_eq (input : Bytes) : cssDecode input = some (rewrite cssPiece input.length 0 input) := by
  obtain ⟨s', hloop, hout, -⟩ := Pass.loop_eq stepsBy_css shrinking_css input.length (s := ⟨input, 0, 0⟩)
    (Nat.le_refl _) (Nat.zero_le _) (by simp [Pass.rest])
  unfold cssDecode
  rw [hloop, map_some, hout]
  simp [Pass.out, Pass.rest]

/-! ## Written forms -/

/-- The digits are those of the escape, as what follows is no digit or the seventh one. -/
theorem cssDigits_eq {ds r : Bytes} (hhex : ∀ d ∈ ds, (hexValue d).isSome) (hlen : ds.length ≤ 6)
    (hnext : ∀ c ∈ r.head?, ds.length < 6 → (hexValue c).isSome = false) : cssDigits (ds ++ r) = ds := by
  have hvalid : ∀ d ∈ ds, validHex d = true := fun d hd => by
    rw [validHex_eq]
    exact hhex d hd
  unfold cssDigits
  rw [takeWhile_append_of_pos hvalid]
  by_cases hsix : ds.length < 6
  · have hnone : r.takeWhile validHex = [] := by
      cases r with
      | nil => rfl
      | cons c r =>
        have hc := hnext c rfl hsix
        rw [← validHex_eq] at hc
        exact takeWhile_cons_of_neg (by simp [hc])
    rw [hnone, append_nil, take_of_length_le hlen]
  · rw [take_append_of_le_length (by omega), take_of_length_le hlen]

/-- White space is no digit. -/
theorem not_digit_of_space {c : UInt8} (h : isSpace c = true) : (hexValue c).isSome = false := by
  cases hc : hexValue c with
  | none => rfl
  | some n =>
    have hplain := (digit_plain c (by rw [hc]; rfl)).1
    rw [h] at hplain
    cases hplain

/-- A form that fits what follows is one piece. -/
theorem cssPiece_text (i : Nat) {f : Form} {r : Bytes} (h : f.Fits CssNeedsBlank r.head?) :
    cssPiece i (f.text ++ r) = ([f.value], f.text.length) := by
  cases f with
  | itself c => exact if_neg h
  | escape ds blank =>
    obtain ⟨hne, hlen, hhex, hblank, hnext⟩ := h
    have hdigits : cssDigits (ds ++ (blank.toList ++ r)) = ds := by
      refine cssDigits_eq hhex hlen fun c hc hsix => ?_
      cases blank with
      | none =>
        have hnot := hnext rfl c hc
        exact Bool.eq_false_iff.mpr fun hex => hnot (.inr ⟨hsix, hex⟩)
      | some w =>
        cases hc
        exact not_digit_of_space (hblank c rfl)
    have hspace : spaceAfter ds (ds ++ (blank.toList ++ r)) = blank.toList.length := by
      unfold spaceAfter
      rw [drop_left]
      cases blank with
      | some w =>
        have hw := hblank w rfl
        simp [hw]
      | none =>
        cases r with
        | nil => rfl
        | cons c r =>
          have hc : isSpace c = false := Bool.eq_false_iff.mpr fun hs => hnext rfl c rfl (.inl hs)
          simp [hc]
    have htext : (Form.escape ds blank).text ++ r = '\\'.toUInt8 :: (ds ++ (blank.toList ++ r)) := by
      simp [Form.text]
    rw [htext]
    unfold cssPiece
    dsimp only
    rw [if_pos rfl, hdigits, if_neg hne, hspace]
    simp only [Form.value, Form.text, length_cons, length_append]
    congr 1
    omega

/-- What is written is read back form by form. -/
theorem rewrite_written (forms : List Form) (h : AllFit CssNeedsBlank forms) (fuel i : Nat)
    (hfuel : (written forms).length ≤ fuel) : rewrite cssPiece fuel i (written forms) = forms.map Form.value := by
  induction forms generalizing fuel i with
  | nil => cases fuel <;> rfl
  | cons f forms ih =>
    obtain ⟨hfits, hrest⟩ := h
    have hwritten : written (f :: forms) = f.text ++ written forms := rfl
    obtain ⟨c, cs, htext⟩ : ∃ c cs, f.text = c :: cs := by cases f <;> exact ⟨_, _, rfl⟩
    have hpiece := cssPiece_text i hfits
    rw [hwritten, length_append, htext, length_cons] at hfuel
    cases fuel with
    | zero => omega
    | succ fuel =>
      have hcons : written (f :: forms) = c :: (cs ++ written forms) := by rw [hwritten, htext, cons_append]
      have hsame : c :: (cs ++ written forms) = f.text ++ written forms := by rw [← hcons, hwritten]
      rw [hcons, rewrite, hsame, hpiece, drop_left, ih hrest _ _ (by omega)]
      rfl

/-! ## The law -/

theorem withinInput (input : Bytes) : WithinInput input := by
  have hreach : ∀ s, Pass.Reaches cssStep ⟨input, 0, 0⟩ s →
      s.d ≤ s.i ∧ s.i ≤ s.buf.length ∧ s.buf.length = input.length :=
    fun s hs => hs.behind stepsBy_css shrinking_css (Nat.le_refl _) (Nat.zero_le _)
  constructor
  · intro s hs
    obtain ⟨hbehind, hle, hlength⟩ := hreach s hs
    exact ⟨hbehind, by rwa [hlength] at hle⟩
  · intro s hs hlt
    obtain ⟨hbehind, -, hlength⟩ := hreach s hs
    obtain ⟨s', hstep, -⟩ := stepsBy_css s hbehind (by rwa [hlength])
    rw [hstep]
    rfl
  · rw [cssDecode_eq]
    rfl

/-- **What is written in forms is read back**, in place and for every input within it. -/
theorem css_right : ReadsBack CssNeedsBlank Form.value ∧ ∀ input, WithinInput input := by
  refine ⟨fun s forms hforms hs => ?_, withinInput⟩
  rw [cssDecode_eq, rewrite_written forms hforms _ _ (Nat.le_refl _), hs]

/-- Two letters as themselves, and between them an escape that ends with a blank. -/
example : cssDecode (written [.itself 'a'.toUInt8, .escape ("62".toList.map Char.toUInt8) (some 32), .itself 99]) =
    some ("abc".toList.map Char.toUInt8) := by decide +kernel

/-- White space is needed behind every escape that a digit follows. -/
def DigitNeedsBlank (_ : Bytes) (c : UInt8) : Prop := (hexValue c).isSome

theorem css_not_low : ¬ ReadsBack DigitNeedsBlank Form.low ∧ ¬ ReadsBack CssNeedsBlank Form.low ∧
    ¬ ReadsBack DigitNeedsBlank Form.value := by
  have hwide : cssDecode (written [.escape ("ff41".toList.map Char.toUInt8) none]) ≠ some ['A'.toUInt8] := by
    decide +kernel
  have hblank : cssDecode (written [.escape ("41".toList.map Char.toUInt8) none, .itself 32]) ≠
      some ['A'.toUInt8, 32] := by decide +kernel
  have hdigits : ∀ d ∈ "ff41".toList.map Char.toUInt8, (hexValue d).isSome := by decide +kernel
  have hdigits' : ∀ d ∈ "41".toList.map Char.toUInt8, (hexValue d).isSome := by decide +kernel
  refine ⟨fun h => ?_, fun h => ?_, fun h => ?_⟩
  · exact hwide (h ['A'.toUInt8] _ ⟨⟨by decide, by decide, hdigits, by simp, by simp [written]⟩, trivial⟩ (by decide))
  · exact hwide (h ['A'.toUInt8] _ ⟨⟨by decide, by decide, hdigits, by simp, by simp [written]⟩, trivial⟩ (by decide))
  · refine hblank (h ['A'.toUInt8, 32] _
      ⟨⟨by decide, by decide, hdigits', by simp, fun _ c hc => ?_⟩, ?_⟩ (by decide))
    · cases hc
      unfold DigitNeedsBlank
      decide
    · exact ⟨by unfold Form.Fits; decide, trivial⟩

end OpenResty.Waf
