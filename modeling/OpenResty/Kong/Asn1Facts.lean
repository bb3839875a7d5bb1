/-
What `ASN1Encoder` writes is what `ASN1Decoder` reads: numbers in two's complement as long as
the loop for the negative ones ends where the sign is set, strings with a length of one byte.
-/
import Mathlib.Tactic.Linarith
import OpenResty.Kong.Asn1

namespace OpenResty.Kong.Asn1

open Lib Waf List Nat
open UInt8 (ofNat)

/-! ## Doubles -/

theorem roundEven_intCast (n : Int) : Lua.roundEven (n : Rat) = n := by
  rw [Lua.roundEven, Rat.floor_intCast, if_pos (by norm_num)]

variable {n val z : Int}

theorem le_roundEven {q : Rat} (h : (n : Rat) ≤ q) : n ≤ Lua.roundEven q := by
  have hfloor : n ≤ q.floor := Rat.le_floor_iff.mpr h
  rw [Lua.roundEven]
  split_ifs <;> omega

theorem roundEven_le {q : Rat} (h : q ≤ (n : Rat)) : Lua.roundEven q ≤ n := by
  have hfloor : (q.floor : Rat) ≤ q := Rat.floor_le q
  have hle : q.floor ≤ n := by exact_mod_cast hfloor.trans h
  rcases hle.eq_or_lt with heq | hlt
  · have hq : q = (n : Rat) := le_antisymm h (by rw [← heq]; exact hfloor)
    rw [hq, roundEven_intCast]
  · rw [Lua.roundEven]
    split_ifs <;> omega

theorem double_of_lt (h : z.natAbs < 2 ^ 53) : double z = z := by
  have hlog : log2 z.natAbs < 53 := by
    by_cases hz : z.natAbs = 0
    · rw [hz]
      decide
    · exact (log2_lt hz).mpr h
  have hunit : log2 z.natAbs + 1 - 53 = 0 := by omega
  simp only [double, hunit, pow_zero, Int.cast_one, div_one, roundEven_intCast, mul_one]

theorem double_limit : double (-2 ^ 53) = -2 ^ 53 := by
  have hlog : log2 (-2 ^ 53 : Int).natAbs = 53 := by decide
  have hhalf : ((-2 ^ 53 : Int) : Rat) / ((2 : Int) : Rat) = ((-2 ^ 52 : Int) : Rat) := by norm_num
  simp only [double, hlog, show 53 + 1 - 53 = 1 from rfl, pow_one, hhalf, roundEven_intCast]
  norm_num

/-- From 2 ^ 55 on a double is a multiple of eight, the one next to the number. -/
theorem double_large (hlo : 2 ^ 55 ≤ z) (hhi : z < 2 ^ 56) : double z = Lua.roundEven ((z : Rat) / 8) * 8 := by
  have hne : z.natAbs ≠ 0 := by omega
  have hlog : log2 z.natAbs = 55 := by
    have h₁ : 55 ≤ log2 z.natAbs := (le_log2 hne).mpr (by omega)
    have h₂ : log2 z.natAbs < 56 := (log2_lt hne).mpr (by omega)
    omega
  rw [double, hlog]
  norm_num

theorem double_of_dvd (hlo : 2 ^ 55 ≤ z) (hhi : z < 2 ^ 56) (h : 8 ∣ z) : double z = z := by
  obtain ⟨k, rfl⟩ := h
  have hdiv : (((8 * k : Int)) : Rat) / 8 = (k : Rat) := by
    rw [Int.cast_mul, Int.cast_ofNat, mul_div_cancel_left₀ _ (by norm_num)]
  rw [double_large hlo hhi, hdiv, roundEven_intCast, mul_comm]

theorem dvd_double (hlo : 2 ^ 55 ≤ z) (hhi : z < 2 ^ 56) : 8 ∣ double z := by
  rw [double_large hlo hhi]
  exact Dvd.intro_left _ rfl

/-- Rounding does not go past a multiple of eight. -/
theorem double_between {a b : Int} (hlo : 2 ^ 55 ≤ z) (hhi : z < 2 ^ 56) (ha : 8 * a ≤ z) (hb : z ≤ 8 * b) :
    8 * a ≤ double z ∧ double z ≤ 8 * b := by
  have ha' : (a : Rat) ≤ (z : Rat) / 8 := by
    rw [le_div_iff₀ (by norm_num)]
    exact_mod_cast (by omega : a * 8 ≤ z)
  have hb' : (z : Rat) / 8 ≤ (b : Rat) := by
    rw [div_le_iff₀ (by norm_num)]
    exact_mod_cast (by omega : z ≤ b * 8)
  have := le_roundEven ha'
  have := roundEven_le hb'
  rw [double_large hlo hhi]
  omega

/-! ## The bytes of a number -/

variable {lp : LuaPack}

/-- The bytes of a number go behind `valStr`, and the last of them is not zero. -/
theorem byteLoop_spec (h : lp.Documented) (val : Nat) (hpos : 0 < val) (valStr : Bytes) (lsb : Nat) :
    ∃ b bs, byteLoop lp val valStr lsb = (valStr ++ (b :: bs).reverse, b.toNat) ∧ 0 < b.toNat ∧
      Der.natValue (b :: bs) = val := by
  induction val using Nat.strongRecOn generalizing valStr lsb with
  | ind val ih =>
    have hmod : val % 256 < 256 := mod_lt val (by decide)
    have hbyte : (ofNat (val % 256)).toNat = val % 256 := UInt8.toNat_ofNat_of_lt' hmod
    rw [byteLoop, if_pos hpos, h.packByte _ hmod]
    by_cases hlast : val / 256 = 0
    · rw [hlast, byteLoop, if_neg (Nat.lt_irrefl 0)]
      refine ⟨ofNat (val % 256), [], by rw [hbyte]; rfl, ?_, ?_⟩
      · omega
      · rw [Der.natValue, Der.natValue, hbyte]
        simp
        omega
    · obtain ⟨b, bs, hloop, hb, hval⟩ := ih (val / 256) (Nat.div_lt_self hpos (by decide)) (Nat.pos_of_ne_zero hlast)
        (valStr ++ [ofNat (val % 256)]) (val % 256)
      refine ⟨b, bs ++ [ofNat (val % 256)], ?_, hb, ?_⟩
      · rw [hloop]
        simp
      · rw [← cons_append, Der.natValue_append, hval, length_singleton, Der.natValue, Der.natValue, hbyte]
        simp
        omega

/-- What `encodeInt` is to write for a number. -/
def IntForm (lp : LuaPack) (val : Int) : Prop :=
  ∃ c, encodeInt lp val = .ok c ∧ Der.intValue c = val ∧ (Der.negative c = true ↔ val < 0)

theorem encodeInt_zero (h : lp.Documented) : encodeInt lp 0 = .ok [0] := by
  rw [encodeInt, if_neg (by decide), if_neg (by decide), h.packNull]

theorem encodeInt_pos (h : lp.Documented) (hpos : 0 < val) :
    ∃ c, encodeInt lp val = .ok c ∧ c ≠ [] ∧ Der.natValue c = val.toNat ∧ Der.negative c = false ∧
      256 ^ c.length ≤ 65536 * val.toNat := by
  obtain ⟨b, bs, hloop, hb, hval⟩ := byteLoop_spec h val.toNat (by omega) [] 0
  have hlen := Der.le_natValue hb bs
  rw [hval] at hlen
  rw [encodeInt, if_pos hpos, hloop, nil_append]
  by_cases hhigh : b.toNat > 127
  · refine ⟨0 :: b :: bs, ?_, cons_ne_nil _ _, ?_, rfl, ?_⟩
    · simp only [hhigh, if_true, reverse_append, reverse_reverse]
      rfl
    · rw [Der.natValue_zero, hval]
    · simp only [length_cons, Nat.pow_succ]
      omega
  · refine ⟨b :: bs, ?_, cons_ne_nil _ _, hval, decide_eq_false (by omega), ?_⟩
    · simp only [hhigh, if_false, reverse_reverse]
    · simp only [length_cons, Nat.pow_succ]
      omega

/-! ## Negative numbers -/

/-- The loop leaves a negative number of at most six bytes where 256 to their number makes it at least
128, and one that needs more with seven bytes. -/
theorem growLoop_spec (hneg : val < 0) (hval : -2 ^ 53 < val) (i fuel : Nat) (hi : i ≤ 6) (hfuel : 8 ≤ fuel + i) :
    (∃ w, i ≤ w ∧ w ≤ 6 ∧ 128 - 256 ^ w ≤ val ∧ (∀ j, i ≤ j → j < w → val < 128 - 256 ^ j) ∧
        growLoop fuel i (val + 256 ^ i) = some (val + 256 ^ w)) ∨
      val < 128 - 256 ^ 6 ∧ growLoop fuel i (val + 256 ^ i) = some (double (val + 256 ^ 7)) := by
  obtain ⟨k, hk⟩ : ∃ k, i + k = 6 := ⟨6 - i, by omega⟩
  induction k generalizing i fuel with
  | zero =>
    obtain rfl : i = 6 := hk
    obtain ⟨fuel, rfl⟩ : ∃ n, fuel = n + 2 := ⟨fuel - 2, by omega⟩
    by_cases hstop : val + 256 ^ 6 ≤ 127
    · have hnext : val + 256 ^ 6 + 256 ^ 6 * 255 = val + 256 ^ 7 := by ring
      have hlarge : ¬ double (val + 256 ^ 7) ≤ 127 := by
        have := (double_between (a := 7 * 2 ^ 50) (b := 2 ^ 53) (show 2 ^ 55 ≤ val + 256 ^ 7 by omega)
          (by omega) (by omega) (by omega)).1
        omega
      refine .inr ⟨by omega, ?_⟩
      rw [growLoop, if_pos hstop, hnext, growLoop, if_neg hlarge]
    · exact .inl ⟨6, Nat.le_refl _, Nat.le_refl _, by omega, fun j _ _ => by omega, by rw [growLoop, if_neg hstop]⟩
  | succ k ih =>
    obtain ⟨fuel, rfl⟩ : ∃ n, fuel = n + 1 := ⟨fuel - 1, by omega⟩
    have hpow : (256 : Int) ^ (i + 1) ≤ 256 ^ 6 := pow_le_pow_right₀ (by norm_num) (by omega)
    have hpos : (0 : Int) < 256 ^ (i + 1) := by positivity
    by_cases hstop : val + 256 ^ i ≤ 127
    · have hnext : val + 256 ^ i + 256 ^ i * 255 = val + 256 ^ (i + 1) := by ring
      have hdouble : double (val + 256 ^ (i + 1)) = val + 256 ^ (i + 1) := double_of_lt (by omega)
      rw [growLoop, if_pos hstop, hnext, hdouble]
      rcases ih (i + 1) fuel (by omega) (by omega) (by omega) with
        ⟨w, hw, hlast, hle, hleast, hloop⟩ | hrest
      · refine .inl ⟨w, by omega, hlast, hle, fun j hj hjw => ?_, hloop⟩
        rcases hj.eq_or_lt with rfl | hj
        · omega
        · exact hleast j hj hjw
      · exact .inr hrest
    · exact .inl ⟨i, Nat.le_refl _, by omega, by omega, fun j _ _ => by omega, by rw [growLoop, if_neg hstop]⟩

/-- A negative number does not end in fewer bytes than its sign needs, and none of it is rounded off. -/
def Negates (val : Int) : Prop :=
  (∀ w : Nat, 2 ≤ w → 128 - 256 ^ w ≤ val → -256 ^ w ≤ 2 * val) ∧ (val < 128 - 256 ^ 6 → 8 ∣ val)

/-- Bytes that hold a double, the number as well as what it is in two's complement. -/
structure Exact (c : Bytes) : Prop where
  ne_nil : c ≠ []
  short : c.length < 128
  small : Der.natValue c < 2 ^ 64
  nat : double (Der.natValue c) = Der.natValue c
  int : double (Der.intValue c) = Der.intValue c

variable {bs c : Bytes}

theorem length_le_of_natValue {b : UInt8} (hb : 0 < b.toNat) {w : Nat}
    (h : Der.natValue (b :: bs) < 256 ^ w) : (b :: bs).length ≤ w := by
  have hlt : 256 ^ bs.length < 256 ^ w := Nat.lt_of_le_of_lt (Der.le_natValue hb bs) h
  exact (Nat.pow_lt_pow_iff_right (by decide)).mp hlt

/-- The bytes of `val + 256 ^ w` stand for `val` as long as the sign is set. -/
theorem intValue_grown {w : Nat} {b : UInt8} (hb : 0 < b.toNat) (hneg : val < 0)
    (hval : (Der.natValue (b :: bs) : Int) = val + 256 ^ w) :
    (b :: bs).length ≤ w ∧ (Der.intValue (b :: bs) = val ↔ -256 ^ w ≤ 2 * val) := by
  have hbelow : (Der.natValue (b :: bs) : Int) < 256 ^ w := by omega
  have hlen : (b :: bs).length ≤ w := length_le_of_natValue hb (by exact_mod_cast hbelow)
  have hlt := Der.natValue_lt (b :: bs)
  have hsign := Der.negative_iff b bs
  refine ⟨hlen, ?_⟩
  rcases hlen.eq_or_lt with heq | hless
  · rw [heq] at hsign hlt
    have hsign' : Der.negative (b :: bs) = true ↔ -256 ^ w ≤ 2 * val := by
      rw [hsign, ← Int.ofNat_le]
      push_cast
      omega
    rw [← hsign']
    cases hset : Der.negative (b :: bs) with
    | true =>
      rw [Der.intValue_of_negative hset, heq]
      exact ⟨fun _ => rfl, fun _ => by omega⟩
    | false =>
      rw [Der.intValue_of_not_negative hset]
      exact ⟨fun h => by omega, fun h => by cases h⟩
  · -- with fewer bytes the number is below the half, and what it stands for is another one
    have hpow : 256 ^ (b :: bs).length * 256 ≤ 256 ^ w := by
      rw [← Nat.pow_succ]
      exact Nat.pow_le_pow_right (by decide) hless
    have hlow : ¬ -256 ^ w ≤ 2 * val := by
      have hsmall : 2 * Der.natValue (b :: bs) < 256 ^ w := by omega
      have hsmall' : 2 * (Der.natValue (b :: bs) : Int) < 256 ^ w := by exact_mod_cast hsmall
      omega
    have hpow' : (256 : Int) ^ (b :: bs).length < 256 ^ w := by
      exact_mod_cast (by omega : 256 ^ (b :: bs).length < 256 ^ w)
    refine ⟨fun h => ?_, fun h => absurd h hlow⟩
    cases hset : Der.negative (b :: bs) with
    | true =>
      rw [Der.intValue_of_negative hset] at h
      omega
    | false =>
      rw [Der.intValue_of_not_negative hset] at h
      omega

theorem encodeInt_neg (h : lp.Documented) {t : Int} (hneg : val < 0) (hloop : growLoop 128 1 (double (val + 256)) = some t)
    (ht : 0 < t) :
    ∃ b bs, encodeInt lp val = .ok (b :: bs) ∧ 0 < b.toNat ∧ (Der.natValue (b :: bs) : Int) = t := by
  obtain ⟨b, bs, hbytes, hb, hval⟩ := byteLoop_spec h t.toNat (by omega) [] 0
  refine ⟨b, bs, ?_, hb, by omega⟩
  rw [encodeInt, if_neg (by omega), if_pos hneg, hloop]
  dsimp only
  rw [hbytes, nil_append, reverse_reverse]

/-- A number of less than 54 bits has bytes, and they stand for it unless it is one of the negative
numbers that go wrong. -/
theorem encodeInt_spec (h : lp.Documented) (hval : val.natAbs < 2 ^ 53) :
    ∃ c, encodeInt lp val = .ok c ∧ Exact c ∧ (Der.intValue c = val ↔ Negates val) := by
  have hpowers (w : Nat) : (0 : Int) < 256 ^ w := by positivity
  rcases Int.lt_trichotomy val 0 with hneg | rfl | hpos
  · have hstart : double (val + 256) = val + 256 ^ 1 := double_of_lt (by omega)
    rcases growLoop_spec hneg (by omega) 1 128 (by decide) (by decide) with
      ⟨w, hw, hlast, hle, hleast, hloop⟩ | ⟨hlarge, hloop⟩
    · rw [← hstart] at hloop
      obtain ⟨b, bs, hbytes, hb, hnat⟩ := encodeInt_neg h hneg hloop (by omega)
      obtain ⟨hlen, hint⟩ := intValue_grown hb hneg hnat
      have hpow : (256 : Int) ^ w ≤ 256 ^ 6 := pow_le_pow_right₀ (by norm_num) hlast
      have hbound : Der.natValue (b :: bs) < 2 ^ 48 := by omega
      have hlow : (256 : Int) ^ (b :: bs).length ≤ 256 ^ 6 := pow_le_pow_right₀ (by norm_num) (by omega)
      have hdoubles : double (Der.intValue (b :: bs)) = Der.intValue (b :: bs) := by
        have := hpowers (b :: bs).length
        refine double_of_lt ?_
        rw [Der.intValue]
        split <;> omega
      refine ⟨_, hbytes, ⟨cons_ne_nil _ _, by omega, by omega, double_of_lt (by omega), hdoubles⟩, hint.trans ?_⟩
      constructor
      · intro hhalf
        refine ⟨fun j hj hle' => ?_, fun hfar => by omega⟩
        have hwj : w ≤ j := Nat.not_lt.mp fun hjw => absurd hle' (by have := hleast j (by omega) hjw; omega)
        have := pow_le_pow_right₀ (show (1 : Int) ≤ 256 by norm_num) hwj
        omega
      · intro hnegates
        by_cases hw' : w = 1
        · subst hw'
          omega
        · exact hnegates.1 w (by omega) hle
    · rw [← hstart] at hloop
      have hlo : 2 ^ 55 ≤ val + 256 ^ 7 := by omega
      have hhi : val + 256 ^ 7 < 2 ^ 56 := by omega
      have hround := double_between (a := 7 * 2 ^ 50) (b := 2 ^ 53 - 2 ^ 45 + 16) hlo hhi (by omega) (by omega)
      obtain ⟨b, bs, hbytes, hb, hnat⟩ := encodeInt_neg h hneg hloop (by omega)
      have hdvd := dvd_double hlo hhi
      -- the number that is rounded has seven bytes too, and its sign is set
      have hlen : (b :: bs).length = 7 := by
        have hle : (b :: bs).length ≤ 7 := length_le_of_natValue hb (by omega)
        have hlt := Der.natValue_lt (b :: bs)
        by_contra hne
        have hpow : 256 ^ (b :: bs).length ≤ 256 ^ 6 := Nat.pow_le_pow_right (by decide) (by omega)
        omega
      have hsign : Der.negative (b :: bs) = true := by
        rw [Der.negative_iff, hlen]
        omega
      have hint : Der.intValue (b :: bs) = double (val + 256 ^ 7) - 256 ^ 7 := by
        rw [Der.intValue_of_negative hsign, hlen, hnat]
      refine ⟨_, hbytes, ⟨cons_ne_nil _ _, by omega, by omega, ?_, ?_⟩, ?_⟩
      · rw [hnat]
        exact double_of_dvd (by omega) (by omega) hdvd
      · rw [hint]
        by_cases hlimit : double (val + 256 ^ 7) - 256 ^ 7 = -2 ^ 53
        · rw [hlimit, double_limit]
        · exact double_of_lt (by omega)
      · rw [hint]
        constructor
        · intro heq
          refine ⟨fun w hw hle => ?_, fun _ => by omega⟩
          have hw' : 7 ≤ w := by
            by_contra hsmall
            have := pow_le_pow_right₀ (show (1 : Int) ≤ 256 by norm_num) (show w ≤ 6 by omega)
            omega
          have := pow_le_pow_right₀ (show (1 : Int) ≤ 256 by norm_num) hw'
          omega
        · intro hnegates
          have hmul := hnegates.2 hlarge
          rw [double_of_dvd hlo hhi (by omega)]
          omega
  · refine ⟨[0], encodeInt_zero h, ⟨cons_ne_nil _ _, by decide, by decide, double_of_lt (by decide),
      double_of_lt (by decide)⟩, fun _ => ⟨fun w _ _ => ?_, fun hfar => by omega⟩, fun _ => by decide⟩
    have := hpowers w
    omega
  · obtain ⟨c, hbytes, hne, hnat, hsign, hlen⟩ := encodeInt_pos h hpos
    have hshort : c.length < 128 := by
      by_contra hlong
      have : 256 ^ 128 ≤ 256 ^ c.length := Nat.pow_le_pow_right (by decide) (by omega)
      omega
    have hint : Der.intValue c = val := by
      rw [Der.intValue_of_not_negative hsign]
      omega
    refine ⟨c, hbytes, ⟨hne, hshort, by omega, double_of_lt (by omega), ?_⟩, fun _ => ⟨fun w _ _ => ?_, fun _ => by omega⟩,
      fun _ => hint⟩
    · rw [hint]
      exact double_of_lt hval
    · have := hpowers w
      omega

/-! ## Hexadecimal text -/

theorem hexValue_upperDigit {n : Nat} (h : n < 16) : hexValue (upperDigit n) = some n := by
  have hall : ∀ n : Fin 16, hexValue (upperDigit n) = some n.1 := by decide
  exact hall ⟨n, h⟩

theorem hexText_cons (b : UInt8) (bs : Bytes) :
    hexText (b :: bs) = upperDigit (b.toNat / 16) :: upperDigit (b.toNat % 16) :: hexText bs := rfl

theorem hexDigits_hexText (n : Nat) (bs : Bytes) :
    hexDigits n (hexText bs) = (n * 256 ^ bs.length + Der.natValue bs, []) := by
  induction bs generalizing n with
  | nil => simp [hexText, hexDigits, Der.natValue]
  | cons b bs ih =>
    have hhi : b.toNat / 16 < 16 := Nat.div_lt_of_lt_mul b.toNat_lt
    have hlo : b.toNat % 16 < 16 := mod_lt _ (by decide)
    have hbyte : (n * 16 + b.toNat / 16) * 16 + b.toNat % 16 = n * 256 + b.toNat := by omega
    rw [hexText_cons, hexDigits, hexValue_upperDigit hhi]
    dsimp only
    rw [hexDigits, hexValue_upperDigit hlo]
    dsimp only
    rw [hbyte, ih, Der.natValue, length_cons, Nat.pow_succ]
    exact congrArg (·, []) (by ring)

theorem strtoul16_hexText (b : UInt8) (bs : Bytes) : strtoul16 (hexText (b :: bs)) = some (Der.natValue (b :: bs), []) := by
  have hhi : b.toNat / 16 < 16 := Nat.div_lt_of_lt_mul b.toNat_lt
  have hlo : b.toNat % 16 < 16 := mod_lt _ (by decide)
  have hfirst := hexValue_upperDigit hhi
  have hsecond := hexValue_upperDigit hlo
  obtain ⟨hspace, hminus, hplus, -, -⟩ := digit_plain _ (Option.isSome_of_eq_some hfirst)
  have hx : upperDigit (b.toNat % 16) ≠ 'x'.toUInt8 ∧ upperDigit (b.toNat % 16) ≠ 'X'.toUInt8 := by
    constructor
    all_goals
      intro hx
      rw [hx] at hsecond
      cases hsecond
  have hvalue := hexDigits_hexText 0 (b :: bs)
  rw [Nat.zero_mul, Nat.zero_add, hexText_cons] at hvalue
  have hmark : skipMark (upperDigit (b.toNat / 16) :: upperDigit (b.toNat % 16) :: hexText bs) =
      upperDigit (b.toNat / 16) :: upperDigit (b.toNat % 16) :: hexText bs := by
    cases hexText bs with
    | nil => rfl
    | cons d cs => rw [skipMark, if_neg fun h => h.2.1.elim hx.1 hx.2]
  rw [hexText_cons, strtoul16]
  simp [hspace, hminus, hplus, hmark, hfirst, hvalue]

theorem tonumber16_hexText (hc : c ≠ []) :
    tonumber16 (hexText c) = some (double (min (Der.natValue c) (2 ^ 64 - 1) : Nat)) := by
  obtain ⟨b, bs, rfl⟩ := exists_cons_of_ne_nil hc
  rw [tonumber16, strtoul16_hexText]

/-- A number that is a double, and its negative too, is read from its contents octets. -/
theorem decodeInt_spec (h : lp.Documented) (encStr : Bytes) (pos : Nat) (hpos : 0 < pos)
    (hend : pos + c.length ≤ encStr.length + 1) (hc : slice encStr pos c.length = c) (hne : c ≠ [])
    (hsmall : Der.natValue c < 2 ^ 64) (hnat : double (Der.natValue c) = Der.natValue c)
    (hint : double (Der.intValue c) = Der.intValue c) :
    decodeInt lp encStr c.length pos = .ok (pos + c.length, Der.intValue c) := by
  have hmin : min (Der.natValue c) (2 ^ 64 - 1) = Der.natValue c := Nat.min_eq_left (by omega)
  rw [decodeInt, h.unpackHex _ _ _ hpos hend, hc]
  simp only [Option.bind_some, tonumber16_hexText hne, hmin, hnat]
  obtain ⟨b, bs, rfl⟩ := exists_cons_of_ne_nil hne
  cases hsign : Der.negative (b :: bs) with
  | true =>
    have hle := (Der.negative_iff b bs).mp hsign
    rw [Der.intValue_of_negative hsign] at hint ⊢
    rw [if_pos (by exact_mod_cast hle), hint]
  | false =>
    have hlt : ¬ 256 ^ (b :: bs).length ≤ 2 * Der.natValue (b :: bs) := fun hle => by
      rw [(Der.negative_iff b bs).mpr hle] at hsign
      cases hsign
    rw [Der.intValue_of_not_negative hsign, if_neg (by exact_mod_cast hlt)]

/-! ## The round trip -/

/-- What has been encoded is decoded as the same value, up to its end. -/
def RoundTrip (lp : LuaPack) (v : Value) : Prop :=
  ∃ enc, encode lp v = .ok enc ∧ decode lp enc 1 = .ok (enc.length + 1, some v)

/-- A number has its form in two's complement besides. -/
def Right (lp : LuaPack) : Value → Prop
  | .num val => IntForm lp val ∧ RoundTrip lp (.num val)
  | v => RoundTrip lp v

/-- The values a double holds exactly, the booleans and the strings. -/
def Covered : Value → Prop
  | .num val => val.natAbs < 2 ^ 53
  | .null => False
  | _ => True

def Careful : Value → Prop
  | .num val => Negates val
  | .str val => val.length < 128
  | _ => False

theorem slice_tlv (tag : UInt8) (c : Bytes) : slice (Der.tlv tag c) 3 c.length = c := take_length

/-- The tag and the length of an encoding. -/
theorem decode_tlv (h : lp.Documented) (tag : UInt8) (hc : c.length < 128) :
    lp.unpackHex 1 (Der.tlv tag c) 1 = (2, some (hexText [tag])) ∧
      decodeLength lp (Der.tlv tag c) 2 = .ok (3, c.length) := by
  have hlen : (ofNat c.length).toNat = c.length := UInt8.toNat_ofNat_of_lt' (Nat.lt_trans hc (by decide))
  constructor
  · exact h.unpackHex 1 _ 1 (by decide) (by simp [Der.tlv])
  · have hbyte := h.unpackByte (Der.tlv tag c) 2 (ofNat c.length) (by decide) rfl
    rw [decodeLength, hbyte, hlen]
    dsimp only
    rw [if_neg (by omega)]

theorem encode_num (h : lp.Documented) (hint : encodeInt lp val = .ok c) (hc : c.length < 128) :
    encode lp (.num val) = .ok (Der.tlv 2 c) := by
  rw [encode, hint, h.packHex _ ⟨by decide, by decide +kernel⟩]
  simp only [bind, Except.bind, encodeLength, if_pos hc]
  rfl

theorem decode_num (h : lp.Documented) (hc : Exact c) :
    decode lp (Der.tlv 2 c) 1 = .ok (c.length + 3, some (.num (Der.intValue c))) := by
  obtain ⟨htag, hlen⟩ := decode_tlv h 2 hc.short
  have hint := decodeInt_spec h (Der.tlv 2 c) 3 (by decide) (by simp [Der.tlv]; omega)
    (slice_tlv 2 c) hc.ne_nil hc.small hc.nat hc.int
  rw [decode, htag]
  simp only [hlen, bind, Except.bind]
  rw [if_pos (.inl (by decide)), hint, Nat.add_comm]
  rfl

theorem right_num_iff (h : lp.Documented) (hval : val.natAbs < 2 ^ 53) : Right lp (.num val) ↔ Negates val := by
  obtain ⟨c, hbytes, hexact, hiff⟩ := encodeInt_spec h hval
  have hencode := encode_num h hbytes hexact.short
  have hdecode := decode_num h hexact
  rw [← hiff]
  constructor
  · rintro ⟨⟨c', hbytes', hint, -⟩, -⟩
    rw [hbytes] at hbytes'
    cases hbytes'
    exact hint
  · intro hint
    refine ⟨⟨c, hbytes, hint, ?_⟩, _, hencode, ?_⟩
    · have hlt := Der.natValue_lt c
      have hlt' : (Der.natValue c : Int) < 256 ^ c.length := by exact_mod_cast hlt
      cases hsign : Der.negative c with
      | true =>
        rw [Der.intValue_of_negative hsign] at hint
        exact ⟨fun _ => by omega, fun _ => rfl⟩
      | false =>
        rw [Der.intValue_of_not_negative hsign] at hint
        exact ⟨fun h => (by cases h), fun _ => by omega⟩
    · rw [hdecode, hint]
      simp [Der.tlv]

theorem encode_str (h : lp.Documented) {val : Bytes} (hlen : val.length < 128) :
    encode lp (.str val) = .ok (Der.tlv 4 val) := by
  rw [encode, h.packHex _ ⟨by decide, by decide +kernel⟩]
  simp only [bind, Except.bind, encodeLength, if_pos hlen]
  rfl

theorem right_str_iff (h : lp.Documented) (val : Bytes) : Right lp (.str val) ↔ val.length < 128 := by
  constructor
  · rintro ⟨enc, henc, -⟩
    by_contra hlong
    rw [encode] at henc
    simp only [bind, Except.bind, encodeLength, if_neg hlong] at henc
    cases henc
  · intro hlen
    obtain ⟨htag, hlength⟩ := decode_tlv h 4 hlen
    have hstr := h.unpackStr val.length (Der.tlv 4 val) 3 (by decide) (by simp [Der.tlv]; omega)
    rw [slice_tlv] at hstr
    refine ⟨_, encode_str h hlen, ?_⟩
    rw [decode, htag]
    simp only [hlength, bind, Except.bind]
    rw [if_neg (by decide), if_pos (.inl (by decide))]
    change Except.ok ((lp.unpackStr val.length (Der.tlv 4 val) 3).1,
      (lp.unpackStr val.length (Der.tlv 4 val) 3).2.map Value.str) = _
    rw [hstr, Nat.add_comm]
    rfl

/-- A boolean is read as `true`, at the position of its contents. -/
theorem not_right_bool (h : lp.Documented) (b : Bool) : ¬ Right lp (.bool b) := by
  rintro ⟨enc, henc, hdec⟩
  obtain ⟨c, rfl⟩ : ∃ c : UInt8, enc = Der.tlv 1 [c] := by
    cases b with
    | true =>
      rw [encode, h.packHex _ ⟨by decide, by decide +kernel⟩] at henc
      cases henc
      exact ⟨255, by decide⟩
    | false =>
      rw [encode, h.packHex _ ⟨by decide, by decide +kernel⟩] at henc
      cases henc
      exact ⟨0, by decide⟩
  obtain ⟨htag, hlength⟩ := decode_tlv h 1 (c := [c]) (by decide : 1 < 128)
  rw [decode, htag] at hdec
  simp only [hlength, bind, Except.bind] at hdec
  rw [if_neg (by decide), if_neg (by decide), if_pos (by decide)] at hdec
  simp [decodeBool, pure, Except.pure, Der.tlv] at hdec

/-- **What is encoded is decoded again, apart from the booleans, the long strings and some of the
negative numbers.** -/
theorem asn1_right_iff (h : lp.Documented) (v : Value) (hv : Covered v) : Right lp v ↔ Careful v := by
  cases v with
  | num val => exact right_num_iff h hv
  | bool b => exact iff_of_false (not_right_bool h b) id
  | str val => exact right_str_iff h val
  | null => exact hv.elim

/-! ## On given values -/

/-- The formats, as they are documented. -/
def luaPack : LuaPack where
  packHex s := hexBytes (s.filter (· ≠ ' '.toUInt8))
  packByte n := [ofNat n]
  packNull := [0]
  unpackHex n s pos := (pos + n, some (hexText (slice s pos n)))
  unpackByte s pos := (pos + 1, (slice s pos 1).head?.map UInt8.toNat)
  unpackStr n s pos := (pos + n, some (slice s pos n))

theorem luaPack_documented : luaPack.Documented where
  packHex _ _ := rfl
  packByte _ _ := rfl
  packNull := rfl
  unpackHex _ _ _ _ _ := rfl
  unpackByte s pos b _ h := by
    show (pos + 1, (slice s pos 1).head?.map UInt8.toNat) = _
    rw [h]
    rfl
  unpackStr _ _ _ _ _ := rfl

/-- The first number that goes wrong: two bytes, as if it had no sign. -/
theorem right_iff_twoBytes : Covered (.num (-32769)) ∧ (Right luaPack (.num (-32769)) ↔ Careful (.num (-32769))) :=
  have hcovered : Covered (.num (-32769)) := (by decide : (-32769 : Int).natAbs < 2 ^ 53)
  ⟨hcovered, asn1_right_iff luaPack_documented (.num (-32769)) hcovered⟩

/-- `false` is read as `true`. -/
theorem not_right_false : ¬ Right luaPack (.bool false) := by
  rintro ⟨enc, henc, hdec⟩
  cases henc
  revert hdec
  decide

end OpenResty.Kong.Asn1
