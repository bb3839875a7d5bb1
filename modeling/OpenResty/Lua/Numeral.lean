/-
The decimal text of a natural number, read back.
-/
import OpenResty.Lua.Value

namespace OpenResty.Lua

open List Nat

theorem digitsVal_append_singleton (base : Nat) (ds : List Nat) (d : Nat) :
    digitsVal base (ds ++ [d]) = digitsVal base ds * base + d := by
  simp [digitsVal, foldl_append]

theorem decDigit?_digitChar {d : Nat} (h : d < 10) : decDigit? d.digitChar = some d := by
  revert d
  decide

variable {cs : List Char} {c : Char}

theorem spanDigits_append {ds es : List Nat} {e : Nat} {rest : List Char}
    (h : spanDigits decDigit? cs = (ds, [])) (hc : decDigit? c = some e)
    (hrest : spanDigits decDigit? rest = (es, [])) :
    spanDigits decDigit? (cs ++ c :: rest) = (ds ++ e :: es, []) := by
  induction cs generalizing ds with
  | nil =>
    obtain rfl : ds = [] := by simpa [spanDigits] using h.symm
    simp [spanDigits, hc, hrest]
  | cons a cs ih =>
    simp only [spanDigits, cons_append] at h ⊢
    cases ha : decDigit? a with
    | none => simp [ha] at h
    | some d =>
      rw [ha] at h
      obtain ⟨hd, htail⟩ := Prod.mk.inj h
      subst hd
      rw [ih (Prod.ext rfl htail)]
      rfl

/-- The digits of a number span its text, and have its value. -/
theorem spanDigits_toDigits (n : Nat) :
    ∃ ds, spanDigits decDigit? (toDigits 10 n) = (ds, []) ∧ ds ≠ [] ∧ digitsVal 10 ds = n := by
  induction n using Nat.strongRecOn with
  | ind n ih =>
    by_cases h : n < 10
    · rw [toDigits_of_lt_base h]
      exact ⟨[n], by simp [spanDigits, decDigit?_digitChar h], by simp, by simp [digitsVal]⟩
    · obtain ⟨ds, hds, -, hval⟩ := ih (n / 10) (by omega)
      rw [toDigits_of_base_le (by decide) (by omega)]
      have hlast : n % 10 < 10 := mod_lt _ (by decide)
      refine ⟨ds ++ [n % 10], spanDigits_append hds (decDigit?_digitChar hlast) rfl, by simp, ?_⟩
      rw [digitsVal_append_singleton, hval]
      omega

theorem dropWhile_eq_self {α : Type} {p : α → Bool} {l : List α} (h : ∀ a ∈ l, p a = false) : l.dropWhile p = l := by
  cases l with
  | nil => rfl
  | cons a l => rw [dropWhile_cons_of_neg (by simp [h a])]

theorem isSpace_of_isDigit (h : c.isDigit = true) : isSpace c = false := by
  have hlow : '0'.toNat ≤ c.toNat := by
    simp only [Char.isDigit, Bool.and_eq_true, decide_eq_true_eq] at h
    exact h.1
  have hsmall : '0'.toNat = 48 ∧ ' '.toNat = 32 ∧ '\r'.toNat = 13 := by decide
  simp only [isSpace, Bool.or_eq_false_iff, beq_eq_false_iff_ne, Bool.and_eq_false_iff, decide_eq_false_iff_not]
  refine ⟨?_, .inr fun hc => ?_⟩
  · rintro rfl
    omega
  · have : c.toNat ≤ '\r'.toNat := hc
    omega

theorem trimSpace_eq_self (h : ∀ c ∈ cs, isSpace c = false) : trimSpace cs = cs := by
  unfold trimSpace
  rw [dropWhile_eq_self h, dropWhile_eq_self fun c hc => h c (mem_reverse.mp hc), reverse_reverse]

theorem trimSpace_of_isDigit (h : ∀ c ∈ cs, c.isDigit = true) : trimSpace cs = cs :=
  trimSpace_eq_self fun c hc => isSpace_of_isDigit (h c hc)

theorem unsigned?_of_spanDigits {ds : List Nat} (hdigit : ∀ c ∈ cs, c.isDigit = true)
    (h : spanDigits decDigit? cs = (ds, [])) (hne : ds ≠ []) : unsigned? cs = some (digitsVal 10 ds : Rat) := by
  unfold unsigned?
  split
  · exact absurd (hdigit 'x' (by simp)) (by decide)
  · exact absurd (hdigit 'X' (by simp)) (by decide)
  · simp [h, hne, exponent?]

/-- **The text of a natural number is its numeral.** -/
theorem tonumber_repr (n : Nat) : tonumber (toString n) = some (n : Rat) := by
  obtain ⟨ds, hds, hne, hval⟩ := spanDigits_toDigits n
  have hdigit : ∀ c ∈ toDigits 10 n, c.isDigit = true :=
    fun c hc => isDigit_of_mem_toDigits (by decide) (by decide) hc
  have hlist : (toString n).toList = toDigits 10 n := by simp [toString, Nat.repr]
  have hunsigned := unsigned?_of_spanDigits hdigit hds hne
  rw [hval] at hunsigned
  unfold tonumber
  rw [hlist, trimSpace_of_isDigit hdigit]
  split
  · next h => exact absurd (hdigit '-' (h ▸ mem_cons_self)) (by decide)
  · next h => exact absurd (hdigit '+' (h ▸ mem_cons_self)) (by decide)
  · exact hunsigned

/-- And the text of a negative number is its numeral. -/
theorem tonumber_neg (n : Nat) : tonumber ("-" ++ toString n) = some (-(n : Rat)) := by
  obtain ⟨ds, hds, hne, hval⟩ := spanDigits_toDigits n
  have hdigit : ∀ c ∈ toDigits 10 n, c.isDigit = true :=
    fun c hc => isDigit_of_mem_toDigits (by decide) (by decide) hc
  have hlist : ("-" ++ toString n).toList = '-' :: toDigits 10 n := by simp [toString, Nat.repr]
  have hspace : ∀ c ∈ '-' :: toDigits 10 n, isSpace c = false := by
    rintro c (_ | ⟨_, hc⟩)
    · decide
    · exact isSpace_of_isDigit (hdigit c hc)
  unfold tonumber
  rw [hlist, trimSpace_eq_self hspace]
  simp only [unsigned?_of_spanDigits hdigit hds hne, hval, Option.map_some]

theorem toString_natInj {m n : Nat} (h : toString m = toString n) : m = n := by
  have heq := tonumber_repr m
  rw [h, tonumber_repr n] at heq
  exact_mod_cast (Option.some.inj heq).symm

/-- The naturals that `%.14g` prints digit by digit. -/
theorem numToString_natCast {n : Nat} (h : n < 10 ^ 14) : numToString (n : Rat) = toString n := by
  have hden : ((n : Rat)).den = 1 := Rat.den_natCast n
  have hnum : ((n : Rat)).num = n := Rat.num_natCast n
  simp only [numToString, hden, hnum, Int.natAbs_natCast, h, and_self, if_true]
  rfl

/-! ## The characters of a numeral -/

theorem notMem_toString (hc : c.isDigit = false) (hminus : c ≠ '-') (i : Int) : c ∉ (toString i).toList := by
  have hnat : ∀ n : Nat, c ∉ (Nat.repr n).toList := by
    intro n hmem
    rw [toList_repr] at hmem
    rw [isDigit_of_mem_toDigits (by decide) (by decide) hmem] at hc
    cases hc
  cases i with
  | ofNat n => exact hnat n
  | negSucc n =>
    have : toString (Int.negSucc n) = "-" ++ Nat.repr (n + 1) := rfl
    rw [this, String.toList_append, mem_append, not_or]
    exact ⟨by simpa using hminus, hnat (n + 1)⟩

theorem mem_stripZeros {ds : List Char} (h : c ∈ stripZeros ds) : c ∈ ds := by
  rw [stripZeros, mem_reverse] at h
  exact mem_reverse.mp ((dropWhile_sublist _).subset h)

theorem notMem_point {int frac : List Char} (hdot : c ≠ '.') (hint : c ∉ int) (hfrac : c ∉ frac) :
    c ∉ point int frac := by
  unfold point
  split
  · exact hint
  · simp only [mem_append, mem_cons, not_or]
    exact ⟨hint, hdot, fun h => hfrac (mem_stripZeros h)⟩

/-- A numeral holds digits, signs, a point and an `e`. -/
theorem notMem_numToString (hc : c.isDigit = false) (hother : c ∉ ['-', '.', 'e', '+']) (q : Rat) :
    c ∉ (numToString q).toList := by
  simp only [mem_cons, not_mem_nil, or_false, not_or] at hother
  obtain ⟨hminus, hdot, he, hplus⟩ := hother
  have hint : ∀ i : Int, c ∉ (toString i).toList := notMem_toString hc hminus
  have hzero : c ≠ '0' := by
    rintro rfl
    exact absurd hc (by decide)
  have hlayout : ∀ m e, c ∉ layout14 m e := by
    intro m e
    have hx : c ∉ (toString e.natAbs).toList := hint e.natAbs
    unfold layout14
    simp only
    split
    · simp only [mem_append, not_or]
      refine ⟨⟨notMem_point hdot (fun h => hint m (mem_of_mem_take h)) fun h => hint m (mem_of_mem_drop h),
        ?_⟩, ?_⟩
      · split <;> simp [he, hminus, hplus]
      · split
        · exact fun h => (mem_cons.mp h).elim hzero hx
        · exact hx
    · split
      · refine notMem_point hdot (by simpa using hzero) fun h => ?_
        rcases mem_append.mp h with h | h
        · exact hzero (eq_of_mem_replicate h)
        · exact hint m h
      · exact notMem_point hdot (fun h => hint m (mem_of_mem_take h)) fun h => hint m (mem_of_mem_drop h)
  have hfmt : ∀ q, c ∉ (fmt14 q).toList := fun q => by simpa [fmt14] using hlayout _ _
  unfold numToString
  split
  · exact hint q.num
  · split
    · rw [String.toList_append, mem_append, not_or]
      exact ⟨by simpa using hminus, hfmt (-q)⟩
    · exact hfmt q

end OpenResty.Lua
