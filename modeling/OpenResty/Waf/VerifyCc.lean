/-
`verify_cc`: the loop, which picks the doubled places by a parity taken from the left, computes
the Luhn checksum.
-/
import OpenResty.Waf.OperatorLaw
import OpenResty.Lib.Luhn

namespace OpenResty.Waf

open Lua Lib List

/-! ## The sum -/

/-- The loop from the position `k` on: a place is doubled if an odd number of digits follows. -/
theorem luhnSum_from {digits : List Nat} (hdigits : ∀ d ∈ digits, d < 10) (k : Nat) :
    (digits.mapIdx fun count digit =>
      let digit := if ((count + k) % 2) ^^^ ((k + digits.length) % 2) = 0 then digit * 2 else digit
      if digit > 9 then digit - 9 else digit).sum = luhn digits := by
  induction digits generalizing k with
  | nil => rfl
  | cons d ds ih =>
    have hd : d < 10 := hdigits d mem_cons_self
    have hlength : k + (d :: ds).length = k + 1 + ds.length := by
      rw [length_cons]
      omega
    have hshift : ∀ count, count + 1 + k = count + (k + 1) := fun count => by omega
    have hplace : (0 + k) % 2 ^^^ (k + 1 + ds.length) % 2 = 0 ↔ ds.length % 2 = 1 := by
      have hxor : ∀ a < 2, ∀ b < 2, (a ^^^ b = 0 ↔ a = b) := by decide
      rw [hxor _ (Nat.mod_lt _ Nat.two_pos) _ (Nat.mod_lt _ Nat.two_pos)]
      omega
    rw [mapIdx_cons, sum_cons, luhn_cons, hlength]
    simp only [hshift]
    rw [ih (fun d' hd' => hdigits d' (mem_cons_of_mem _ hd')) (k + 1)]
    simp only [hplace, luhnDouble, gt_iff_lt]
    congr 1
    split
    · rfl
    · exact if_neg (by omega)

theorem luhnSum_eq {digits : List Nat} (hdigits : ∀ d ∈ digits, d < 10) : luhnSum digits = luhn digits := by
  have h := luhnSum_from hdigits 0
  rw [Nat.zero_add] at h
  exact h

/-! ## The operator -/

/-- The digits of a text. -/
def digitsOf (input : Scalar) : List Char := input.tostring.toList.filter Char.isDigit

def digitValue (c : Char) : Nat := c.toNat - '0'.toNat

/-- What is left of a text is a number with the right check digit. -/
def LuhnValid (input : Scalar) : Prop := luhn ((digitsOf input).map digitValue) % 10 = 0

instance (input : Scalar) : Decidable (LuhnValid input) := inferInstanceAs (Decidable (_ = _))

variable (env : OpEnv) (pattern : Option Val)

/-- The rule's expression matches. -/
def CardMatched (input : Scalar) : Prop := Accepts (refindScalar env pattern) input

/-- The operator accepts. -/
def CardAccepted (input : Val) : Prop := ∃ value, verifyCc env input pattern = .ok (true, value)

variable {env pattern}

theorem digitValue_lt {c : Char} (h : c.isDigit = true) : digitValue c < 10 := by
  simp only [Char.isDigit, Bool.and_eq_true, decide_eq_true_eq] at h
  have hle : c.toNat ≤ '9'.toNat := h.2
  have hnine : '9'.toNat = 57 := rfl
  have hzero : '0'.toNat = 48 := rfl
  unfold digitValue
  omega

theorem digitValue_inj {c c' : Char} (h : c.isDigit = true) (h' : c'.isDigit = true)
    (heq : digitValue c = digitValue c') : c = c' := by
  simp only [Char.isDigit, Bool.and_eq_true, decide_eq_true_eq] at h h'
  have hle : '0'.toNat ≤ c.toNat := h.1
  have hle' : '0'.toNat ≤ c'.toNat := h'.1
  unfold digitValue at heq
  exact Char.toNat_inj.mp (by omega)

theorem digitsOf_lt (input : Scalar) : ∀ d ∈ (digitsOf input).map digitValue, d < 10 := by
  intro d hd
  obtain ⟨c, hc, rfl⟩ := mem_map.mp hd
  exact digitValue_lt (mem_filter.mp hc).2

/-- What the operator says of a text: without a match nothing, else what the checksum says. -/
theorem verifyCcScalar_eq {input : Scalar} {found : Found} (h : refindScalar env pattern input = .ok found) :
    verifyCcScalar env pattern input = .ok
      (if found.1 = true ∧ LuhnValid input then (true, some (.leaf (.str (String.ofList (digitsOf input)))))
        else (false, none)) := by
  obtain ⟨matched, value⟩ := found
  unfold verifyCcScalar
  rw [h]
  cases matched with
  | false => rfl
  | true =>
    have hsum := luhnSum_eq (digitsOf_lt input)
    simp only [bind, Except.bind, pure, Except.pure, Bool.not_true, Bool.false_eq_true, if_false, true_and, LuhnValid,
      ← hsum]
    by_cases hzero : luhnSum ((digitsOf input).map digitValue) % 10 = 0
    · rw [if_pos hzero]
      exact if_pos hzero
    · rw [if_neg hzero]
      exact if_neg hzero

theorem accepts_verifyCc {input : Scalar} :
    Accepts (verifyCcScalar env pattern) input ↔ CardMatched env pattern input ∧ LuhnValid input := by
  cases h : refindScalar env pattern input with
  | error e =>
    refine iff_of_false ?_ ?_
    · rintro ⟨value, hv⟩
      rw [verifyCcScalar, h] at hv
      cases hv
    · rintro ⟨⟨value, hv⟩, -⟩
      rw [h] at hv
      cases hv
  | ok found =>
    have hmatched : CardMatched env pattern input ↔ found.1 = true := by
      unfold CardMatched Accepts
      rw [h]
      constructor
      · rintro ⟨value, hv⟩
        cases hv
        rfl
      · intro hfound
        exact ⟨found.2, by rw [← hfound]⟩
    rw [hmatched]
    unfold Accepts
    rw [verifyCcScalar_eq h]
    split
    · next hboth => exact iff_of_true ⟨_, rfl⟩ hboth
    · next hnot =>
      refine iff_of_false ?_ hnot
      rintro ⟨value, hv⟩
      cases hv

/-- A table is accepted for one of its texts. -/
theorem cardAccepted_table {arr : List Val} {hash : List (Scalar × Val)}
    (hread : ∀ l ∈ leaves (.table arr hash), ∃ found, refindScalar env pattern l = .ok found) :
    CardAccepted env pattern (.table arr hash) ↔
      ∃ l ∈ leaves (.table arr hash), CardMatched env pattern l ∧ LuhnValid l := by
  have hclean : Clean (verifyCcScalar env pattern) (leaves (.table arr hash)) := by
    refine clean_iff.mpr fun pre a post hsplit _ => ?_
    obtain ⟨found, hfound⟩ := hread a (by rw [hsplit]; simp)
    exact ⟨_, verifyCcScalar_eq hfound⟩
  unfold CardAccepted verifyCc
  rw [overPairs_table, search_of_clean none hclean]
  simp only [← accepts_verifyCc]
  rw [← firstAccepted_isSome]
  cases firstAccepted (verifyCcScalar env pattern) (leaves (.table arr hash)) with
  | none =>
    refine iff_of_false ?_ (by simp)
    rintro ⟨value, hv⟩
    cases hv
  | some value => exact iff_of_true ⟨value, rfl⟩ rfl

theorem digitsOf_str {cs : List Char} (h : ∀ c ∈ cs, c.isDigit = true) : digitsOf (.str (String.ofList cs)) = cs := by
  unfold digitsOf Scalar.tostring
  rw [String.toList_ofList]
  exact filter_eq_self.mpr h

variable (env pattern) in
/-- **`verify_cc` accepts a text that is matched exactly if its digits have the right checksum,
a table exactly if it accepts one of its texts, and no two numbers that differ in one digit.** -/
theorem verify_cc_right :
    (∀ input, CardMatched env pattern input → (CardAccepted env pattern (.leaf input) ↔ LuhnValid input)) ∧
    (∀ arr hash, (∀ l ∈ leaves (.table arr hash), ∃ found, refindScalar env pattern l = .ok found) →
      (CardAccepted env pattern (.table arr hash) ↔
        ∃ l ∈ leaves (.table arr hash), CardMatched env pattern l ∧ LuhnValid l)) ∧
    ∀ (xs ys : List Char) (c c' : Char), (∀ d ∈ xs ++ c :: ys, d.isDigit = true) → c'.isDigit = true → c ≠ c' →
      ¬ (CardAccepted env pattern (.leaf (.str (String.ofList (xs ++ c :: ys)))) ∧
        CardAccepted env pattern (.leaf (.str (String.ofList (xs ++ c' :: ys))))) := by
  refine ⟨fun input hmatched => ?_, fun arr hash hread => cardAccepted_table hread, ?_⟩
  · exact accepts_verifyCc.trans (and_iff_right hmatched)
  · rintro xs ys c c' hdigits hc' hne ⟨haccepted, haccepted'⟩
    have hdigits' : ∀ d ∈ xs ++ c' :: ys, d.isDigit = true := by
      simp only [mem_append, mem_cons] at hdigits ⊢
      rintro d (hd | rfl | hd)
      · exact hdigits d (.inl hd)
      · exact hc'
      · exact hdigits d (.inr (.inr hd))
    have hc : c.isDigit = true := hdigits c (by simp)
    have hvalid := (accepts_verifyCc.mp haccepted).2
    have hvalid' := (accepts_verifyCc.mp haccepted').2
    unfold LuhnValid at hvalid hvalid'
    rw [digitsOf_str hdigits, map_append, map_cons] at hvalid
    rw [digitsOf_str hdigits', map_append, map_cons] at hvalid'
    have hvalue : digitValue c ≠ digitValue c' := fun heq => hne (digitValue_inj hc hc' heq)
    exact luhn_ne_of_change (digitValue_lt hc) (digitValue_lt hc') hvalue (hvalid.trans hvalid'.symm)

end OpenResty.Waf
