/-
`resty.waf.operators`: `str_match`, on texts of any bytes.

To read outside of the input or of the pattern is a fault, and so is a loop that goes on
for more turns than the input has bytes: what returns has done neither.
-/
import Mathlib.Algebra.Order.Ring.Nat
import OpenResty.Lib.Horspool

namespace OpenResty.Waf.StrMatch

open Lib.Horspool List Function

abbrev Bytes := List UInt8

inductive Fault
  | outside
  | endless
deriving DecidableEq, Repr

/-- What is returned: nothing at all, `false, nil`, or `true` and the input -/
inductive Returned
  | nothing
  | missed
  | found (input : Bytes)
deriving DecidableEq, Repr

/-- `s:sub(i, i)` -/
def sub (s : Bytes) (i : Nat) : Except Fault UInt8 :=
  match i with
  | 0 => .error .outside
  | i + 1 =>
    match s[i]? with
    | some c => .ok c
    | none => .error .outside

/-- One turn of the loop that fills the table -/
def charStep (pattern : Bytes) (char : UInt8 → Nat) (k : Nat) : Except Fault (UInt8 → Nat) := do
  return Function.update char (← sub pattern k) (pattern.length - k)

/-- `char`: `m` for every byte, then `m - k` for the bytes of the pattern but the last -/
def charTable (pattern : Bytes) : Except Fault (UInt8 → Nat) :=
  (range' 1 (pattern.length - 1)).foldlM (charStep pattern) fun _ => pattern.length

/-- The inner loop: the `j` that it stops at -/
def compare (input pattern : Bytes) : Nat → Nat → Except Fault Nat
  | _, 0 => .ok 0
  | i, j + 1 => do
    if (← sub input i) = (← sub pattern (j + 1)) then compare input pattern (i - 1) j
    else return j + 1

/-- The outer loop, with how many turns it may take -/
def search (input pattern : Bytes) (char : UInt8 → Nat) : Nat → Nat → Except Fault Returned
  | 0, _ => .error .endless
  | turns + 1, k =>
    if k ≤ input.length then do
      if (← compare input pattern k pattern.length) = 0 then return .found input
      search input pattern char turns (k + char (← sub input k))
    else .ok .missed

def str_match (input pattern : Bytes) : Except Fault Returned := do
  if pattern.length > input.length then return .nothing
  search input pattern (← charTable pattern) (input.length + 1) pattern.length

variable {input pattern : Bytes} {char : UInt8 → Nat} {i j k t : Nat}

theorem sub_eq (s : Bytes) (h : i < s.length) : sub s (i + 1) = .ok s[i] := by
  simp only [sub, getElem?_eq_getElem h]

/-! ## The table -/

/-- The table once `t` bytes of the pattern are in it. -/
structure Filled (pattern : Bytes) (t : Nat) (char : UInt8 → Nat) : Prop where
  le (c : UInt8) : char c ≤ pattern.length
  pos (c : UInt8) : pattern ≠ [] → 0 < char c
  next (c : UInt8) (i : Nat) : i < t → pattern[i]? = some c → char c ≤ pattern.length - (i + 1)

theorem Filled.nil : Filled pattern 0 fun _ => pattern.length where
  le _ := Nat.le_refl _
  pos _ := length_pos_iff.mpr
  next _ i hi := absurd hi (Nat.not_lt_zero i)

theorem Filled.step (h : Filled pattern t char) (ht : t + 1 < pattern.length) :
    ∃ char', charStep pattern char (t + 1) = .ok char' ∧ Filled pattern (t + 1) char' := by
  refine ⟨Function.update char pattern[t] (pattern.length - (t + 1)), ?_, ?_, ?_, ?_⟩
  · rw [charStep, sub_eq pattern (by omega)]
    rfl
  · intro c
    by_cases hc : c = pattern[t]
    · subst hc
      rw [update_self]
      omega
    · rw [update_of_ne hc]
      exact h.le c
  · intro c hne
    by_cases hc : c = pattern[t]
    · subst hc
      rw [update_self]
      omega
    · rw [update_of_ne hc]
      exact h.pos c hne
  · intro c i hi hget
    by_cases hc : c = pattern[t]
    · subst hc
      rw [update_self]
      omega
    · rw [update_of_ne hc]
      -- the byte at `t` is another one
      have hit : i ≠ t := by
        rintro rfl
        rw [getElem?_eq_getElem (by omega)] at hget
        exact hc (Option.some.inj hget).symm
      exact h.next c i (by omega) hget

theorem filled (pattern : Bytes) (ht : t ≤ pattern.length - 1) :
    ∃ char, (range' 1 t).foldlM (charStep pattern) (fun _ => pattern.length) = .ok char ∧ Filled pattern t char := by
  induction t with
  | zero => exact ⟨_, rfl, .nil⟩
  | succ t ih =>
    obtain ⟨char, hchar, hfilled⟩ := ih (by omega)
    obtain ⟨char', hstep, hfilled'⟩ := hfilled.step (by omega)
    refine ⟨char', ?_, hfilled'⟩
    rw [range'_concat, foldlM_append, hchar, Nat.one_mul, Nat.add_comm 1 t]
    exact (bind_pure _).trans hstep

theorem charTable_spec (pattern : Bytes) :
    ∃ char, charTable pattern = .ok char ∧ Skips pattern char ∧ (pattern ≠ [] → ∀ c, 0 < char c) := by
  obtain ⟨char, hchar, hfilled⟩ := filled pattern (Nat.le_refl (pattern.length - 1))
  refine ⟨char, hchar, fun c => ⟨hfilled.le c, fun i hi => hfilled.next c i (by omega)⟩, fun hne c => hfilled.pos c hne⟩

/-! ## The search -/

/-- The bytes are compared up to the first of the pattern, or to one that differs. -/
theorem compare_spec (hj : j ≤ pattern.length) (hji : j ≤ i) (hi : i ≤ input.length) :
    ∃ r, compare input pattern i j = .ok r ∧ (r = 0 ↔ pattern.take j <:+ input.take i) := by
  induction j generalizing i with
  | zero => exact ⟨0, rfl, by simp⟩
  | succ j ih =>
    obtain ⟨i, rfl⟩ : ∃ i', i = i' + 1 := ⟨i - 1, by omega⟩
    rw [compare, sub_eq input hi, sub_eq pattern hj, take_suffix_succ hj hi, getElem?_eq_getElem hi,
      getElem?_eq_getElem hj, Option.some.injEq]
    simp only [bind, Except.bind, Nat.add_sub_cancel]
    by_cases heq : input[i] = pattern[j]
    · obtain ⟨r, hr, hiff⟩ := ih (by omega) (by omega : j ≤ i) (by omega)
      exact ⟨r, by rw [if_pos heq, hr], by rw [hiff, and_iff_right heq]⟩
    · exact ⟨j + 1, by rw [if_neg heq]; rfl, by simp [heq]⟩

/-- One turn stops at a place where the pattern ends, and skips none. -/
theorem search_spec (hne : pattern ≠ []) (hskips : Skips pattern char) (hpos : ∀ c, 0 < char c) {turns : Nat}
    (hk : pattern.length ≤ k) (hturns : input.length + 1 < turns + k) (hturn : 0 < turns)
    (hpast : ∀ k' < k, ¬ EndsAt pattern input k') :
    search input pattern char turns k = .ok (if pattern <:+: input then .found input else .missed) := by
  induction turns generalizing k with
  | zero => exact absurd hturn (Nat.lt_irrefl 0)
  | succ turns ih =>
    rw [search]
    by_cases hle : k ≤ input.length
    · rw [if_pos hle]
      obtain ⟨r, hr, hiff⟩ := compare_spec (Nat.le_refl pattern.length) hk hle
      rw [take_length] at hiff
      have hm := length_pos_iff.mpr hne
      obtain ⟨k, rfl⟩ : ∃ k', k = k' + 1 := ⟨k - 1, by omega⟩
      rw [hr, sub_eq input hle]
      simp only [bind, Except.bind]
      by_cases hzero : r = 0
      · have hends : EndsAt pattern input (k + 1) := ⟨hle, hiff.mp hzero⟩
        rw [if_pos hzero, if_pos (infix_iff_endsAt.mpr ⟨_, hends⟩)]
        rfl
      · rw [if_neg hzero]
        have := hpos input[k]
        refine ih (by omega) (by omega) (by omega) fun k' hk' hends => ?_
        rcases Nat.lt_trichotomy k' (k + 1) with hlt | rfl | hgt
        · exact hpast k' hlt hends
        · exact hzero (hiff.mpr hends.2)
        · have := hends.skipped hskips (Nat.succ_pos k) (getElem?_eq_getElem hle) hgt
          omega
    · rw [if_neg hle, if_neg]
      intro hinfix
      obtain ⟨k', hends⟩ := infix_iff_endsAt.mp hinfix
      exact hpast k' (by have := hends.1; omega) hends

/-- **`str_match` returns, and finds the pattern exactly in the inputs that contain it.** -/
theorem str_match_spec (input pattern : Bytes) :
    str_match input pattern = .ok (if pattern.length > input.length then .nothing
      else if pattern <:+: input then .found input else .missed) := by
  rw [str_match]
  by_cases hlong : pattern.length > input.length
  · rw [if_pos hlong, if_pos hlong]
    rfl
  rw [if_neg hlong, if_neg hlong]
  obtain ⟨char, hchar, hskips, hpos⟩ := charTable_spec pattern
  rw [hchar]
  by_cases hne : pattern = []
  · subst hne
    rw [if_pos nil_infix]
    rfl
  · have hm := length_pos_iff.mpr hne
    refine search_spec hne hskips (hpos hne) (Nat.le_refl _) (by omega) (by omega) fun k' hk' hends => ?_
    have := hends.length_le
    omega

example : str_match [97, 97, 97, 98] [97, 97, 98] = .ok (.found [97, 97, 97, 98]) := by decide

/-- **For all bytes the search returns without a read outside of them; what it returns
is a match exactly when the pattern occurs in the input, is one for the empty pattern, and
is nothing for a pattern longer than the input.** -/
theorem str_match_right (input pattern : Bytes) :
    ∃ r, str_match input pattern = .ok r ∧ (r = .found input ↔ pattern <:+: input) ∧ (∀ v, r = .found v → v = input) ∧
      (pattern = [] → r = .found input) ∧ (input.length < pattern.length → r = .nothing) := by
  refine ⟨_, str_match_spec input pattern, ?_, ?_, ?_, fun h => if_pos h⟩
  · by_cases hlong : pattern.length > input.length
    · rw [if_pos hlong]
      refine iff_of_false nofun fun hinfix => ?_
      have := hinfix.length_le
      omega
    · rw [if_neg hlong]
      split <;> simp_all
  · intro v hv
    split at hv
    · cases hv
    · split at hv <;> cases hv
      rfl
  · rintro rfl
    rw [if_neg (show ¬ [].length > input.length from Nat.not_lt_zero _), if_pos nil_infix]

end OpenResty.Waf.StrMatch
