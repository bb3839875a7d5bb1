/-
The comparison of some bytes of two strings as C makes it, up to a zero byte that both have,
and the search for a string by it. Bytes are compared through a function, such as the lower
case of a letter.
-/
import OpenResty.Lib.Memory

namespace OpenResty.Lib.CString

open Nat List

variable (fold : UInt8 → UInt8)

/-- The first difference among `n` bytes, or 0; `none` when a string ends before. -/
def compare : Nat → Bytes → Bytes → Option Int
  | 0, _, _ => some 0
  | n + 1, c1 :: s1, c2 :: s2 =>
    if fold c1 = fold c2 then if fold c1 = 0 then some 0 else compare n s1 s2
    else some ((fold c1).toNat - (fold c2).toNat)
  | _ + 1, _, _ => none

/-- The first place among `turns` from which on `c2` and `n` bytes of `s2` stand. -/
def find (c2 : UInt8) (s2 : Bytes) (n : Nat) : Nat → Bytes → Option (Option Nat)
  | 0, _ => some none
  | _ + 1, [] => none
  | turns + 1, c1 :: s1 =>
    if fold c1 ≠ c2 then (find c2 s2 n turns s1).map fun r => r.map (· + 1)
    else
      match compare fold n s1 s2 with
      | none => none
      | some r => if r = 0 then some (some 0) else (find c2 s2 n turns s1).map fun r => r.map (· + 1)

/-- The search for `n + 1` bytes of `s2` in the first `last` bytes of `s1`. -/
def search (s1 : Bytes) (last : Nat) (s2 : Bytes) (n : Nat) : Option (Option Nat) :=
  match s2 with
  | [] => none
  | c2 :: s2 => find fold (fold c2) s2 n (last - n) s1

/-- The bytes before a zero byte. -/
def cstr (s : Bytes) : Bytes := s.takeWhile (· ≠ 0)

/-- A text begins as `pat` does, from its second byte on up to a zero byte that both have. -/
def Agrees (pat s : Bytes) : Prop :=
  match pat, s with
  | c2 :: pat, c1 :: s =>
    fold c1 = fold c2 ∧ pat.length ≤ s.length ∧ cstr ((s.take pat.length).map fold) = cstr (pat.map fold)
  | _, _ => False

/-- A text begins with `pat`. -/
def Exact (pat s : Bytes) : Prop := (s.take pat.length).map fold = pat.map fold

/-- What a search among `turns` places comes to: nothing, or the first that agrees. -/
def First (pat s : Bytes) (turns : Nat) : Option Nat → Prop
  | none => ∀ i < turns, ¬ Agrees fold pat (s.drop i)
  | some i => i < turns ∧ Agrees fold pat (s.drop i) ∧ ∀ j < i, ¬ Agrees fold pat (s.drop j)

instance (pat s : Bytes) : Decidable (Agrees fold pat s) := by
  unfold Agrees
  split <;> infer_instance

instance (pat s : Bytes) : Decidable (Exact fold pat s) := inferInstanceAs (Decidable (_ = _))

variable {fold} {pat s : Bytes} {c : UInt8} {n turns : Nat}

theorem cstr_zero (s : Bytes) : cstr (0 :: s) = [] := rfl

theorem cstr_cons (h : c ≠ 0) (s : Bytes) : cstr (c :: s) = c :: cstr s :=
  takeWhile_cons_of_pos (decide_eq_true h)

theorem compare_cons (n : Nat) (c1 c2 : UInt8) (s1 s2 : Bytes) :
    compare fold (n + 1) (c1 :: s1) (c2 :: s2) =
      if fold c1 = fold c2 then if fold c1 = 0 then some 0 else compare fold n s1 s2
      else some ((fold c1).toNat - (fold c2).toNat) := rfl

theorem find_cons (c2 : UInt8) (s2 : Bytes) (n turns : Nat) (c1 : UInt8) (s1 : Bytes) :
    find fold c2 s2 n (turns + 1) (c1 :: s1) =
      if fold c1 ≠ c2 then (find fold c2 s2 n turns s1).map fun r => r.map (· + 1)
      else
        match compare fold n s1 s2 with
        | none => none
        | some r => if r = 0 then some (some 0) else (find fold c2 s2 n turns s1).map fun r => r.map (· + 1) := rfl

/-- Strings that are long enough are compared, and what counts of them are the bytes before a
zero byte. -/
theorem compare_spec (fold : UInt8 → UInt8) {s1 s2 : Bytes} (h1 : n ≤ s1.length) (h2 : n ≤ s2.length) :
    ∃ r, compare fold n s1 s2 = some r ∧ (r = 0 ↔ cstr ((s1.take n).map fold) = cstr ((s2.take n).map fold)) := by
  induction n generalizing s1 s2 with
  | zero => exact ⟨0, rfl, iff_of_true rfl rfl⟩
  | succ n ih =>
    cases s1 with
    | nil => exact absurd h1 (not_succ_le_zero n)
    | cons c1 s1 =>
      cases s2 with
      | nil => exact absurd h2 (not_succ_le_zero n)
      | cons c2 s2 =>
        rw [compare_cons, take_succ_cons, take_succ_cons, map_cons, map_cons]
        by_cases heq : fold c1 = fold c2
        · rw [if_pos heq, ← heq]
          by_cases hzero : fold c1 = 0
          · rw [if_pos hzero, hzero, cstr_zero, cstr_zero]
            exact ⟨0, rfl, iff_of_true rfl rfl⟩
          · rw [if_neg hzero, cstr_cons hzero, cstr_cons hzero]
            obtain ⟨r, hr, hiff⟩ := ih (le_of_succ_le_succ h1) (le_of_succ_le_succ h2)
            exact ⟨r, hr, hiff.trans (cons_inj_right _).symm⟩
        · rw [if_neg heq]
          refine ⟨_, rfl, iff_of_false (fun h => heq (UInt8.toNat_inj.mp (by omega))) fun h => heq ?_⟩
          by_cases h1 : fold c1 = 0
          · by_cases h2 : fold c2 = 0
            · rw [h1, h2]
            · rw [h1, cstr_zero, cstr_cons h2] at h
              cases h
          · by_cases h2 : fold c2 = 0
            · rw [h2, cstr_zero, cstr_cons h1] at h
              cases h
            · rw [cstr_cons h1, cstr_cons h2] at h
              exact (List.cons.inj h).1

theorem Exact.agrees (h : Exact fold pat s) (hne : pat ≠ []) : Agrees fold pat s := by
  cases pat with
  | nil => exact absurd rfl hne
  | cons c2 pat =>
    cases s with
    | nil => cases h
    | cons c1 s =>
      obtain ⟨hhead, hrest⟩ := List.cons.inj h
      have hlen := congrArg List.length hrest
      rw [length_map, length_map, length_take] at hlen
      exact ⟨hhead, by omega, congrArg cstr hrest⟩

theorem Agrees.length_le (h : Agrees fold pat s) : pat.length ≤ s.length := by
  cases pat with
  | nil => exact h.elim
  | cons c2 pat =>
    cases s with
    | nil => exact h.elim
    | cons c1 s => exact succ_le_succ h.2.1

theorem First.cons {r : Option Nat} (hno : ¬ Agrees fold pat (c :: s)) (h : First fold pat s turns r) :
    First fold pat (c :: s) (turns + 1) (r.map (· + 1)) := by
  cases r with
  | none =>
    intro i hi
    cases i with
    | zero => exact hno
    | succ i => exact h i (lt_of_succ_lt_succ hi)
  | some i =>
    obtain ⟨hlt, hagrees, hfirst⟩ := h
    refine ⟨succ_lt_succ hlt, hagrees, fun j hj => ?_⟩
    cases j with
    | zero => exact hno
    | succ j => exact hfirst j (lt_of_succ_lt_succ hj)

theorem find_spec (c2 : UInt8) (pat : Bytes) {s : Bytes} (h : turns ≤ s.length - pat.length) :
    ∃ r, find fold (fold c2) pat pat.length turns s = some r ∧ First fold (c2 :: pat) s turns r := by
  induction turns generalizing s with
  | zero => exact ⟨none, rfl, fun i hi => absurd hi (Nat.not_lt_zero i)⟩
  | succ turns ih =>
    cases s with
    | nil => exact absurd h (by simp)
    | cons c1 s =>
      rw [length_cons] at h
      obtain ⟨r, hr, hfirst⟩ := ih (s := s) (by omega)
      by_cases hhead : fold c1 = fold c2
      · obtain ⟨d, hd, hiff⟩ : ∃ d, compare fold pat.length s pat = some d ∧
            (d = 0 ↔ cstr ((s.take pat.length).map fold) = cstr ((pat.take pat.length).map fold)) :=
          compare_spec fold (by omega) (Nat.le_refl _)
        rw [take_length] at hiff
        rw [find_cons, if_neg (not_not.mpr hhead), hd]
        by_cases hzero : d = 0
        · refine ⟨some 0, if_pos hzero, zero_lt_succ _, ⟨hhead, by omega, hiff.mp hzero⟩, fun j hj => ?_⟩
          exact absurd hj (Nat.not_lt_zero j)
        · refine ⟨r.map (· + 1), ?_, hfirst.cons fun hagrees => hzero (hiff.mpr hagrees.2.2)⟩
          simp only [if_neg hzero, hr, Option.map_some]
      · refine ⟨r.map (· + 1), ?_, hfirst.cons fun hagrees => hhead hagrees.1⟩
        rw [find_cons, if_pos hhead, hr, Option.map_some]

/-- A search does not leave the first `last` bytes, and comes to the first place in them that
agrees. -/
theorem search_spec (fold : UInt8 → UInt8) {last : Nat} (hne : pat ≠ []) (hlast : last ≤ s.length) :
    ∃ r, search fold s last pat (pat.length - 1) = some r ∧ First fold pat s (last - (pat.length - 1)) r := by
  cases pat with
  | nil => exact absurd rfl hne
  | cons c2 pat => exact find_spec c2 pat (Nat.sub_le_sub_right hlast _)

end OpenResty.Lib.CString
