/-
The Luhn checksum of a list of digits: from the right, every second digit counts as
the sum of the digits of its double.
-/
import Mathlib.Data.List.Basic

namespace OpenResty.Lib

open List

/-- What a digit counts in a doubled place. -/
def luhnDouble (d : Nat) : Nat := if 9 < d * 2 then d * 2 - 9 else d * 2

/-- The sum of digits listed from the right, where the first is doubled or not. -/
def luhnFrom : Bool → List Nat → Nat
  | _, [] => 0
  | doubled, d :: ds => (if doubled then luhnDouble d else d) + luhnFrom (!doubled) ds

def luhn (digits : List Nat) : Nat := luhnFrom false digits.reverse

/-- Whether the place after `n` digits is doubled. -/
def doubledAfter (doubled : Bool) : Nat → Bool
  | 0 => doubled
  | n + 1 => doubledAfter (!doubled) n

theorem luhnFrom_append (doubled : Bool) (xs ys : List Nat) :
    luhnFrom doubled (xs ++ ys) = luhnFrom doubled xs + luhnFrom (doubledAfter doubled xs.length) ys := by
  induction xs generalizing doubled with
  | nil => exact (Nat.zero_add _).symm
  | cons x xs ih =>
    simp only [cons_append, luhnFrom, length_cons, doubledAfter, ih]
    omega

theorem doubledAfter_eq (doubled : Bool) (n : Nat) : doubledAfter doubled n = (doubled ^^ decide (n % 2 = 1)) := by
  induction n generalizing doubled with
  | zero => cases doubled <;> rfl
  | succ n ih =>
    rw [doubledAfter, ih]
    rcases Nat.mod_two_eq_zero_or_one n with h | h
    · have hsucc : (n + 1) % 2 = 1 := by omega
      simp [h, hsucc]
    · have hsucc : (n + 1) % 2 ≠ 1 := by omega
      simp [h, hsucc]

/-- A digit counts what its place makes of it, and the rest counts the same without it. -/
theorem luhn_cons (d : Nat) (ds : List Nat) :
    luhn (d :: ds) = (if ds.length % 2 = 1 then luhnDouble d else d) + luhn ds := by
  unfold luhn
  rw [reverse_cons, luhnFrom_append, length_reverse, doubledAfter_eq]
  simp only [luhnFrom, Bool.false_xor, decide_eq_true_eq]
  omega

/-- Two digits that count the same modulo 10 are the same, doubled or not. -/
theorem luhn_place_inj (n : Nat) {d d' : Nat} (hd : d < 10) (hd' : d' < 10)
    (h : (if n % 2 = 1 then luhnDouble d else d) % 10 = (if n % 2 = 1 then luhnDouble d' else d') % 10) : d = d' := by
  unfold luhnDouble at h
  split at h
  · split at h <;> split at h <;> omega
  · omega

/-- **One changed digit changes the checksum.** -/
theorem luhn_ne_of_change {xs ys : List Nat} {d d' : Nat} (hd : d < 10) (hd' : d' < 10) (hne : d ≠ d') :
    luhn (xs ++ d :: ys) % 10 ≠ luhn (xs ++ d' :: ys) % 10 := by
  induction xs with
  | nil =>
    intro h
    rw [nil_append, nil_append, luhn_cons, luhn_cons] at h
    refine hne (luhn_place_inj ys.length hd hd' ?_)
    omega
  | cons x xs ih =>
    intro h
    rw [cons_append, cons_append, luhn_cons, luhn_cons] at h
    have hlength : (xs ++ d :: ys).length = (xs ++ d' :: ys).length := by simp
    rw [hlength] at h
    omega

end OpenResty.Lib
