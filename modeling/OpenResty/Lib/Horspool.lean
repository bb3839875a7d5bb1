/-
Searching a text for a pattern with a table of skips: the places where the pattern can
end, compared from the last element of the pattern backwards, and which of them a skip
passes over.
-/
import Mathlib.Data.List.Infix

namespace OpenResty.Lib.Horspool

open List

variable {α : Type} {pat text : List α} {skip : α → Nat} {c : α} {i j k k' : Nat}

/-- The pattern ends at place `k` of the text. -/
def EndsAt (pat text : List α) (k : Nat) : Prop := k ≤ text.length ∧ pat <:+ text.take k

theorem infix_iff_endsAt : pat <:+: text ↔ ∃ k, EndsAt pat text k := by
  constructor
  · rintro ⟨s, t, rfl⟩
    refine ⟨(s ++ pat).length, by simp, s, ?_⟩
    rw [take_left]
  · rintro ⟨k, -, hends⟩
    exact hends.isInfix.trans ( take_prefix k text).isInfix

theorem EndsAt.length_le (h : EndsAt pat text k) : pat.length ≤ k := by
  have hle := h.2.length_le
  rw [length_take] at hle
  omega

/-- The element of the text that lies at an element of the pattern. -/
theorem EndsAt.getElem? (h : EndsAt pat text k) (hi : i < pat.length) : text[k - pat.length + i]? = pat[i]? := by
  obtain ⟨s, hs⟩ := h.2
  have hlen := congrArg List.length hs
  rw [length_append, length_take_of_le h.1] at hlen
  have hget : (text.take k)[s.length + i]? = pat[i]? := by
    rw [← hs, getElem?_append_right (Nat.le_add_right _ _), Nat.add_sub_cancel_left]
  rwa [getElem?_take_of_lt (by omega), show s.length = k - pat.length by omega] at hget

/-- One more element, compared from the end. -/
theorem take_suffix_succ (hj : j < pat.length) (hi : i < text.length) :
    pat.take (j + 1) <:+ text.take (i + 1) ↔ text[i]? = pat[j]? ∧ pat.take j <:+ text.take i := by
  rw [take_add_one, take_add_one, getElem?_eq_getElem hj, getElem?_eq_getElem hi]
  constructor
  · rintro ⟨s, hs⟩
    rw [← append_assoc] at hs
    obtain ⟨hrest, hlast⟩ := append_inj' hs rfl
    exact ⟨congrArg some (singleton_inj.mp hlast).symm, s, hrest⟩
  · rintro ⟨hlast, s, hrest⟩
    refine ⟨s, ?_⟩
    rw [← append_assoc, hrest, Option.some.inj hlast]

/-- The skip of an element leads no farther than to where it is next to be found in the pattern,
from its end. -/
def Skips (pat : List α) (skip : α → Nat) : Prop :=
  ∀ c, skip c ≤ pat.length ∧ ∀ i, i + 1 < pat.length → pat[i]? = some c → skip c ≤ pat.length - (i + 1)

/-- **What a skip passes over is no place where the pattern ends.** -/
theorem EndsAt.skipped (h : EndsAt pat text k') (hskip : Skips pat skip) (hpos : 0 < k) (hc : text[k - 1]? = some c)
    (hlt : k < k') : k + skip c ≤ k' := by
  by_contra hover
  have hle := h.length_le
  obtain ⟨hbound, hnext⟩ := hskip c
  -- the element at `k` lies in the pattern that ends at `k'`, but not last
  have hget := h.getElem? (i := pat.length - 1 - (k' - k)) (by omega)
  rw [show k' - pat.length + (pat.length - 1 - (k' - k)) = k - 1 by omega, hc] at hget
  have := hnext _ (by omega) hget.symm
  omega

end OpenResty.Lib.Horspool
