/-
A list up to the first occurrence of a pattern, and what is behind it.
-/
import Mathlib.Data.List.Infix

namespace OpenResty.Lib

open List

variable {α : Type} [DecidableEq α] {pat s d t : List α} {c : α}

/-- What is before the first occurrence of the pattern, and what is behind it. -/
def before (pat : List α) : List α → Option (List α × List α)
  | [] => if pat = [] then some ([], []) else none
  | c :: s =>
    if pat <+: c :: s then some ([], (c :: s).drop pat.length)
    else (before pat s).map fun (d, t) => (c :: d, t)

/-- No occurrence of the pattern begins in `d`, when `d` is followed by the pattern. -/
def First (pat d : List α) : Prop := ¬pat <:+: d ++ pat.dropLast

instance (pat d : List α) : Decidable (First pat d) := inferInstanceAs (Decidable (¬_))

theorem before_append (hpat : pat ≠ []) (h : First pat d) : before pat (d ++ pat ++ t) = some (d, t) := by
  induction d with
  | nil =>
    obtain ⟨c, pat', rfl⟩ := exists_cons_of_ne_nil hpat
    rw [nil_append, cons_append, before, if_pos]
    · rw [← cons_append, drop_left]
    · exact prefix_append (c :: pat') t
  | cons c d ih =>
    have hnot : ¬pat <+: c :: (d ++ pat ++ t) := by
      intro hbegins
      refine h (List.IsPrefix.isInfix ?_)
      have hlonger : c :: d ++ pat.dropLast <+: c :: (d ++ pat ++ t) := by
        rw [← cons_append, ← cons_append]
        exact (prefix_append_right_inj _).mpr ( dropLast_prefix pat) |>.trans (prefix_append _ t)
      refine prefix_of_prefix_length_le hbegins hlonger ?_
      have hpos := length_pos_of_ne_nil hpat
      simp only [cons_append, length_cons, length_append, length_dropLast]
      omega
    have hd : First pat d := fun hinside => h (hinside.trans (suffix_cons c _).isInfix)
    rw [cons_append, cons_append, before, if_neg hnot, ih hd]
    rfl

theorem eq_of_before (h : before pat s = some (d, t)) : s = d ++ pat ++ t := by
  induction s generalizing d with
  | nil =>
    rw [before] at h
    split at h
    · next hpat =>
      cases h
      rw [hpat]
      rfl
    · cases h
  | cons c s ih =>
    rw [before] at h
    split at h
    · next hbegins =>
      cases h
      rw [nil_append]
      exact (prefix_iff_eq_append.mp hbegins).symm
    · obtain ⟨⟨d', t'⟩, hbefore, heq⟩ := Option.map_eq_some_iff.mp h
      cases heq
      rw [ih hbefore]
      rfl

omit [DecidableEq α] in
/-- A pattern that begins with a character it does not hold again cannot overlap itself. -/
theorem first_of_notMem (hc : c ∉ t) (h : ¬c :: t <:+: d) : First (c :: t) d := by
  induction d with
  | nil =>
    intro hinside
    have hle := hinside.length_le
    simp only [nil_append, length_dropLast, length_cons] at hle
    omega
  | cons a d ih =>
    have hd : First (c :: t) d := ih fun hinside => h (hinside.trans (suffix_cons a d).isInfix)
    intro hinside
    rw [cons_append] at hinside
    rcases infix_cons_iff.mp hinside with hbegins | hinside
    · obtain ⟨rfl, htail⟩ := cons_prefix_cons.mp hbegins
      rcases prefix_or_prefix_of_prefix htail (prefix_append d _) with hshort | ⟨u, rfl⟩
      · exact h ((prefix_cons_inj c).mpr hshort).isInfix
      · -- the pattern would go on where it begins
        have hu : u <+: (c :: (d ++ u)).dropLast := (prefix_append_right_inj d).mp htail
        cases u with
        | nil => exact h (by rw [append_nil])
        | cons b u =>
          have hlast : (c :: (d ++ b :: u)).dropLast = c :: (d ++ b :: u).dropLast := dropLast_cons_of_ne_nil (by simp)
          rw [hlast] at hu
          obtain ⟨rfl, -⟩ := cons_prefix_cons.mp hu
          exact hc (by simp)
    · exact hd hinside

end OpenResty.Lib
