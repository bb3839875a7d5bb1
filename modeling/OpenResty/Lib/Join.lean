/-
Fields joined by a separator: when the text determines the fields.
-/
import Mathlib.Data.List.Basic

namespace OpenResty.Lib

open List

/-- The fields joined by a separator character. -/
abbrev join (sep : Char) (fields : List String) : String := String.intercalate (String.singleton sep) fields

variable {sep : Char}

/-- The text determines the fields when none holds the separator. -/
theorem join_inj {l m : List String} (hl : ∀ s ∈ l, sep ∉ s.toList) (hm : ∀ s ∈ m, sep ∉ s.toList)
    (hlne : l ≠ []) (hmne : m ≠ []) (h : join sep l = join sep m) : l = m := by
  have hlists := congrArg (fun s => splitOn sep s.toList) h
  simp only [String.toList_intercalate, String.toList_singleton] at hlists
  rw [splitOn_intercalate sep (by simpa using hl) (by simpa using hlne),
    splitOn_intercalate sep (by simpa using hm) (by simpa using hmne)] at hlists
  exact map_injective_iff.mpr (fun _ _ => String.toList_injective) hlists

/-- The last separator splits a list in one way. -/
theorem append_cons_inj {α : Type} {c : α} {xs ys as bs : List α} (has : c ∉ as) (hbs : c ∉ bs)
    (h : xs ++ c :: as = ys ++ c :: bs) : xs = ys ∧ as = bs := by
  rcases append_eq_append_iff.mp h with ⟨zs, rfl, hzs⟩ | ⟨zs, rfl, hzs⟩
  · cases zs with
    | nil => simpa using hzs
    | cons z zs =>
      obtain ⟨-, rfl⟩ := List.cons.inj hzs
      exact absurd (by simp) has
  · cases zs with
    | nil => simpa using hzs.symm
    | cons z zs =>
      obtain ⟨-, rfl⟩ := List.cons.inj hzs
      exact absurd (by simp) hbs

/-- The first separator splits a list in one way. -/
theorem append_cons_inj_left {α : Type} {c : α} {xs ys as bs : List α} (hxs : c ∉ xs) (hys : c ∉ ys)
    (h : xs ++ c :: as = ys ++ c :: bs) : xs = ys ∧ as = bs := by
  have hrev : as.reverse ++ c :: xs.reverse = bs.reverse ++ c :: ys.reverse := by
    simpa using congrArg reverse h
  obtain ⟨has, hxs⟩ := append_cons_inj (by simpa using hxs) (by simpa using hys) hrev
  exact ⟨reverse_injective hxs, reverse_injective has⟩

/-- The text determines its last field when that field does not hold the separator. -/
theorem join_last {l m : List String} {x y : String} (hl : l ≠ []) (hm : m ≠ []) (hx : sep ∉ x.toList)
    (hy : sep ∉ y.toList) (h : join sep (l ++ [x]) = join sep (m ++ [y])) : x = y := by
  rw [join, join, String.intercalate_append_of_ne_nil hl (by simp),
    String.intercalate_append_of_ne_nil hm (by simp)] at h
  have hlists := congrArg String.toList h
  simp only [String.intercalate_singleton, String.toList_append, String.toList_singleton, append_assoc,
    singleton_append] at hlists
  exact String.toList_injective (append_cons_inj hx hy hlists).2

/-- A joined text holds the separators and what its fields hold. -/
theorem notMem_join {c : Char} {l : List String} (hsep : c ≠ sep) (hl : ∀ s ∈ l, c ∉ s.toList) :
    c ∉ (join sep l).toList := by
  induction l with
  | nil => simp
  | cons s l ih =>
    cases l with
    | nil => simpa using hl
    | cons t l =>
      have hs := hl s (by simp)
      have := ih fun s hs => hl s (by simp [hs])
      simp only [join, String.intercalate_cons_cons, String.toList_append, mem_append, not_or,
        String.toList_singleton, mem_singleton]
      exact ⟨⟨hs, hsep⟩, this⟩

end OpenResty.Lib
