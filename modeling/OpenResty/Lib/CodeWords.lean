/-
A list read off as words of a code: no word is empty and none begins another, so
the words that stand at the beginning and the place where they end are determined.
-/
import Mathlib.Algebra.Order.Ring.Nat
import Mathlib.Data.List.Infix

namespace OpenResty.Lib.CodeWords

open List

variable {α : Type} {W : List α → Prop} {w s t t' : List α} {n n' : Nat}

structure PrefixCode (W : List α → Prop) : Prop where
  ne_nil : ∀ w, W w → w ≠ []
  eq_of_prefix : ∀ w w', W w → W w' → w <+: w' → w = w'

/-- `n` elements of `s` are words one after another, and `t` is behind them. -/
inductive Reads (W : List α → Prop) : List α → Nat → List α → Prop
  | done (s : List α) : Reads W s 0 s
  | word {w s t : List α} {n : Nat} (hw : W w) (rest : Reads W s n t) : Reads W (w ++ s) (w.length + n) t

def NoWord (W : List α → Prop) (t : List α) : Prop := ∀ w, W w → ¬ w <+: t

/-- The list is words and nothing else. -/
def AllWords (W : List α → Prop) (s : List α) : Prop := ∃ ws : List (List α), (∀ w ∈ ws, W w) ∧ ws.flatten = s

/-- The words end before the list does, behind `n` elements. -/
def StopsAt (W : List α → Prop) (s : List α) (n : Nat) : Prop := ∃ t, Reads W s n t ∧ t ≠ [] ∧ NoWord W t

theorem Reads.length (h : Reads W s n t) : s.length = n + t.length := by
  induction h with
  | done s => rw [Nat.zero_add]
  | word hw rest ih => rw [length_append, ih, Nat.add_assoc]

theorem Reads.drop (h : Reads W s n t) : s.drop n = t := by
  induction h with
  | done s => rfl
  | word hw rest ih => rw [drop_length_add_append, ih]

theorem Reads.snoc (h : Reads W s n (w ++ t)) (hw : W w) : Reads W s (n + w.length) t := by
  generalize hs : w ++ t = s' at h
  induction h with
  | done s =>
    subst hs
    rw [Nat.zero_add]
    exact .word hw (.done t)
  | word hw' rest ih =>
    rw [Nat.add_assoc]
    exact .word hw' (ih hs)

theorem allWords_iff : AllWords W s ↔ ∃ n, Reads W s n [] := by
  constructor
  · rintro ⟨ws, hws, rfl⟩
    induction ws with
    | nil => exact ⟨0, .done []⟩
    | cons w ws ih =>
      obtain ⟨n, h⟩ := ih (fun w' hw' => hws w' (.tail w hw'))
      exact ⟨w.length + n, .word (hws w (.head ws)) h⟩
  · rintro ⟨n, h⟩
    generalize ht : ([] : List α) = t at h
    induction h with
    | done s => exact ⟨[], by simp, ht⟩
    | word hw rest ih =>
      obtain ⟨ws, hws, rfl⟩ := ih ht
      exact ⟨_ :: ws, by simpa using ⟨hw, hws⟩, rfl⟩

theorem PrefixCode.noWord_nil (hW : PrefixCode W) : NoWord W [] := by
  intro w hw hprefix
  exact hW.ne_nil w hw (prefix_nil.mp hprefix)

/-- There is one way to read off all the words at the beginning. -/
theorem PrefixCode.reads_unique (hW : PrefixCode W) (h : Reads W s n t) (h' : Reads W s n' t') (ht : NoWord W t)
    (ht' : NoWord W t') : n = n' := by
  induction h generalizing n' with
  | done s =>
    cases h' with
    | done => rfl
    | word hw rest => exact absurd (prefix_append _ _) (ht _ hw)
  | @word w s t n hw rest ih =>
    generalize hs : w ++ s = s' at h'
    cases h' with
    | done => exact absurd ⟨s, hs⟩ (ht' w hw)
    | @word w' s' _ m hw' rest' =>
      have heq : w = w' := by
        rcases prefix_or_prefix_of_prefix ⟨s, hs⟩ (prefix_append w' s') with h | h
        · exact hW.eq_of_prefix w w' hw hw' h
        · exact (hW.eq_of_prefix w' w hw' hw h).symm
      subst heq
      obtain rfl := append_cancel_left hs
      rw [ih rest' ht]

theorem PrefixCode.stopsAt_unique (hW : PrefixCode W) (h : StopsAt W s n) (h' : StopsAt W s n') : n = n' := by
  obtain ⟨t, hreads, -, ht⟩ := h
  obtain ⟨t', hreads', -, ht'⟩ := h'
  exact hW.reads_unique hreads hreads' ht ht'

theorem PrefixCode.not_allWords (hW : PrefixCode W) (h : StopsAt W s n) : ¬ AllWords W s := by
  rintro hall
  obtain ⟨t, hreads, hne, ht⟩ := h
  obtain ⟨m, hreads'⟩ := allWords_iff.mp hall
  obtain rfl := hW.reads_unique hreads hreads' ht hW.noWord_nil
  have hlength := hreads.length.symm.trans hreads'.length
  exact hne (eq_nil_of_length_eq_zero (by simpa using hlength))

end OpenResty.Lib.CodeWords
