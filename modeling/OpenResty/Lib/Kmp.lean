/-
Searching a stream for a pattern, byte by byte: what has been given out, and
the prefix of the pattern that is held back because it may be a match.
-/
import Mathlib.Data.List.Infix

namespace OpenResty.Lib

open List hiding getElem?_eq_some_iff

variable {α : Type}

/-- A scan of `consumed` before `rest` has given out `given` and holds back
the first `s` of the pattern. No longer prefix that ends the consumed text
can be continued. -/
structure Scan (pat given rest : List α) (s : Nat) (consumed : List α) : Prop where
  state : s < pat.length
  split : consumed = given ++ pat.take s
  unseen : ¬ pat <:+: consumed
  best : ∀ t c, s < t → pat[t]? = some c → rest.head? = some c → ¬ pat.take t <:+ consumed

variable {pat given rest consumed : List α} {s : Nat} {c : α}

theorem take_getElem? {t : Nat} (h : pat[t]? = some c) : pat.take (t + 1) = pat.take t ++ [c] := by
  rw [take_add_one, h]
  rfl

namespace Scan

theorem start (hpat : pat ≠ []) (rest : List α) : Scan pat [] rest 0 [] where
  state := length_pos_iff.mpr hpat
  split := rfl
  unseen h := hpat (eq_nil_of_infix_nil h)
  best t c ht hc _ h := by
    have hlt := (List.getElem?_eq_some_iff.mp hc).1
    have hle := h.length_le
    rw [length_take] at hle
    simp only [length_nil] at hle
    omega

/-- A prefix that ends with the next byte continues a prefix held back. -/
theorem candidate (h : Scan pat given (c :: rest) s consumed) {t : Nat} (ht : t < pat.length)
    (hsuffix : pat.take (t + 1) <:+ consumed ++ [c]) :
    t ≤ s ∧ pat.take t <:+ pat.take s ∧ pat[t]? = some c := by
  have hget : pat[t]? = some pat[t] := getElem?_eq_getElem ht
  rw [take_getElem? hget] at hsuffix
  obtain ⟨w, hw⟩ := hsuffix
  rw [← append_assoc] at hw
  obtain ⟨hconsumed, hlast⟩ := append_inj' hw rfl
  have hc : pat[t]? = some c := hget.trans (congrArg some (singleton_inj.mp hlast))
  have hshort : pat.take t <:+ consumed := ⟨w, hconsumed⟩
  have hle : t ≤ s := by
    refine Nat.le_of_not_lt fun hlt => ?_
    exact h.best t c hlt hc rfl hshort
  refine ⟨hle, ?_, hc⟩
  refine suffix_of_suffix_length_le hshort ⟨given, h.split.symm⟩ ?_
  rw [length_take, length_take]
  omega

/-- The next byte is taken, and the new state is the best one. -/
theorem extend (h : Scan pat given (c :: rest) s consumed) {given' : List α} {n : Nat} (hn : n < pat.length)
    (hsplit : consumed ++ [c] = given' ++ pat.take n)
    (hbest : ∀ t, n ≤ t → t ≤ s → pat.take t <:+ pat.take s → pat[t]? ≠ some c) :
    Scan pat given' rest n (consumed ++ [c]) where
  state := hn
  split := hsplit
  unseen hinside := by
    rcases infix_concat_iff.mp hinside with hsuffix | hinside
    · have hwhole : pat.take (pat.length - 1 + 1) = pat := by
        rw [Nat.sub_add_cancel (Nat.one_le_of_lt hn), take_length]
      rw [← hwhole] at hsuffix
      obtain ⟨hle, hborder, hget⟩ := h.candidate (by omega) hsuffix
      exact hbest _ (by omega) hle hborder hget
    · exact h.unseen hinside
  best t b ht hget _ hsuffix := by
    obtain ⟨t, rfl⟩ := Nat.exists_eq_succ_of_ne_zero (Nat.ne_zero_of_lt ht)
    have hlt := (List.getElem?_eq_some_iff.mp hget).1
    obtain ⟨hle, hborder, hget'⟩ := h.candidate (by omega) hsuffix
    exact hbest t (by omega) hle hborder hget'

/-- One more byte of the pattern. -/
theorem advance (h : Scan pat given (c :: rest) s consumed) (hc : pat[s]? = some c) (hs : s + 1 < pat.length) :
    Scan pat given rest (s + 1) (consumed ++ [c]) := by
  refine h.extend hs ?_ fun t hlt hle => absurd (Nat.lt_of_lt_of_le hlt hle) (Nat.lt_irrefl s)
  rw [h.split, take_getElem? hc, append_assoc]

/-- The last byte of the pattern: its first occurrence. -/
theorem found (h : Scan pat given (c :: rest) s consumed) (hc : pat[s]? = some c) (hs : s + 1 = pat.length) :
    consumed ++ [c] = given ++ pat ∧ ¬ pat <:+: given ++ pat.dropLast := by
  have hpat : pat = pat.take s ++ [c] := by
    rw [← take_getElem? hc, hs, take_length]
  have hdrop : pat.dropLast = pat.take s := by
    rw [dropLast_eq_take, ← hs, Nat.add_sub_cancel]
  refine ⟨?_, ?_⟩
  · rw [h.split, append_assoc, ← hpat]
  · rw [hdrop, ← h.split]
    exact h.unseen

/-- A byte that starts nothing, with nothing held back. -/
theorem skip (h : Scan pat given (c :: rest) 0 consumed) (hc : pat[0]? ≠ some c) :
    Scan pat (given ++ [c]) rest 0 (consumed ++ [c]) := by
  refine h.extend h.state ?_ fun t _ hle _ => ?_
  · rw [h.split]
    simp
  · rwa [Nat.le_zero.mp hle]

/-- What is held back ends with the first `b` of the pattern, the most of it
that the byte continues. -/
theorem fall (h : Scan pat given (c :: rest) s consumed) {b : Nat} (hb : b < s) (hborder : pat.take b <:+ pat.take s)
    (hc : pat[b]? = some c) (hs : pat[s]? ≠ some c)
    (hmost : ∀ t, b < t → t < s → pat.take t <:+ pat.take s → pat[t]? ≠ some c) :
    Scan pat (given ++ pat.take (s - b)) rest (b + 1) (consumed ++ [c]) := by
  have hstate := h.state
  refine h.extend (by omega) ?_ fun t hlt hle hsuffix => ?_
  · obtain ⟨w, hw⟩ := hborder
    have hlen := congrArg List.length hw
    rw [length_append, length_take, length_take] at hlen
    have hfront : pat.take (s - b) = w := by
      have htake : pat.take (s - b) = (pat.take s).take (s - b) := by
        rw [take_take, Nat.min_eq_left (Nat.sub_le s b)]
      rw [htake, ← hw, show s - b = w.length by omega, take_left]
    rw [h.split, take_getElem? hc, hfront, ← hw]
    simp
  · rcases Nat.lt_or_eq_of_le hle with hlt' | rfl
    · exact hmost t hlt hlt' hsuffix
    · exact hs

/-- The byte continues nothing that is held back: all of it is given out, and
the byte is looked at again. -/
theorem give (h : Scan pat given (c :: rest) s consumed) (hs : pat[s]? ≠ some c)
    (hnone : ∀ t, 0 < t → t < s → pat.take t <:+ pat.take s → pat[t]? ≠ some c) :
    Scan pat (given ++ pat.take s) (c :: rest) 0 consumed where
  state := Nat.zero_lt_of_lt h.state
  split := by rw [take_zero, append_nil, h.split]
  unseen := h.unseen
  best t b ht hget hhead hsuffix := by
    obtain rfl : c = b := by simpa using hhead
    rcases Nat.lt_or_ge s t with hlt | hge
    · exact h.best t c hlt hget rfl hsuffix
    have hlt := (List.getElem?_eq_some_iff.mp hget).1
    rcases Nat.lt_or_eq_of_le hge with hlt' | rfl
    · refine hnone t ht hlt' ?_ hget
      refine suffix_of_suffix_length_le hsuffix ⟨given, h.split.symm⟩ ?_
      rw [length_take, length_take]
      omega
    · exact hs hget

end Scan

end OpenResty.Lib
