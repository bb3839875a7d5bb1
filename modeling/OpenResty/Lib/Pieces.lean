/-
A list cut at its separators into the pieces that are not empty, and joined again: what
is lost is the separators with nothing between them and those at the ends.
-/
import Mathlib.Algebra.Order.Ring.Nat
import Mathlib.Data.List.Infix

namespace OpenResty.Lib.Pieces

open List

variable {α : Type} {d c : α} {s a b : List α}

/-- Every separator stands between two pieces. -/
structure Kept (d : α) (s : List α) : Prop where
  between : ¬ [d, d] <:+: s
  head : s.head? ≠ some d
  last : s.getLast? ≠ some d

theorem Kept.cons (hc : c ≠ d) (h : Kept d s) : Kept d (c :: s) where
  between hinfix := by
    rcases infix_cons_iff.mp hinfix with hprefix | hinfix
    · exact hc (cons_prefix_cons.mp hprefix).1.symm
    · exact h.between hinfix
  head := by simpa using hc
  last := by
    cases s with
    | nil => simpa using hc
    | cons e s => simpa using h.last

theorem Kept.sep (hne : s ≠ []) (hc : c ≠ d) (h : Kept d s) : Kept d (c :: d :: s) where
  between hinfix := by
    rcases infix_cons_iff.mp hinfix with hprefix | hinfix
    · exact hc (cons_prefix_cons.mp hprefix).1.symm
    · rcases infix_cons_iff.mp hinfix with hprefix | hinfix
      · obtain ⟨t, rfl⟩ := (cons_prefix_cons.mp hprefix).2
        exact h.head rfl
      · exact h.between hinfix
  head := by simpa using hc
  last := by
    obtain ⟨e, s, rfl⟩ := exists_cons_of_ne_nil hne
    simpa using h.last

theorem kept_between (h : c ≠ d) : Kept d (c :: (s ++ [c])) ↔ ¬ [d, d] <:+: s := by
  constructor
  · rintro hkept ⟨t, u, rfl⟩
    exact hkept.between ⟨c :: t, u ++ [c], by simp⟩
  · intro hbetween
    refine ⟨fun hinfix => ?_, by simpa using h, ?_⟩
    · rcases infix_cons_iff.mp hinfix with hprefix | hinfix
      · exact h (cons_prefix_cons.mp hprefix).1.symm
      · rcases infix_concat_iff.mp hinfix with hsuffix | hinfix
        · obtain ⟨t, ht⟩ := hsuffix
          have hlast := congrArg List.getLast? ht
          simp only [getLast?_append, getLast?_cons_cons, getLast?_singleton, Option.some_or] at hlast
          exact h (Option.some.inj hlast).symm
        · exact hbetween hinfix
    · rw [← cons_append, getLast?_concat]
      simpa using h

variable [DecidableEq α]

def pieces (d : α) (s : List α) : List (List α) := (s.splitOn d).filter (· ≠ [])

/-- The pieces, joined. -/
def squeeze (d : α) (s : List α) : List α := [d].intercalate (pieces d s)

/-! ## The pieces -/

@[simp] theorem pieces_nil : pieces d [] = [] := rfl

@[simp] theorem pieces_sep : pieces d (d :: s) = pieces d s := by
  rw [pieces, splitOn_cons_eq_if_modifyHead, if_pos (beq_self_eq_true d), filter_cons_of_neg (by simp)]
  rfl

theorem pieces_append (a b : List α) : pieces d (a ++ d :: b) = pieces d a ++ pieces d b := by
  rw [pieces, splitOn_append_cons_self, filter_append]
  rfl

theorem pieces_of_notMem (h : d ∉ s) (hne : s ≠ []) : pieces d s = [s] := by
  rw [pieces, splitOn_eq_singleton h]
  simp [hne]

theorem pieces_append_of_notMem (h : d ∉ a) (hne : a ≠ []) (b : List α) : pieces d (a ++ d :: b) = a :: pieces d b := by
  rw [pieces_append, pieces_of_notMem h hne, singleton_append]

/-- An element that is not a separator makes the first piece longer, or is one. -/
theorem pieces_cons (h : c ≠ d) (s : List α) :
    pieces d (c :: s) = if s.head? = some d ∨ s = [] then [c] :: pieces d s else (pieces d s).modifyHead (c :: ·) := by
  have hsplit : (c :: s).splitOn d = (s.splitOn d).modifyHead (c :: ·) := by
    rw [splitOn_cons_eq_if_modifyHead, if_neg (by simpa using h)]
  cases s with
  | nil => simp [pieces, hsplit]
  | cons e s =>
    rw [pieces, hsplit]
    by_cases he : e = d
    · subst he
      rw [if_pos (.inl rfl), pieces, splitOn_cons_eq_if_modifyHead, if_pos (beq_self_eq_true e), modifyHead_cons,
        filter_cons_of_pos (by simp), filter_cons_of_neg (by simp)]
    · obtain ⟨p, ps, hps⟩ := exists_cons_of_ne_nil (splitOn_ne_nil d s)
      have hsplit' : (e :: s).splitOn d = (e :: p) :: ps := by
        rw [splitOn_cons_eq_if_modifyHead, if_neg (by simpa using he), hps]
        rfl
      rw [if_neg (by simp [he]), pieces, hsplit', modifyHead_cons, filter_cons_of_pos (by simp),
        filter_cons_of_pos (by simp), modifyHead_cons]

theorem pieces_ne_nil (h : c ≠ d) (s : List α) : pieces d (c :: s) ≠ [] := by
  induction s generalizing c with
  | nil => simp [pieces_cons h]
  | cons e s ih =>
    rw [pieces_cons h]
    split
    · exact cons_ne_nil _ _
    · next hnot =>
      have he : e ≠ d := fun he => hnot (.inl (congrArg some he))
      simpa using ih he

theorem ne_nil_of_mem_pieces (h : a ∈ pieces d s) : a ≠ [] := by
  simpa using (mem_filter.mp h).2

/-! ## The joined pieces -/

@[simp] theorem squeeze_nil : squeeze d [] = [] := rfl

@[simp] theorem squeeze_sep : squeeze d (d :: s) = squeeze d s := by
  rw [squeeze, pieces_sep, squeeze]

theorem squeeze_eq_nil : squeeze d s = [] ↔ pieces d s = [] := by
  constructor
  · intro h
    by_contra hne
    obtain ⟨p, ps, hps⟩ := exists_cons_of_ne_nil hne
    have hp := ne_nil_of_mem_pieces (d := d) (s := s) (by rw [hps]; exact mem_cons_self)
    rw [squeeze, hps] at h
    cases ps with
    | nil => exact hp (by simpa using h)
    | cons q qs =>
      rw [intercalate_cons_cons] at h
      simp at h
  · intro h
    rw [squeeze, h]
    rfl

/-- What an element that is not a separator adds -/
theorem squeeze_cons (h : c ≠ d) (s : List α) :
    squeeze d (c :: s) = c :: if s.head? = some d ∧ squeeze d s ≠ [] then d :: squeeze d s else squeeze d s := by
  rw [squeeze, pieces_cons h]
  cases s with
  | nil => rfl
  | cons e s =>
    by_cases he : e = d
    · subst he
      rw [if_pos (.inl rfl)]
      by_cases hnil : squeeze e (e :: s) = []
      · rw [if_neg (by simp [hnil]), hnil, squeeze_eq_nil.mp hnil]
        rfl
      · rw [if_pos ⟨rfl, hnil⟩, intercalate_cons_of_ne_nil (mt squeeze_eq_nil.mpr hnil)]
        rfl
    · rw [if_neg (by simp [he]), if_neg (by simp [he]), squeeze]
      obtain ⟨p, ps, hps⟩ := exists_cons_of_ne_nil (pieces_ne_nil he s)
      rw [hps]
      cases ps with
      | nil => simp
      | cons q qs =>
        rw [modifyHead_cons, intercalate_cons_cons, intercalate_cons_cons]
        rfl

/-- What is joined is kept. -/
theorem kept_squeeze (d : α) (s : List α) : Kept d (squeeze d s) := by
  induction s with
  | nil => exact ⟨by simp, by simp, by simp⟩
  | cons c s ih =>
    by_cases hc : c = d
    · subst hc
      rwa [squeeze_sep]
    · rw [squeeze_cons hc]
      split
      · next h => exact ih.sep h.2 hc
      · exact ih.cons hc

/-- All that is lost of a list without doubled separators, and none at its end, is one at its head. -/
theorem squeeze_eq_tail (hbetween : ¬ [d, d] <:+: s) (hlast : s.getLast? ≠ some d) :
    squeeze d s = if s.head? = some d then s.tail else s := by
  induction s with
  | nil => simp
  | cons c s ih =>
    have hrest : squeeze d s = if s.head? = some d then s.tail else s := by
      cases s with
      | nil => simp
      | cons e s => exact ih (fun h => hbetween (h.trans (suffix_cons c _).isInfix)) (by simpa using hlast)
    by_cases hc : c = d
    · subst hc
      have hhead : s.head? ≠ some c := by
        intro hhead
        obtain ⟨s, rfl⟩ := head?_eq_some_iff.mp hhead
        exact hbetween ⟨[], s, rfl⟩
      rw [squeeze_sep, hrest, if_neg hhead, if_pos (by rfl), List.tail_cons]
    · have hout : (if (c :: s).head? = some d then (c :: s).tail else c :: s) = c :: s := if_neg (by simpa using hc)
      rw [squeeze_cons hc, hrest, hout]
      by_cases hhead : s.head? = some d
      · obtain ⟨s, rfl⟩ := head?_eq_some_iff.mp hhead
        have hne : s ≠ [] := by
          rintro rfl
          exact hlast (by simp)
        rw [if_pos hhead, if_pos ⟨hhead, hne⟩, List.tail_cons]
      · rw [if_neg hhead, if_neg fun h => hhead h.1]

theorem squeeze_eq_self : squeeze d s = s ↔ Kept d s := by
  constructor
  · intro h
    rw [← h]
    exact kept_squeeze d s
  · intro h
    rw [squeeze_eq_tail h.between h.last, if_neg h.head]

theorem squeeze_sublist (d : α) (s : List α) : (squeeze d s).Sublist s := by
  induction s with
  | nil => exact .slnil
  | cons c s ih =>
    by_cases hc : c = d
    · subst hc
      rw [squeeze_sep]
      exact ih.cons c
    · rw [squeeze_cons hc]
      refine List.Sublist.cons_cons c ?_
      split
      · next h =>
        obtain ⟨s, rfl⟩ := head?_eq_some_iff.mp h.1
        have hhead := (kept_squeeze d (d :: s)).head
        -- what is joined does not begin with the separator
        generalize squeeze d (d :: s) = x at ih hhead
        cases ih with
        | cons _ ih => exact ih.cons_cons d
        | cons_cons _ _ => exact absurd rfl hhead
      · exact ih

theorem mem_squeeze {e : α} (he : e ≠ d) : e ∈ squeeze d s ↔ e ∈ s := by
  induction s with
  | nil => simp
  | cons c s ih =>
    by_cases hc : c = d
    · subst hc
      rw [squeeze_sep, ih, mem_cons, or_iff_right he]
    · rw [squeeze_cons hc, mem_cons, mem_cons]
      refine or_congr Iff.rfl ?_
      split
      · rw [mem_cons, or_iff_right he, ih]
      · exact ih

/-- An element at the end that is not a separator stays there. -/
theorem squeeze_concat (h : c ≠ d) (s : List α) : ∃ s', squeeze d (s ++ [c]) = s' ++ [c] := by
  induction s with
  | nil => exact ⟨[], by rw [nil_append, squeeze_cons h]; simp⟩
  | cons e s ih =>
    obtain ⟨s', hs'⟩ := ih
    by_cases he : e = d
    · subst he
      exact ⟨s', by rw [cons_append, squeeze_sep, hs']⟩
    · rw [cons_append, squeeze_cons he, hs']
      split
      · exact ⟨e :: d :: s', rfl⟩
      · exact ⟨e :: s', rfl⟩

/-- Squeezed by two separators, a list is itself only if it is for each. -/
theorem squeeze_squeeze_eq_self {e : α} : squeeze e (squeeze d s) = s ↔ Kept d s ∧ Kept e s := by
  constructor
  · intro h
    have hle := (squeeze_sublist e (squeeze d s)).length_le
    rw [h] at hle
    have hd := (squeeze_sublist d s).eq_of_length_le hle
    rw [hd] at h
    exact ⟨squeeze_eq_self.mp hd, squeeze_eq_self.mp h⟩
  · rintro ⟨hd, he⟩
    rw [squeeze_eq_self.mpr hd, squeeze_eq_self.mpr he]

theorem squeeze_of_notMem (h : d ∉ s) (hne : s ≠ []) : squeeze d s = s := by
  rw [squeeze, pieces_of_notMem h hne, intercalate_singleton]

theorem squeeze_append (ha : d ∉ a) (hs : s.head? ≠ some d) : squeeze d (a ++ s) = a ++ squeeze d s := by
  induction a with
  | nil => rfl
  | cons c a ih =>
    have hhead : (a ++ s).head? ≠ some d := by
      cases a with
      | nil => exact hs
      | cons e a => simpa using fun h : e = d => ha (by simp [h])
    rw [cons_append, squeeze_cons (by rintro rfl; simp at ha), if_neg fun h => hhead h.1,
      ih fun h => ha (mem_cons_of_mem _ h), cons_append]

/-- What is joined begins with an element of the front, or with the first behind it. -/
theorem head_squeeze {e : α} (he : e ≠ d) (s t : List α) :
    ∃ h x, squeeze d (s ++ e :: t) = h :: x ∧ (h ∈ s ∨ h = e) := by
  induction s with
  | nil => exact ⟨e, _, squeeze_cons he t, .inr rfl⟩
  | cons c s ih =>
    by_cases hc : c = d
    · obtain ⟨h, x, hx, hmem⟩ := ih
      subst hc
      exact ⟨h, x, by rw [cons_append, squeeze_sep, hx], hmem.imp_left (mem_cons_of_mem _)⟩
    · exact ⟨c, _, by rw [cons_append, squeeze_cons hc], .inl mem_cons_self⟩

/-! ## Between two equal elements -/

/-- A list between two equal elements stays between them. -/
theorem squeeze_between (h : c ≠ d) (s : List α) :
    ∃ w, squeeze d (c :: (s ++ [c])) = c :: (w ++ [c]) ∧ w.Sublist s ∧ ∀ e, e ≠ d → e ≠ c → (e ∈ w ↔ e ∈ s) := by
  obtain ⟨w, hw⟩ : ∃ w, squeeze d (c :: (s ++ [c])) = c :: (w ++ [c]) := by
    obtain ⟨s', hs'⟩ := squeeze_concat h s
    rw [squeeze_cons h, hs']
    split
    · exact ⟨d :: s', rfl⟩
    · exact ⟨s', rfl⟩
  refine ⟨w, hw, ?_, fun e hd hc => ?_⟩
  · have hsub := squeeze_sublist d (c :: (s ++ [c]))
    rw [hw] at hsub
    exact (append_sublist_append_right [c]).mp (cons_sublist_cons.mp hsub)
  · have hmem : e ∈ squeeze d (c :: (s ++ [c])) ↔ e ∈ c :: (s ++ [c]) := mem_squeeze hd
    rw [hw] at hmem
    simpa [hc] using hmem

/-- The last piece of a list that ends with an element of its own holds that element at its end. -/
theorem pieces_concat (h : c ≠ d) (hs : c ∉ s) :
    ∃ ms last, pieces d (s ++ [c]) = ms ++ [last ++ [c]] ∧ ∀ m ∈ ms, c ∉ m := by
  induction s with
  | nil =>
    refine ⟨[], [], ?_, by simp⟩
    rw [nil_append, pieces_cons h]
    simp
  | cons e s ih =>
    obtain ⟨ms, last, hpieces, hms⟩ := ih fun hmem => hs (mem_cons_of_mem _ hmem)
    have hce : c ≠ e := fun heq => hs (heq ▸ mem_cons_self)
    by_cases he : e = d
    · subst he
      exact ⟨ms, last, by rw [cons_append, pieces_sep, hpieces], hms⟩
    · rw [cons_append, pieces_cons he, hpieces]
      split
      · exact ⟨[e] :: ms, last, rfl, by simpa [hce] using hms⟩
      · cases ms with
        | nil => exact ⟨[], e :: last, rfl, by simp⟩
        | cons m ms =>
          refine ⟨(e :: m) :: ms, last, rfl, ?_⟩
          simpa [hce] using hms

end OpenResty.Lib.Pieces
