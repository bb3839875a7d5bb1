/-
Fields in a text whose pieces stand between separators: a field begins a piece, its value stands
behind `len + 1` items and goes up to the next separator. Whether a field begins is told by a
test, and a test that takes too much for a field is seen in the values that are found.
-/
import Mathlib.Data.List.Basic
import Mathlib.Data.List.TakeWhile

namespace OpenResty.Lib.Fields

open Nat

open List hiding getElem?_eq_some_iff

variable {α : Type} [DecidableEq α]

/-- The value that begins a text, up to a separator. -/
def value (d : α) (s : List α) : List α := s.takeWhile (· ≠ d)

/-- The text behind the first separator. -/
def after (d : α) (s : List α) : List α := (s.dropWhile (· ≠ d)).drop 1

theorem length_after_le (d : α) (s : List α) : (after d s).length ≤ s.length := by
  rw [after, length_drop]
  have := length_dropWhile_le (· ≠ d) s
  omega

/-- The values of the fields; `start` tells whether a piece begins. -/
def scan (d : α) (len : Nat) (m : List α → Bool) : Bool → List α → List (List α)
  | _, [] => []
  | start, c :: s =>
    if start = true ∧ m (c :: s) = true then
      value d (s.drop len) :: scan d len m true (after d (s.drop len))
    else scan d len m (c == d) s
termination_by _ s => s.length
decreasing_by
  · have := length_after_le d (s.drop len)
    rw [length_drop] at this
    simp only [length_cons]
    omega
  · simp

/-- A piece of `s` begins with `t`. -/
def Starts (d : α) (start : Bool) (s t : List α) : Prop := start = true ∧ t = s ∨ ∃ u, s = u ++ d :: t

/-- Two tests: `m` takes a text for a field when there is an item behind its `len` first that is
no separator, and `g` when there is no separator among all of them. -/
structure Tests (d : α) (len : Nat) (m g : List α → Bool) : Prop where
  le : ∀ s, g s = true → m s = true
  item : ∀ s, m s = true → ∃ c, s[len]? = some c ∧ c ≠ d
  whole : ∀ s, g s = true → d ∉ s.take (len + 1)

variable {d c : α} {len : Nat} {m g : List α → Bool} {start : Bool} {s t : List α}

theorem scan_nil : scan d len m start [] = [] := by rw [scan]

theorem scan_field (h : m (c :: s) = true) :
    scan d len m true (c :: s) = value d (s.drop len) :: scan d len m true (after d (s.drop len)) := by
  rw [scan, if_pos ⟨rfl, h⟩]

theorem scan_skip (h : ¬ (start = true ∧ m (c :: s) = true)) :
    scan d len m start (c :: s) = scan d len m (c == d) s := by
  rw [scan, if_neg h]

theorem value_append (h : d ∉ t) (s : List α) : value d (t ++ s) = t ++ value d s := by
  refine takeWhile_append_of_pos fun c hc => decide_eq_true ?_
  rintro rfl
  exact h hc

theorem after_append (h : d ∉ t) (s : List α) : after d (t ++ s) = after d s := by
  rw [after, dropWhile_append_of_pos, after]
  refine fun c hc => decide_eq_true ?_
  rintro rfl
  exact h hc

theorem value_sep (d : α) (s : List α) : value d (d :: s) = [] := takeWhile_cons_of_neg (by simp)

theorem after_sep (d : α) (s : List α) : after d (d :: s) = s := by
  rw [after, dropWhile_cons_of_neg (by simp)]
  rfl

/-- Inside of a piece nothing begins. -/
theorem scan_inside (s : List α) : scan d len m false s = scan d len m true (after d s) := by
  induction s with
  | nil => exact scan_nil.trans scan_nil.symm
  | cons c s ih =>
    rw [scan_skip fun h => Bool.false_ne_true h.1]
    by_cases hc : c = d
    · subst hc
      rw [beq_self_eq_true, after_sep]
    · have hnot : d ∉ [c] := fun hmem => hc (mem_singleton.mp hmem).symm
      rw [beq_eq_false_iff_ne.mpr hc, ih]
      exact congrArg (scan d len m true) (after_append hnot s).symm

/-! ## Two tests -/

/-- What begins behind the first item. -/
theorem Starts.tail (h : Starts d (c == d) s t) : Starts d start (c :: s) t := by
  rcases h with ⟨hc, rfl⟩ | ⟨u, rfl⟩
  · exact .inr ⟨[], by rw [eq_of_beq hc]; rfl⟩
  · exact .inr ⟨c :: u, rfl⟩

theorem starts_cons (h : Starts d start (c :: s) t) : start = true ∧ t = c :: s ∨ Starts d (c == d) s t := by
  rcases h with h | ⟨u, hu⟩
  · exact .inl h
  · cases u with
    | nil =>
      obtain ⟨rfl, rfl⟩ := List.cons.inj hu
      exact .inr (.inl ⟨beq_self_eq_true c, rfl⟩)
    | cons e u =>
      obtain ⟨rfl, rfl⟩ := List.cons.inj hu
      exact .inr (.inr ⟨u, rfl⟩)

/-- What begins behind a separator begins behind the first one, or is the first. -/
theorem starts_after (u t : List α) : Starts d true (after d (u ++ d :: t)) t := by
  induction u with
  | nil =>
    rw [nil_append, after_sep]
    exact .inl ⟨rfl, rfl⟩
  | cons e u ih =>
    by_cases he : e = d
    · subst he
      rw [cons_append, after_sep]
      exact .inr ⟨u, rfl⟩
    · have hnot : d ∉ [e] := fun hmem => he (mem_singleton.mp hmem).symm
      have heq : after d ([e] ++ (u ++ d :: t)) = after d (u ++ d :: t) := after_append hnot _
      exact heq ▸ ih

theorem Starts.behind (h : Starts d true (after d s) t) : t = [] ∨ ∃ u, s = u ++ d :: t := by
  by_cases hd : d ∈ s
  · obtain ⟨u, w, rfl, hu⟩ := eq_append_cons_of_mem hd
    rw [after_append hu, after_sep] at h
    rcases h with ⟨-, rfl⟩ | ⟨v, rfl⟩
    · exact .inr ⟨u, rfl⟩
    · exact .inr ⟨u ++ d :: v, by rw [append_assoc]; rfl⟩
  · have hnil := after_append hd []
    rw [append_nil] at hnil
    rw [hnil] at h
    rcases h with ⟨-, rfl⟩ | ⟨v, hv⟩
    · exact .inl rfl
    · exact absurd hv.symm (append_ne_nil_of_right_ne_nil v (cons_ne_nil d t))

namespace Tests

omit [DecidableEq α] in
theorem lt_length (h : Tests d len m g) (hm : m s = true) : len < s.length := by
  obtain ⟨c, hc, -⟩ := h.item s hm
  exact (List.getElem?_eq_some_iff.mp hc).1

omit [DecidableEq α] in
theorem ne_nil (h : Tests d len m g) (hm : m s = true) :
    s ≠ [] := ne_nil_of_length_pos (zero_lt_of_lt (h.lt_length hm))

/-- A field that begins inside of what is taken for the name of one has a shorter value. -/
theorem swallow_here (h : Tests d len m g) {k : Nat} (hk : 0 < k) (hle : k ≤ len) (hg : g (s.drop k) = true) :
    ∃ v, scan d len g true (s.drop k) = v :: scan d len g true (after d (s.drop (len + 1))) ∧
      v.length < (value d (s.drop (len + 1))).length := by
  have hlen := h.lt_length (h.le _ hg)
  have hwhole := h.whole _ hg
  obtain ⟨c, t, ht⟩ := exists_cons_of_ne_nil (h.ne_nil (h.le _ hg))
  have hdrop : t.drop len = s.drop (len + 1 + k) := by
    have hcons : (c :: t).drop (len + 1) = t.drop len := rfl
    rw [← hcons, ← ht, drop_drop, Nat.add_comm k]
  have hsplit : s.drop (len + 1) = (s.drop (len + 1)).take k ++ t.drop len := by
    have htake := take_append_drop k (s.drop (len + 1))
    rw [drop_drop] at htake
    rw [hdrop, htake]
  have hnot : d ∉ (s.drop (len + 1)).take k := by
    intro hmem
    refine hwhole (mem_of_mem_drop (i := len + 1 - k) ?_)
    rw [drop_take, drop_drop, show k + (len + 1 - k) = len + 1 by omega,
      show len + 1 - (len + 1 - k) = k by omega]
    exact hmem
  rw [ht] at hg ⊢
  refine ⟨value d (t.drop len), ?_, ?_⟩
  · rw [scan_field hg, hsplit, after_append hnot]
  · rw [hsplit, value_append hnot, length_append, length_take, length_drop]
    rw [length_drop] at hlen
    omega

/-- Inside of what is taken for the name of a field one field may begin. -/
theorem swallow (h : Tests d len m g) (hm : m s = true) {k : Nat} (hk : 0 < k) (hle : k ≤ len) (start : Bool) :
    scan d len g start (s.drop k) = scan d len g true (after d (s.drop (len + 1))) ∨
      ∃ v, scan d len g start (s.drop k) = v :: scan d len g true (after d (s.drop (len + 1))) ∧
        v.length < (value d (s.drop (len + 1))).length := by
  obtain ⟨c, hc, hne⟩ := h.item s hm
  obtain ⟨n, hn⟩ : ∃ n, len = k + n := ⟨len - k, by omega⟩
  induction n generalizing k start with
  | zero =>
    by_cases hb : start = true ∧ g (s.drop k) = true
    · rw [hb.1]
      exact .inr (h.swallow_here hk hle hb.2)
    · obtain ⟨hlt, rfl⟩ := List.getElem?_eq_some_iff.mp hc
      have hcons : s.drop k = s[len] :: s.drop (len + 1) := by
        rw [show k = len by omega]
        exact drop_eq_getElem_cons hlt
      rw [hcons] at hb ⊢
      rw [scan_skip hb, beq_eq_false_iff_ne.mpr hne, scan_inside]
      exact .inl rfl
  | succ n ih =>
    by_cases hb : start = true ∧ g (s.drop k) = true
    · rw [hb.1]
      exact .inr (h.swallow_here hk hle hb.2)
    · have hlt : k < s.length := by
        have := h.lt_length hm
        omega
      rw [drop_eq_getElem_cons hlt] at hb ⊢
      rw [scan_skip hb]
      exact ih (succ_pos k) (by omega) _ (by omega)

/-- What the exact test finds from the second item of a field on. -/
theorem skip_field (h : Tests d len m g) (hm : m (c :: s) = true) :
    scan d len g (c == d) s = scan d len g true (after d (s.drop len)) ∨
      ∃ v, scan d len g (c == d) s = v :: scan d len g true (after d (s.drop len)) ∧
        v.length < (value d (s.drop len)).length := by
  cases len with
  | succ n => exact h.swallow hm Nat.one_pos (succ_le_succ (Nat.zero_le n)) (c == d)
  | zero =>
    obtain ⟨e, he, hne⟩ := h.item _ hm
    cases he
    rw [beq_eq_false_iff_ne.mpr hne, scan_inside]
    exact .inl rfl

/-- When every field of the one test is one of the other, both find the same. -/
theorem scan_congr (h : Tests d len m g) (hall : ∀ t, Starts d start s t → m t = true → g t = true) :
    scan d len m start s = scan d len g start s := by
  induction hn : s.length using Nat.strong_induction_on generalizing start s with
  | _ n ih =>
    subst hn
    cases s with
    | nil => exact scan_nil.trans scan_nil.symm
    | cons c s =>
      by_cases hm : start = true ∧ m (c :: s) = true
      · obtain ⟨rfl, hm⟩ := hm
        have hg := hall _ (.inl ⟨rfl, rfl⟩) hm
        have hlt : (after d (s.drop len)).length < (c :: s).length := by
          have := length_after_le d (s.drop len)
          rw [length_drop] at this
          rw [length_cons]
          omega
        rw [scan_field hm, scan_field hg, ih _ hlt _ rfl]
        intro t ht hmt
        rcases ht.behind with rfl | ⟨u, hu⟩
        · exact absurd rfl (h.ne_nil hmt)
        · refine hall t (.inr ⟨c :: (s.take len ++ u), ?_⟩) hmt
          rw [cons_append, append_assoc, ← hu, take_append_drop]
      · have hg : ¬ (start = true ∧ g (c :: s) = true) := fun hg => hm ⟨hg.1, h.le _ hg.2⟩
        rw [scan_skip hm, scan_skip hg]
        exact ih _ (lt_succ_self _) (fun t ht => hall t ht.tail) rfl

/-- The one test finds as much as the other, and the same only when each of its fields is one of
the other. -/
theorem scan_le (h : Tests d len m g) (start : Bool) (s : List α) :
    (scan d len g start s).length ≤ (scan d len m start s).length ∧
      (scan d len m start s = scan d len g start s → ∀ t, Starts d start s t → m t = true → g t = true) := by
  induction hn : s.length using Nat.strong_induction_on generalizing start s with
  | _ n ih =>
    subst hn
    cases s with
    | nil =>
      refine ⟨by rw [scan_nil, scan_nil], fun _ t ht hm => ?_⟩
      rcases ht with ⟨-, rfl⟩ | ⟨u, hu⟩
      · exact absurd rfl (h.ne_nil hm)
      · exact absurd hu.symm (append_ne_nil_of_right_ne_nil u (cons_ne_nil d t))
    | cons c s =>
      by_cases hm : start = true ∧ m (c :: s) = true
      · obtain ⟨rfl, hm⟩ := hm
        have hlt : (after d (s.drop len)).length < (c :: s).length := by
          have := length_after_le d (s.drop len)
          rw [length_drop] at this
          rw [length_cons]
          omega
        obtain ⟨hle, hsame⟩ := ih _ hlt true _ rfl
        by_cases hg : g (c :: s) = true
        · rw [scan_field hm, scan_field hg]
          refine ⟨succ_le_succ hle, fun heq t ht hmt => ?_⟩
          have hwhole := h.whole _ hg
          rw [take_succ_cons, mem_cons, not_or] at hwhole
          rcases starts_cons ht with ⟨-, rfl⟩ | ⟨hc, -⟩ | ⟨u, rfl⟩
          · exact hg
          · exact absurd (eq_of_beq hc).symm hwhole.1
          · refine hsame (List.cons.inj heq).2 t ?_ hmt
            have hlen : len ≤ u.length := by
              by_contra hshort
              obtain ⟨n, rfl⟩ : ∃ n, len = u.length + (n + 1) := ⟨len - u.length - 1, by omega⟩
              rw [take_length_add_append] at hwhole
              exact hwhole.2 (mem_append_right u mem_cons_self)
            rw [drop_append_of_le_length hlen]
            exact starts_after _ t
        · have hskip : ¬ (true = true ∧ g (c :: s) = true) := fun hg' => hg hg'.2
          rw [scan_field hm, scan_skip hskip]
          rcases h.skip_field hm with heq | ⟨v, heq, hshort⟩
          · rw [heq]
            refine ⟨le_succ_of_le hle, fun hsame => ?_⟩
            have := congrArg List.length hsame
            rw [length_cons] at this
            omega
          · rw [heq]
            refine ⟨succ_le_succ hle, fun hsame => ?_⟩
            rw [(List.cons.inj hsame).1] at hshort
            exact absurd hshort (Nat.lt_irrefl _)
      · have hg : ¬ (start = true ∧ g (c :: s) = true) := fun hg => hm ⟨hg.1, h.le _ hg.2⟩
        rw [scan_skip hm, scan_skip hg]
        obtain ⟨hle, hsame⟩ := ih _ (lt_succ_self _) (c == d) s rfl
        refine ⟨hle, fun heq t ht hmt => ?_⟩
        rcases starts_cons ht with ⟨hstart, rfl⟩ | ht
        · exact absurd ⟨hstart, hmt⟩ hm
        · exact hsame heq t ht hmt

/-- Two tests find the same exactly when no piece tells them apart. -/
theorem scan_eq_iff (h : Tests d len m g) (s : List α) :
    scan d len m true s = scan d len g true s ↔ ∀ t, Starts d true s t → m t = true → g t = true :=
  ⟨(h.scan_le true s).2, h.scan_congr⟩

end Tests

/-! ## Pieces -/

/-- A test that looks at the piece only. -/
structure Local (d : α) (len : Nat) (g : List α → Bool) : Prop where
  lt : ∀ s, g s = true → len < s.length
  piece : ∀ p w, d ∉ p → g (p ++ d :: w) = g p

/-- The value of a piece that is a field. -/
def field (len : Nat) (g : List α → Bool) (p : List α) :
    Option (List α) := if g p then some (p.drop (len + 1)) else none

/-- A piece gives its value, and the text goes on behind it. -/
theorem scan_piece (h : Local d len g) {p w : List α} (hp : d ∉ p) (hw : w = [] ∨ ∃ v, w = d :: v)
    (hg : g (p ++ w) = g p) :
    scan d len g true (p ++ w) = (field len g p).toList ++ scan d len g true (after d w) := by
  have hvalue : value d w = [] := by
    rcases hw with rfl | ⟨v, rfl⟩
    · rfl
    · exact value_sep d v
  rw [field]
  cases p with
  | nil =>
    have hnil : g [] = false := by
      by_contra hg
      exact absurd (h.lt [] (Bool.not_eq_false _ ▸ hg)) (Nat.not_lt_zero len)
    rw [nil_append] at hg ⊢
    rw [if_neg (by rw [hnil]; exact Bool.false_ne_true)]
    rcases hw with rfl | ⟨v, rfl⟩
    · exact scan_nil.trans scan_nil.symm
    · rw [scan_skip fun hfield => by rw [hg, hnil] at hfield; exact Bool.false_ne_true hfield.2, beq_self_eq_true, after_sep]
      rfl
  | cons c p =>
    rw [mem_cons, not_or] at hp
    rw [cons_append] at hg ⊢
    by_cases hfield : g (c :: p) = true
    · have hlen : len ≤ p.length := le_of_lt_succ (h.lt _ hfield)
      have hnot : d ∉ p.drop len := fun hmem => hp.2 (mem_of_mem_drop hmem)
      rw [scan_field (hg.trans hfield), if_pos hfield, drop_append_of_le_length hlen, value_append hnot, hvalue,
        after_append hnot, append_nil]
      rfl
    · rw [scan_skip fun hboth => hfield (hg ▸ hboth.2), if_neg hfield,
        beq_eq_false_iff_ne.mpr fun heq => hp.1 heq.symm,
        scan_inside, after_append hp.2]
      rfl

omit [DecidableEq α] in
theorem filterMap_one (len : Nat) (g : List α → Bool) (p : List α) :
    [p].filterMap (field len g) = (field len g p).toList := by
  rw [filterMap_cons]
  cases field len g p <;> rfl

/-- What is found are the values of the pieces. -/
theorem scan_eq_pieces (h : Local d len g) (s : List α) :
    scan d len g true s = (s.splitOn d).filterMap (field len g) := by
  induction hn : s.length using Nat.strong_induction_on generalizing s with
  | _ n ih =>
    subst hn
    by_cases hd : d ∈ s
    · obtain ⟨p, w, rfl, hp⟩ := eq_append_cons_of_mem hd
      have hlt : w.length < (p ++ d :: w).length := by
        rw [length_append, length_cons]
        omega
      rw [scan_piece h hp (.inr ⟨w, rfl⟩) (h.piece p w hp), after_sep, ih _ hlt w rfl, splitOn_append_cons_self,
        splitOn_eq_singleton hp, filterMap_append, filterMap_one]
    · have hpiece := scan_piece h hd (.inl rfl) (congrArg g (append_nil s))
      rw [append_nil] at hpiece
      have hnil : scan d len g true (after d []) = [] := scan_nil
      rw [hpiece, hnil, append_nil, splitOn_eq_singleton hd, filterMap_one]

end OpenResty.Lib.Fields
