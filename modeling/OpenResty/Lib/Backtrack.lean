/-
Regular expressions as a backtracking engine matches them: each one gives the
lengths it can match at a place, in the order in which they are tried. A search
takes the first length at the first place that has one.
-/
import Mathlib.Algebra.Order.Ring.Nat
import Mathlib.Data.List.Infix

namespace OpenResty.Lib.Backtrack

open List

abbrev Bytes := List UInt8

inductive Regex
  | lit (s : Bytes)
  /-- `^` -/
  | start
  /-- `$`, at the end or before a newline there -/
  | stop
  | seq (a b : Regex)
  | alt (a b : Regex)
  /-- `(a)+`, for an `a` that matches no empty text -/
  | plus (a : Regex)

/-- Greedy: what goes on comes before what stops. -/
def plusEnds (ends : Nat → Bytes → List Nat) : Nat → Nat → Bytes → List Nat
  | 0, _, _ => []
  | fuel + 1, i, rest =>
    (ends i rest).flatMap fun n => (plusEnds ends fuel (i + n) (rest.drop n)).map (n + ·) ++ [n]

/-- The lengths at offset `i`, where `rest` is left. -/
def Regex.ends : Regex → Nat → Bytes → List Nat
  | lit s, _, rest => if s <+: rest then [s.length] else []
  | start, i, _ => if i = 0 then [0] else []
  | stop, _, rest => if rest = [] ∨ rest = [10] then [0] else []
  | seq a b, i, rest => (a.ends i rest).flatMap fun n => (b.ends (i + n) (rest.drop n)).map (n + ·)
  | alt a b, i, rest => a.ends i rest ++ b.ends i rest
  | plus a, i, rest => plusEnds a.ends rest.length i rest

/-- The offset and length of the first match from offset `i` on. -/
def search (r : Regex) : Nat → Bytes → Option (Nat × Nat)
  | i, [] => (r.ends i []).head?.map fun n => (i, n)
  | i, c :: rest =>
    match (r.ends i (c :: rest)).head? with
    | some n => some (i, n)
    | none => search r (i + 1) rest

/-- The first match replaced. -/
def sub (r : Regex) (subj new : Bytes) : Bytes :=
  match search r 0 subj with
  | some (i, n) => subj.take i ++ new ++ subj.drop (i + n)
  | none => subj

variable {r a b : Regex} {s t u v w : Bytes} {c : UInt8} {i k m n : Nat}

theorem plusEnds_succ (ends : Nat → Bytes → List Nat) (k i : Nat) (t : Bytes) :
    plusEnds ends (k + 1) i t = (ends i t).flatMap fun n => (plusEnds ends k (i + n) (t.drop n)).map (n + ·) ++ [n] := rfl

theorem ends_stop (i : Nat) (t : Bytes) : Regex.stop.ends i t = if t = [] ∨ t = [10] then [0] else [] := rfl

theorem ends_seq (a b : Regex) (i : Nat) (t : Bytes) :
    (Regex.seq a b).ends i t = (a.ends i t).flatMap fun n => (b.ends (i + n) (t.drop n)).map (n + ·) := rfl

theorem ends_plus (a : Regex) (i : Nat) (t : Bytes) : (Regex.plus a).ends i t = plusEnds a.ends t.length i t := rfl

theorem search_nil (r : Regex) (i : Nat) : search r i [] = (r.ends i []).head?.map fun n => (i, n) := rfl

theorem search_cons (r : Regex) (i : Nat) (c : UInt8) (t : Bytes) :
    search r i (c :: t) =
      match (r.ends i (c :: t)).head? with
      | some n => some (i, n)
      | none => search r (i + 1) t := rfl

/-! ## Matches at one place -/

theorem ends_lit_of_not (h : ¬ s <+: t) : (Regex.lit s).ends i t = [] := if_neg h

theorem ends_lit (s t : Bytes) (i : Nat) :
    (Regex.lit s).ends i (s ++ t) = [s.length] := if_pos (prefix_append s t)

theorem ends_seq_of_nil (h : a.ends i t = []) :
    (Regex.seq a b).ends i t = [] := by rw [ends_seq, h, flatMap_nil]

theorem ends_seq_lit (s t : Bytes) (i : Nat) (b : Regex) :
    (Regex.seq (.lit s) b).ends i (s ++ t) = (b.ends (i + s.length) t).map (s.length + ·) := by
  rw [ends_seq, ends_lit, flatMap_singleton, drop_left]

theorem ends_seq_byte (c : UInt8) (t : Bytes) (i : Nat) (b : Regex) :
    (Regex.seq (.lit [c]) b).ends i (c :: t) = (b.ends (i + 1) t).map (1 + ·) := ends_seq_lit [c] t i b

theorem ends_start_seq (t : Bytes) (b : Regex) : (Regex.seq .start b).ends 0 t = b.ends 0 t := by
  have hstart : Regex.start.ends 0 t = [0] := rfl
  rw [ends_seq, hstart, flatMap_singleton]
  simp

theorem ends_start_of_pos (hi : 0 < i) (t : Bytes) : Regex.start.ends i t = [] := if_neg hi.ne'

/-- Where the text ends in no newline, only the lengths that take all of it can stop. -/
theorem ends_seq_stop (hlines : (10 : UInt8) ∉ t) (h : ∀ n ∈ a.ends i t, n < t.length) :
    (Regex.seq a .stop).ends i t = [] := by
  rw [ends_seq, flatMap_eq_nil_iff]
  intro n hn
  have hlength : (t.drop n).length ≠ 0 := by
    have := h n hn
    rw [length_drop]
    omega
  have hrest : ¬(t.drop n = [] ∨ t.drop n = [10]) := by
    rintro (hnil | hline)
    · exact hlength (by rw [hnil]; rfl)
    · exact hlines (mem_of_mem_drop (i := n) (by rw [hline]; exact .head _))
  rw [ends_stop, if_neg hrest, map_nil]

/-! ## Repetitions of a literal -/

/-- `u` written `k` times -/
def times (k : Nat) (u : Bytes) : Bytes := (List.replicate k u).flatten

@[simp] theorem times_zero (u : Bytes) : times 0 u = [] := rfl

@[simp] theorem times_succ (k : Nat) (u : Bytes) : times (k + 1) u = u ++ times k u := rfl

@[simp] theorem length_times (k : Nat) (u : Bytes) : (times k u).length = k * u.length := by
  induction k with
  | zero => rw [times_zero, length_nil, Nat.zero_mul]
  | succ k ih => rw [times_succ, length_append, ih, Nat.succ_mul, Nat.add_comm]

theorem ends_plus_of_not (h : ¬ u <+: t) : (Regex.plus (.lit u)).ends i t = [] := by
  rw [ends_plus]
  cases t.length with
  | zero => rfl
  | succ fuel => rw [plusEnds_succ, ends_lit_of_not h, flatMap_nil]

/-- A length of a repetition is that of some copies. -/
theorem mem_ends_plus (h : m ∈ (Regex.plus (.lit u)).ends i t) :
    ∃ k, 0 < k ∧ m = (times k u).length ∧ times k u <+: t := by
  rw [ends_plus] at h
  generalize t.length = fuel at h
  induction fuel generalizing i m t with
  | zero => cases h
  | succ fuel ih =>
    by_cases hprefix : u <+: t
    · obtain ⟨t, rfl⟩ := hprefix
      rw [plusEnds_succ, ends_lit, flatMap_singleton, mem_append, mem_map, drop_left] at h
      rcases h with ⟨n, hn, rfl⟩ | hone
      · obtain ⟨k, -, rfl, hk⟩ := ih hn
        refine ⟨k + 1, Nat.succ_pos k, ?_, ?_⟩
        · rw [times_succ, length_append]
        · rw [times_succ]
          exact (prefix_append_right_inj u).mpr hk
      · refine ⟨1, Nat.one_pos, ?_, ?_⟩
        · rw [mem_singleton.mp hone, times_succ, times_zero, append_nil]
        · rw [times_succ, times_zero, append_nil]
          exact prefix_append u t
    · rw [plusEnds_succ, ends_lit_of_not hprefix] at h
      cases h

/-- As many copies as there are come first. -/
theorem head?_ends_plus (hu : u ≠ []) (hk : 0 < k) (h : ¬ u <+: t) :
    ((Regex.plus (.lit u)).ends i (times k u ++ t)).head? = some (times k u).length := by
  have hpos := length_pos_iff.mpr hu
  have hfuel : k ≤ (times k u ++ t).length := by
    rw [length_append, length_times]
    have := Nat.le_mul_of_pos_right k hpos
    omega
  rw [ends_plus]
  generalize (times k u ++ t).length = fuel at hfuel
  induction k generalizing i fuel with
  | zero => exact absurd hk (Nat.lt_irrefl 0)
  | succ k ih =>
    obtain ⟨fuel, rfl⟩ := Nat.exists_eq_succ_of_ne_zero (by omega : fuel ≠ 0)
    rw [times_succ, append_assoc, plusEnds_succ, ends_lit, flatMap_singleton, drop_left, head?_append]
    by_cases hzero : k = 0
    · subst hzero
      have hnil : plusEnds (Regex.lit u).ends fuel (i + u.length) t = [] := by
        cases fuel with
        | zero => rfl
        | succ fuel => rw [plusEnds_succ, ends_lit_of_not h, flatMap_nil]
      rw [times_zero, nil_append, hnil, append_nil]
      rfl
    · rw [head?_map, ih (Nat.pos_of_ne_zero hzero) fuel (by omega), length_append]
      rfl

/-! ## The search -/

/-- Nothing matches at a place of the first text, so the search goes on behind it. -/
theorem search_skip (h : ∀ v w, v ++ w = s → w ≠ [] → r.ends (i + v.length) (w ++ t) = []) :
    search r i (s ++ t) = search r (i + s.length) t := by
  induction s generalizing i with
  | nil => rfl
  | cons c s ih =>
    have hhere := h [] (c :: s) rfl (cons_ne_nil c s)
    rw [length_nil, Nat.add_zero, cons_append] at hhere
    rw [cons_append, search_cons, hhere, head?_nil]
    refine (ih fun v w hvw hw => ?_).trans (by rw [length_cons, Nat.add_right_comm, Nat.add_assoc])
    have := h (c :: v) w (by rw [cons_append, hvw]) hw
    rwa [length_cons, Nat.add_comm v.length, ← Nat.add_assoc] at this

theorem search_here (h : (r.ends i t).head? = some n) : search r i t = some (i, n) := by
  cases t with
  | nil => rw [search_nil, h]; rfl
  | cons c t => rw [search_cons, h]

theorem sub_of_search (h : search r 0 (s ++ t ++ u) = some (s.length, t.length)) (new : Bytes) :
    sub r (s ++ t ++ u) new = s ++ new ++ u := by
  rw [sub, h]
  simp only
  rw [← length_append, drop_left, append_assoc s t u, take_left]

theorem exists_search_lit (h : s <:+: t) (i : Nat) :
    ∃ u v, t = u ++ s ++ v ∧ search (.lit s) i t = some (i + u.length, s.length) := by
  induction t generalizing i with
  | nil =>
    obtain rfl : s = [] := infix_nil.mp h
    exact ⟨[], [], rfl, rfl⟩
  | cons c t ih =>
    by_cases hprefix : s <+: c :: t
    · obtain ⟨v, hv⟩ := hprefix
      exact ⟨[], v, hv.symm, search_here (by rw [← hv, ends_lit]; rfl)⟩
    · obtain ⟨u, v, rfl, hsearch⟩ := ih ((infix_cons_iff.mp h).resolve_left hprefix) (i + 1)
      refine ⟨c :: u, v, rfl, ?_⟩
      rw [search_cons, ends_lit_of_not hprefix]
      exact hsearch.trans (by rw [length_cons, Nat.add_assoc, Nat.add_comm 1])

/-- A text that occurs is replaced at one of its places. -/
theorem exists_sub_lit (h : s <:+: t) : ∃ u v, t = u ++ s ++ v ∧ ∀ new, sub (.lit s) t new = u ++ new ++ v := by
  obtain ⟨u, v, rfl, hsearch⟩ := exists_search_lit h 0
  rw [Nat.zero_add] at hsearch
  exact ⟨u, v, rfl, fun new => sub_of_search hsearch new⟩

theorem sub_of_none (h : search r 0 t = none) (new : Bytes) : sub r t new = t := by rw [sub, h]

end OpenResty.Lib.Backtrack
