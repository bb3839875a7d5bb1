/-
What `normalise_path` makes of an absolute path, and when it is what the segments give on a stack.

The expression takes `.` and `..` for names too, so that a `..` behind one of them is lost with it.
-/
import Mathlib.Data.List.TakeWhile
import OpenResty.Lib.StackMoves
import OpenResty.Waf.NormalisePath

namespace OpenResty.Waf.NormalisePath

open Lib Lib.StackMoves List Option Nat

variable {S ds : List Seg} {l : Seg}

/-! ## The law -/

def IsName (s : Seg) : Prop := s ≠ empty ∧ s ≠ dot ∧ s ≠ dotdot

instance (s : Seg) : Decidable (IsName s) := inferInstanceAs (Decidable (_ ∧ _))

/-- What a segment does on the stack. -/
def move (s : Seg) : Move Seg := if IsName s then .push s else if s = dotdot then .pop else .skip

/-- The stack for some segments, with the last name on top. -/
def resolve (ds : List Seg) : List Seg := run [] (ds.map move)

/-- The names that are left; the path of a directory keeps a slash at its end. -/
def resolved (p : Bytes) : Bytes :=
  let (ds, l) := splitPath p
  if IsName l then text (empty :: (resolve ds).reverse) l else text (empty :: (resolve (ds ++ [l])).reverse) empty

structure PathRight (p : Bytes) : Prop where
  path : normalise_path p = resolved p
  again : normalise_path (normalise_path p) = normalise_path p
  inner : ∀ s ∈ (splitPath (normalise_path p)).1.tail, IsName s
  last : (splitPath (normalise_path p)).2 = empty ∨ IsName (splitPath (normalise_path p)).2

/-! ## The condition -/

/-- Where a substitution takes `.` or `..` for the name of a `..`, the segments that follow take off
all that is on the stack. -/
def Careful (S : List Seg) : List Seg → Prop
  | [] => True
  | s :: ds =>
    if s ≠ empty ∧ ds.head? = some dotdot then
      (¬ IsName s → S.length ≤ need (ds.tail.map move)) ∧ Careful S ds.tail
    else Careful ((move s).apply S) (behindSlash ds)
termination_by ds => ds.length
decreasing_by
  · rw [length_tail, length_cons]
    omega
  · exact lt_succ_of_le (behindSlash_length ds)

/-- How many times a substitution takes `.` for the name of a `..`. -/
def dotsTaken : List Seg → Nat
  | [] => 0
  | s :: ds =>
    if s ≠ empty ∧ ds.head? = some dotdot then (if s = dot then 1 else 0) + dotsTaken ds.tail
    else dotsTaken (behindSlash ds)
termination_by ds => ds.length
decreasing_by
  · rw [length_tail, length_cons]
    omega
  · exact lt_succ_of_le (behindSlash_length ds)

/-- All of some substitutions are careful. -/
def AllCareful : Nat → List Seg → Prop
  | 0, _ => True
  | k + 1, ds => Careful [] ds ∧ AllCareful k (pass ds)

def allDotsTaken : Nat → List Seg → Nat
  | 0, _ => 0
  | k + 1, ds => dotsTaken ds + allDotsTaken k (pass ds)

/-- The path does not end with `.` or `..`, no `..` that takes a name off is lost, and those above the
root go in pairs. -/
structure PathFits (p : Bytes) : Prop where
  last : (splitPath p).2 = empty ∨ IsName (splitPath p).2
  careful : AllCareful (splitPath p).1.length (splitPath p).1
  paired : (need ((splitPath p).1.map move) + allDotsTaken (splitPath p).1.length (splitPath p).1) % 2 = 0

/-! ## Substitutions until nothing matches -/

def passes : Nat → List Seg → List Seg
  | 0, ds => ds
  | k + 1, ds => passes k (pass ds)

theorem passes_of_pass {k : Nat} (h : pass ds = ds) : passes k ds = ds := by
  induction k with
  | zero => rfl
  | succ k ih => rw [passes, h, ih]

theorem behindSlash_suffix (ds : List Seg) : behindSlash ds <:+ ds := by
  unfold behindSlash
  split
  · exact List.tail_suffix ds
  · exact dropWhile_suffix _

theorem pass_le (ds : List Seg) : (pass ds).length ≤ ds.length := by
  fun_induction pass ds with
  | case1 => exact Nat.le_refl _
  | case2 s ds _ ih =>
    rw [length_tail] at ih
    rw [length_cons, length_cons]
    omega
  | case3 s ds _ ih => exact succ_le_succ (ih.trans (behindSlash_length ds))

/-- A substitution that takes no segment away changes nothing. -/
theorem pass_of_length (h : (pass ds).length = ds.length) : pass ds = ds := by
  fun_induction pass ds with
  | case1 => rfl
  | case2 s ds hcancel ih =>
    have hle := pass_le ds.tail
    obtain ⟨t, rest, rfl⟩ := exists_cons_of_ne_nil (l := ds) fun hnil => by simp [hnil] at hcancel
    rw [length_cons, length_cons, length_cons, List.tail_cons] at h
    rw [List.tail_cons] at hle
    omega
  | case3 s ds _ ih =>
    have hlen := succ.inj h
    have hsame := (behindSlash_suffix ds).eq_of_length ((behindSlash_length ds).antisymm (hlen ▸ pass_le _))
    rw [hsame] at ih hlen ⊢
    rw [ih hlen]

theorem gsub_of_not_found {s : Bytes} (h : found s = false) : gsub 0 s = s := by
  induction s with
  | nil => rfl
  | cons c s ih =>
    rw [found, Bool.or_eq_false_iff, isSome_eq_false_iff, isNone_iff_eq_none] at h
    rw [gsub_none h.1, ih h.2]

/-- **The loop is so many substitutions on the segments**, and then one more changes nothing. -/
theorem normalise_text {k : Nat} (hk : ds.length ≤ k) (l : Seg) :
    normalise_path (text ds l) = text (passes k ds) l ∧ pass (passes k ds) = passes k ds := by
  induction k generalizing ds with
  | zero =>
    rw [eq_nil_of_length_eq_zero (le_zero.mp hk)]
    have hnot : ¬ found l.1 = true := by
      intro hfound
      have hshorter := gsub_shorter hfound
      rw [gsub_last] at hshorter
      exact lt_irrefl _ hshorter
    refine ⟨?_, by rw [passes, pass]⟩
    rw [text, normalise_path, if_neg hnot]
    rfl
  | succ k ih =>
    by_cases hfound : found (text ds l) = true
    · have hshorter := gsub_shorter hfound
      rw [gsub_text] at hshorter
      have hlt : (pass ds).length < ds.length := by
        refine lt_of_le_of_ne (pass_le ds) fun hlen => ?_
        rw [pass_of_length hlen] at hshorter
        exact lt_irrefl _ hshorter
      rw [normalise_path, if_pos hfound, gsub_text]
      exact ih (by omega)
    · have hsame : pass ds = ds := by
        have hgsub := gsub_of_not_found (eq_false_of_ne_true hfound)
        rw [gsub_text] at hgsub
        exact (text_inj hgsub).1
      rw [normalise_path, if_neg hfound, passes_of_pass hsame]
      exact ⟨rfl, hsame⟩

/-! ## What is left -/

/-- Nothing matches on two segments in a row. -/
def Stays (s t : Seg) : Prop := t ≠ dot ∧ t ≠ empty ∧ (s ≠ empty → t ≠ dotdot)

theorem chain_of_pass (h : pass ds = ds) : ds.IsChain Stays := by
  fun_induction pass ds with
  | case1 => exact .nil
  | case2 s ds hcancel _ =>
    have hlen := congrArg List.length h
    have hle := pass_le ds.tail
    obtain ⟨t, rest, rfl⟩ := exists_cons_of_ne_nil (l := ds) fun hnil => by simp [hnil] at hcancel
    rw [length_cons, length_cons, length_cons, List.tail_cons] at hlen
    rw [List.tail_cons] at hle
    omega
  | case3 s ds hnot ih =>
    have htail := tail_eq_of_cons_eq h
    have hlen := congrArg List.length htail
    have hsame := (behindSlash_suffix ds).eq_of_length ((behindSlash_length ds).antisymm (hlen ▸ pass_le _))
    rw [hsame] at ih htail
    cases ds with
    | nil => exact .singleton s
    | cons t rest =>
      have hdot : t ≠ dot := by
        rintro rfl
        have hlen := congrArg List.length hsame
        simp [behindSlash] at hlen
      have hempty : t ≠ empty := by
        rintro rfl
        have hlen := congrArg List.length hsame
        have hle := (dropWhile_suffix (l := rest) (p := (· = empty))).length_le
        simp [behindSlash, show empty ≠ dot by decide] at hlen
        omega
      exact .cons_cons ⟨hdot, hempty, fun hs ht => hnot ⟨hs, by rw [ht]; rfl⟩⟩ (ih htail)

theorem names_of_chain {s : Seg} (h : (s :: ds).IsChain Stays) (hs : s ≠ empty) : ∀ t ∈ ds, IsName t := by
  induction ds generalizing s with
  | nil => exact fun t ht => (not_mem_nil ht).elim
  | cons t ds ih =>
    obtain ⟨⟨hdot, hempty, hdotdot⟩, hrest⟩ := isChain_cons_cons.mp h
    intro t' ht'
    rcases mem_cons.mp ht' with rfl | ht'
    · exact ⟨hempty, hdot, hdotdot hs⟩
    · exact ih hrest hempty t' ht'

theorem move_names (h : ∀ s ∈ ds, IsName s) : ds.map move = ds.map .push :=
  map_congr_left fun s hs => by rw [move, if_pos (h s hs)]

theorem resolve_names (h : ∀ s ∈ ds, IsName s) : resolve ds = ds.reverse := by
  rw [resolve, move_names h, run_push, append_nil]

theorem need_names (h : ∀ s ∈ ds, IsName s) : need (ds.map move) = 0 := by
  rw [move_names h, need_push]

/-- An absolute path on which nothing matches has names only, or a `..` at the root. -/
theorem names_or_above (h : (empty :: ds).IsChain Stays) :
    (∀ s ∈ ds, IsName s) ∨ need ((empty :: ds).map move) = 1 ∧ ¬ ∀ s ∈ ds, IsName s := by
  cases ds with
  | nil => exact .inl fun t ht => (not_mem_nil ht).elim
  | cons t ds =>
    obtain ⟨⟨hdot, hempty, -⟩, hrest⟩ := isChain_cons_cons.mp h
    have hnames := names_of_chain hrest hempty
    by_cases hdotdot : t = dotdot
    · refine .inr ⟨?_, fun hall => (hall t mem_cons_self).2.2 hdotdot⟩
      rw [hdotdot]
      change need (ds.map move) + 1 = 1
      rw [need_names hnames]
    · refine .inl fun s hs => ?_
      rcases mem_cons.mp hs with rfl | hs
      · exact ⟨hempty, hdot, hdotdot⟩
      · exact hnames s hs

/-! ## What a substitution keeps -/

theorem behindSlash_skips (ds : List Seg) : ∃ gone, ds = gone ++ behindSlash ds ∧ ∀ m ∈ gone.map move, m = .skip := by
  unfold behindSlash
  split
  · next hdot =>
    cases ds with
    | nil => cases hdot
    | cons s ds =>
      rw [some.inj hdot]
      exact ⟨[dot], rfl, fun m hm => mem_singleton.mp hm⟩
  · refine ⟨ds.takeWhile (· = empty), takeWhile_append_dropWhile.symm, fun m hm => ?_⟩
    obtain ⟨s, hs, rfl⟩ := mem_map.mp hm
    have hempty : s = empty := by simpa using mem_takeWhile_imp hs
    rw [hempty]
    rfl

theorem run_behindSlash (S ds : List Seg) : run S ((behindSlash ds).map move) = run S (ds.map move) := by
  obtain ⟨gone, heq, hskip⟩ := behindSlash_skips ds
  conv_rhs => rw [heq, map_append, run_skip hskip]

theorem need_behindSlash (ds : List Seg) : need ((behindSlash ds).map move) = need (ds.map move) := by
  obtain ⟨gone, heq, hskip⟩ := behindSlash_skips ds
  conv_rhs => rw [heq, map_append, need_skip hskip]

/-- How many names a `..` takes off with the segment that it is lost with. -/
def taken (s : Seg) : Nat := if IsName s then 0 else if s = dot then 1 else 2

theorem taken_pos {s : Seg} : 0 < taken s ↔ ¬ IsName s := by
  unfold taken
  by_cases hname : IsName s
  · rw [if_pos hname]
    exact iff_of_false (lt_irrefl 0) fun hnot => hnot hname
  · rw [if_neg hname]
    refine iff_of_true ?_ hname
    split <;> decide

theorem taken_mod (s : Seg) : taken s % 2 = if s = dot then 1 else 0 := by
  unfold taken
  by_cases hdot : s = dot
  · rw [if_neg fun hname => hname.2.1 hdot, if_pos hdot, if_pos hdot]
  · rw [if_neg hdot, if_neg hdot]
    split <;> rfl

theorem move_cancelled {s : Seg} (hs : s ≠ empty) (S : List Seg) (w : List (Move Seg)) :
    run S (move s :: .pop :: w) = run (S.drop (taken s)) w ∧ need (move s :: .pop :: w) = need w + taken s := by
  by_cases hname : IsName s
  · rw [move, if_pos hname, taken, if_pos hname]
    exact ⟨rfl, rfl⟩
  · by_cases hdot : s = dot
    · rw [hdot]
      exact ⟨by rw [show taken dot = 1 from rfl, drop_one]; rfl, rfl⟩
    · have hdotdot : s = dotdot := by
        by_contra hne
        exact hname ⟨hs, hdot, hne⟩
      rw [hdotdot]
      refine ⟨?_, rfl⟩
      change run S.tail.tail w = run (S.drop 2) w
      rw [← drop_one, ← drop_one, drop_drop]

/-- The segments where a `..` is lost. -/
theorem map_cancelled (s : Seg) (h : ds.head? = some dotdot) :
    (s :: ds).map move = move s :: .pop :: ds.tail.map move := by
  cases ds with
  | nil => cases h
  | cons t ds =>
    rw [some.inj h]
    rfl

/-- A substitution leaves no fewer names. -/
theorem run_pass_le (S ds : List Seg) : (run S (ds.map move)).length ≤ (run S ((pass ds).map move)).length := by
  fun_induction pass ds generalizing S with
  | case1 => exact Nat.le_refl _
  | case2 s ds hcancel ih =>
    rw [map_cancelled s hcancel.2, (move_cancelled hcancel.1 S _).1]
    exact (length_run_drop S _ _).trans (ih S)
  | case3 s ds _ ih =>
    rw [map_cons, map_cons, run_cons, run_cons, ← run_behindSlash]
    exact ih _

/-- **A careful substitution leaves the same names**. -/
theorem run_pass (h : Careful S ds) : run S ((pass ds).map move) = run S (ds.map move) := by
  fun_induction Careful S ds with
  | case1 S => rw [pass]
  | case2 S s ds hcancel ih =>
    rw [pass, if_pos hcancel, map_cancelled s hcancel.2, (move_cancelled hcancel.1 S _).1]
    change run S ((pass ds.tail).map move) = _
    rw [ih h.2]
    by_cases hname : IsName s
    · rw [taken, if_pos hname, drop_zero]
    · have hdropped : (S.drop (taken s)).length ≤ need (ds.tail.map move) := by
        rw [length_drop]
        exact (sub_le _ _).trans (h.1 hname)
      rw [run_of_le (h.1 hname), run_of_le hdropped]
  | case3 S s ds hnot ih =>
    rw [pass, if_neg hnot, map_cons, map_cons, run_cons, run_cons, ← run_behindSlash _ ds]
    exact ih h

/-- One that leaves as many is careful. -/
theorem careful_of_length (h : (run S ((pass ds).map move)).length = (run S (ds.map move)).length) :
    Careful S ds := by
  fun_induction Careful S ds with
  | case1 S => trivial
  | case2 S s ds hcancel ih =>
    rw [pass, if_pos hcancel, map_cancelled s hcancel.2, (move_cancelled hcancel.1 S _).1] at h
    change (run S ((pass ds.tail).map move)).length = _ at h
    have hle := run_pass_le S ds.tail
    have hdrop := length_run_drop S (ds.tail.map move) (taken s)
    refine ⟨fun hname => ?_, ih (hle.antisymm' (h.trans_le hdrop))⟩
    exact (run_drop_iff (taken_pos.mpr hname)).mp (hdrop.antisymm (hle.trans_eq h))
  | case3 S s ds hnot ih =>
    rw [pass, if_neg hnot, map_cons, map_cons, run_cons, run_cons, ← run_behindSlash _ ds] at h
    exact ih h

/-- What goes above the root changes by pairs, and by one for every `.` that is taken for a name. -/
theorem need_pass (h : Careful S ds) : (need (ds.map move) - S.length) % 2 =
    (need ((pass ds).map move) - S.length + dotsTaken ds) % 2 := by
  fun_induction Careful S ds with
  | case1 S => rw [pass, dotsTaken]; rfl
  | case2 S s ds hcancel ih =>
    have hneed := (move_cancelled hcancel.1 S (ds.tail.map move)).2
    have hmod := taken_mod s
    have hpos := @taken_pos s
    have hsame := ih h.2
    rw [pass, if_pos hcancel, dotsTaken, if_pos hcancel, map_cancelled s hcancel.2, hneed, ← hmod]
    change _ = (need ((pass ds.tail).map move) - S.length + _) % 2
    by_cases hname : IsName s
    · have hzero : taken s = 0 := if_pos hname
      rw [hzero]
      omega
    · have hall := h.1 hname
      omega
  | case3 S s ds hnot ih =>
    have hsame := ih h
    rw [need_behindSlash] at hsame
    rw [pass, if_neg hnot, dotsTaken, if_neg hnot, map_cons, map_cons]
    cases hmove : move s with
    | skip =>
      rw [hmove] at hsame
      exact hsame
    | pop =>
      rw [hmove, Move.apply, length_tail] at hsame
      rw [need, need]
      omega
    | push a =>
      rw [hmove, Move.apply, length_cons] at hsame
      rw [need, need]
      omega

/-! ## All substitutions -/

theorem resolve_passes_le (k : Nat) (ds : List Seg) : (resolve ds).length ≤ (resolve (passes k ds)).length := by
  induction k generalizing ds with
  | zero => exact Nat.le_refl _
  | succ k ih => exact (run_pass_le [] ds).trans (ih (pass ds))

theorem resolve_passes_iff (k : Nat) (ds : List Seg) : resolve (passes k ds) = resolve ds ↔ AllCareful k ds := by
  induction k generalizing ds with
  | zero => exact iff_of_true rfl trivial
  | succ k ih =>
    rw [passes, AllCareful, ← ih]
    constructor
    · intro heq
      have hrest := resolve_passes_le k (pass ds)
      rw [heq] at hrest
      have hcareful : Careful [] ds := careful_of_length (hrest.antisymm (run_pass_le [] ds))
      exact ⟨hcareful, heq.trans (run_pass hcareful).symm⟩
    · rintro ⟨hcareful, heq⟩
      exact heq.trans (run_pass hcareful)

theorem need_passes {k : Nat} (h : AllCareful k ds) :
    (need (ds.map move) + allDotsTaken k ds) % 2 = need ((passes k ds).map move) % 2 := by
  induction k generalizing ds with
  | zero => rfl
  | succ k ih =>
    have hstep := need_pass h.1
    have hrest := ih h.2
    rw [length_nil, Nat.sub_zero, Nat.sub_zero] at hstep
    rw [passes, allDotsTaken]
    omega

theorem passes_empty (k : Nat) (ds : List Seg) : ∃ ds', passes k (empty :: ds) = empty :: ds' := by
  induction k generalizing ds with
  | zero => exact ⟨ds, rfl⟩
  | succ k ih =>
    rw [passes, pass, if_neg fun h => h.1 rfl]
    exact ih _

/-! ## When the path is right -/

/-- What is on the stack are names. -/
theorem names_resolve (ds : List Seg) : ∀ s ∈ (resolve ds).reverse, IsName s := by
  intro s hs
  rcases mem_run (mem_reverse.mp hs) with hnil | hpush
  · exact (not_mem_nil hnil).elim
  · obtain ⟨t, -, ht⟩ := mem_map.mp hpush
    unfold move at ht
    split at ht
    · next hname =>
      cases ht
      exact hname
    · split at ht <;> cases ht

/-- The segments that are left are the names in order. -/
theorem passes_iff {k : Nat} (hk : (empty :: ds).length ≤ k) :
    passes k (empty :: ds) = empty :: (resolve (empty :: ds)).reverse ↔
      AllCareful k (empty :: ds) ∧ (need ((empty :: ds).map move) + allDotsTaken k (empty :: ds)) % 2 = 0 := by
  obtain ⟨ds', hds'⟩ := passes_empty k ds
  have hchain := chain_of_pass (normalise_text hk empty).2
  rw [hds'] at hchain
  rw [← resolve_passes_iff]
  constructor
  · intro heq
    have hnames := names_resolve (empty :: ds)
    have hsame : resolve (passes k (empty :: ds)) = resolve (empty :: ds) := by
      rw [heq]
      change resolve (resolve (empty :: ds)).reverse = _
      rw [resolve_names hnames, reverse_reverse]
    refine ⟨hsame, ?_⟩
    rw [need_passes ((resolve_passes_iff _ _).mp hsame), heq]
    change need ((resolve (empty :: ds)).reverse.map move) % 2 = 0
    rw [need_names hnames]
  · rintro ⟨hsame, hpaired⟩
    rw [need_passes ((resolve_passes_iff _ _).mp hsame), hds'] at hpaired
    rcases names_or_above hchain with hnames | ⟨habove, -⟩
    · rw [hds'] at hsame ⊢
      rw [← hsame]
      change _ = empty :: (resolve ds').reverse
      rw [resolve_names hnames, reverse_reverse]
    · rw [habove] at hpaired
      cases hpaired

theorem resolve_last : resolve (ds ++ [empty]) = resolve ds := by
  unfold resolve
  rw [map_append, run_append]
  rfl

/-- The path with the names that are left. -/
theorem resolved_text (hl : l = empty ∨ IsName l) :
    resolved (text ds l) = text (empty :: (resolve ds).reverse) l := by
  unfold resolved
  rw [splitPath_text]
  dsimp only
  rcases hl with rfl | hname
  · rw [if_neg fun h => h.1 rfl, resolve_last]
  · rw [if_pos hname]

theorem text_right_iff (ds : List Seg) (l : Seg) :
    PathRight (text (empty :: ds) l) ↔ PathFits (text (empty :: ds) l) := by
  obtain ⟨hnorm, hfixed⟩ := normalise_text (Nat.le_refl (empty :: ds).length) l
  have hiff := passes_iff (Nat.le_refl (empty :: ds).length)
  have hsplit := splitPath_text (empty :: ds) l
  constructor
  · intro hright
    have hpath := hright.path
    have hlast : l = empty ∨ IsName l := by
      by_cases hname : IsName l
      · exact .inr hname
      · rw [hnorm, resolved, hsplit] at hpath
        dsimp only at hpath
        rw [if_neg hname] at hpath
        exact .inl (text_inj hpath).2
    rw [hnorm, resolved_text hlast] at hpath
    obtain ⟨hcareful, hpaired⟩ := hiff.mp (text_inj hpath).1
    exact ⟨by rwa [hsplit], by rwa [hsplit], by rwa [hsplit]⟩
  · intro hfits
    have hlast := hfits.last
    have hcareful := hfits.careful
    have hpaired := hfits.paired
    rw [hsplit] at hlast hcareful hpaired
    have hleft := hiff.mpr ⟨hcareful, hpaired⟩
    refine ⟨?_, ?_, ?_, ?_⟩
    · rw [hnorm, hleft, resolved_text hlast]
    · rw [hnorm, (normalise_text (Nat.le_refl _) l).1, passes_of_pass hfixed]
    · rw [hnorm, splitPath_text, hleft]
      exact names_resolve _
    · rw [hnorm, splitPath_text]
      exact hlast

/-- **An absolute path is right exactly if it does not end with `.` or `..`, no substitution loses a
`..` that takes a name off, and those above the root go in pairs.** -/
theorem path_right_iff (s : Bytes) : PathRight (slash :: s) ↔ PathFits (slash :: s) := by
  have htext := text_right_iff (splitPath s).1 (splitPath s).2
  rw [text, text_splitPath] at htext
  exact htext

/-- `a/b/c/../../../d` -/
def threeUp : Bytes := "a/b/c/../../../d".toUTF8.data.toList

/-- The second `..` is lost with the third, and `/a/b/d` is left. -/
theorem path_not_right : ¬ ∀ s : Bytes, PathRight (slash :: s) := by
  intro h
  have hpath := (h threeUp).path
  have honce : gsub 0 (slash :: threeUp) = "/a/b///d".toUTF8.data.toList := by decide +kernel
  have htwice : gsub 0 "/a/b///d".toUTF8.data.toList = "/a/b/d".toUTF8.data.toList := by decide +kernel
  rw [normalise_path, if_pos (by decide +kernel), honce, normalise_path, if_pos (by decide +kernel), htwice,
    normalise_path, if_neg (by decide +kernel)] at hpath
  exact absurd hpath (by decide +kernel)

end OpenResty.Waf.NormalisePath
