/-
The transform `normalise_path`: the substitution of a regular expression, made until nothing matches,
on the bytes of a path and on its segments.
-/
import OpenResty.Lib.Memory

namespace OpenResty.Waf.NormalisePath

open Lib List Option Nat

def slash : UInt8 := '/'.toUInt8

/-! ## The code -/

/-- The length of a match of `[^/][^/]*/\.\./|/\./|/{2,}` at the start of a text. -/
def matchAt (s : Bytes) : Option Nat :=
  let name := s.takeWhile (· ≠ slash)
  let slashes := s.takeWhile (· = slash)
  if name ≠ [] ∧ [slash, '.'.toUInt8, '.'.toUInt8, slash] <+: s.drop name.length then some (name.length + 4)
  else if [slash, '.'.toUInt8, slash] <+: s then some 3
  else if 2 ≤ slashes.length then some slashes.length
  else none

/-- `ngx.re.match`: somewhere there is a match. -/
def found : Bytes → Bool
  | [] => false
  | c :: s => (matchAt (c :: s)).isSome || found s

/-- `ngx.re.gsub` with a slash; so many bytes still belong to the last match. -/
def gsub : Nat → Bytes → Bytes
  | _, [] => []
  | n + 1, _ :: s => gsub n s
  | 0, c :: s =>
    match matchAt (c :: s) with
    | none => c :: gsub 0 s
    | some n => slash :: gsub (n - 1) s

variable {s : Bytes}

theorem matchAt_bounds {n : Nat} (h : matchAt s = some n) : 2 ≤ n ∧ n ≤ s.length := by
  unfold matchAt at h
  dsimp only at h
  split at h
  · next hname =>
    have hlen := hname.2.length_le
    rw [length_drop] at hlen
    cases h
    change 4 ≤ _ at hlen
    omega
  · split at h
    · next hdot =>
      have hlen := hdot.length_le
      cases h
      change 3 ≤ _ at hlen
      omega
    · split at h
      · next htwo =>
        cases h
        exact ⟨htwo, ( takeWhile_prefix _).length_le⟩
      · cases h

theorem gsub_drop (n : Nat) (s : Bytes) : gsub n s = gsub 0 (s.drop n) := by
  induction n generalizing s with
  | zero => rfl
  | succ n ih =>
    cases s with
    | nil => rfl
    | cons c s => exact ih s

theorem gsub_zero (c : UInt8) (s : Bytes) :
    gsub 0 (c :: s) =
      match matchAt (c :: s) with
      | none => c :: gsub 0 s
      | some n => slash :: gsub (n - 1) s := rfl

theorem gsub_none {c : UInt8} (h : matchAt (c :: s) = none) : gsub 0 (c :: s) = c :: gsub 0 s := by
  rw [gsub_zero, h]

theorem gsub_some {c : UInt8} {n : Nat} (h : matchAt (c :: s) = some n) :
    gsub 0 (c :: s) = slash :: gsub 0 (s.drop (n - 1)) := by
  rw [gsub_zero, h]
  exact congrArg (slash :: ·) (gsub_drop _ _)

theorem gsub_le (n : Nat) (s : Bytes) : (gsub n s).length ≤ s.length := by
  induction s generalizing n with
  | nil => cases n <;> exact Nat.le_refl _
  | cons c s ih =>
    cases n with
    | succ n => exact le_succ_of_le (ih n)
    | zero =>
      rw [gsub_zero]
      cases matchAt (c :: s) with
      | none => exact succ_le_succ (ih 0)
      | some n => exact succ_le_succ (ih (n - 1))

/-- A substitution makes a text shorter. -/
theorem gsub_shorter (h : found s = true) : (gsub 0 s).length < s.length := by
  induction s with
  | nil => cases h
  | cons c s ih =>
    rw [gsub_zero]
    cases hmatch : matchAt (c :: s) with
    | none =>
      rw [found, hmatch] at h
      exact succ_lt_succ (ih h)
    | some n =>
      obtain ⟨htwo, hle⟩ := matchAt_bounds hmatch
      have hrest := gsub_le 0 (s.drop (n - 1))
      rw [← gsub_drop, length_drop] at hrest
      dsimp only
      simp only [length_cons] at hle ⊢
      omega

/-- `normalise_path`, on what is a string. -/
def normalise_path (value : Bytes) : Bytes := if found value then normalise_path (gsub 0 value) else value
termination_by value.length
decreasing_by exact gsub_shorter (by assumption)

/-! ## Segments -/

/-- What stands between two slashes. -/
abbrev Seg := { s : Bytes // slash ∉ s }

def empty : Seg := ⟨[], not_mem_nil⟩

def dot : Seg := ⟨['.'.toUInt8], by decide⟩

def dotdot : Seg := ⟨['.'.toUInt8, '.'.toUInt8], by decide⟩

/-- The segments with a slash behind, and what stands behind the last slash. -/
def text : List Seg → Seg → Bytes
  | [], l => l
  | s :: ds, l => s ++ slash :: text ds l

/-- A byte in front of the first segment. -/
def consByte (c : { c : UInt8 // c ≠ slash }) : List Seg × Seg → List Seg × Seg
  | ([], l) => ([], ⟨c.1 :: l.1, by simp [l.2, c.2.symm]⟩)
  | (s :: ds, l) => (⟨c.1 :: s.1, by simp [s.2, c.2.symm]⟩ :: ds, l)

def splitPath : Bytes → List Seg × Seg
  | [] => ([], empty)
  | c :: s =>
    if h : c = slash then (empty :: (splitPath s).1, (splitPath s).2)
    else consByte ⟨c, h⟩ (splitPath s)

theorem text_consByte (c : { c : UInt8 // c ≠ slash }) (p : List Seg × Seg) :
    text (consByte c p).1 (consByte c p).2 = c.1 :: text p.1 p.2 := by
  obtain ⟨ds, l⟩ := p
  cases ds with
  | nil => rfl
  | cons s ds => rfl

theorem text_splitPath (s : Bytes) : text (splitPath s).1 (splitPath s).2 = s := by
  induction s with
  | nil => rfl
  | cons c s ih =>
    unfold splitPath
    split
    · next h =>
      rw [text, ih, h]
      rfl
    · rw [text_consByte, ih]

theorem splitPath_slash (s : Bytes) : splitPath (slash :: s) = (empty :: (splitPath s).1, (splitPath s).2) := by
  rw [splitPath, dif_pos rfl]

theorem splitPath_text (ds : List Seg) (l : Seg) : splitPath (text ds l) = (ds, l) := by
  induction ds with
  | nil =>
    obtain ⟨l, hl⟩ := l
    induction l with
    | nil => rfl
    | cons c l ih =>
      have hc : c ≠ slash := fun h => hl (h ▸ mem_cons_self)
      have hrest : slash ∉ l := fun h => hl (mem_cons_of_mem _ h)
      have hsplit := ih hrest
      change splitPath l = _ at hsplit
      change splitPath (c :: l) = _
      rw [splitPath, dif_neg hc, hsplit]
      rfl
  | cons s ds ih =>
    obtain ⟨s, hs⟩ := s
    induction s with
    | nil =>
      change splitPath (slash :: text ds l) = _
      rw [splitPath_slash, ih]
      rfl
    | cons c s ihs =>
      have hc : c ≠ slash := fun h => hs (h ▸ mem_cons_self)
      have hrest : slash ∉ s := fun h => hs (mem_cons_of_mem _ h)
      have hsplit := ihs hrest
      change splitPath (s ++ slash :: text ds l) = _ at hsplit
      change splitPath (c :: (s ++ slash :: text ds l)) = _
      rw [splitPath, dif_neg hc, hsplit]
      rfl

theorem text_inj {ds ds' : List Seg} {l l' : Seg} (h : text ds l = text ds' l') : ds = ds' ∧ l = l' := by
  have hsplit := splitPath_text ds l
  rw [h, splitPath_text] at hsplit
  exact ⟨(congrArg Prod.fst hsplit).symm, (congrArg Prod.snd hsplit).symm⟩

/-! ## A substitution on segments -/

/-- What is left of the segments behind a slash: `.` goes with the slash, and so do empty ones. -/
def behindSlash (ds : List Seg) : List Seg :=
  if ds.head? = some dot then ds.tail else ds.dropWhile (· = empty)

theorem behindSlash_length (ds : List Seg) : (behindSlash ds).length ≤ ds.length := by
  unfold behindSlash
  split
  · rw [length_tail]
    exact sub_le _ _
  · exact (dropWhile_suffix _).length_le

/-- What a substitution makes of the segments. -/
def pass : List Seg → List Seg
  | [] => []
  | s :: ds =>
    if s ≠ empty ∧ ds.head? = some dotdot then empty :: pass ds.tail else s :: pass (behindSlash ds)
termination_by ds => ds.length
decreasing_by
  · rw [length_tail, length_cons]
    omega
  · exact lt_succ_of_le (behindSlash_length ds)

theorem takeWhile_seg (s : Seg) (rest : Bytes) : (s.1 ++ slash :: rest).takeWhile (· ≠ slash) = s.1 := by
  rw [takeWhile_append_of_pos, takeWhile_cons_of_neg (by simp), append_nil]
  intro c hc
  simpa using fun h : c = slash => s.2 (h ▸ hc)

theorem takeWhile_last (l : Seg) : l.1.takeWhile (· ≠ slash) = l.1 := by
  rw [← append_nil l.1, takeWhile_append_of_pos, takeWhile_nil]
  intro c hc
  simpa using fun h : c = slash => l.2 (h ▸ hc)

/-- The next segment is read off the text. -/
theorem prefix_text {s : Seg} {ds : List Seg} {l : Seg} : s.1 ++ [slash] <+: text ds l ↔ ds.head? = some s := by
  cases ds with
  | nil =>
    refine iff_of_false (fun h => ?_) (by simp)
    exact l.2 (h.subset (by simp))
  | cons t ds =>
    rw [text, head?_cons, some_inj]
    constructor
    · rintro ⟨rest, heq⟩
      rw [append_assoc, singleton_append] at heq
      have hsame := congrArg (List.takeWhile (· ≠ slash)) heq
      rw [takeWhile_seg, takeWhile_seg] at hsame
      exact (Subtype.ext hsame).symm
    · rintro rfl
      exact ⟨text ds l, by simp⟩

theorem ne_slash {s : Seg} {c : UInt8} {rest : Bytes} (h : s.1 = c :: rest) : c ≠ slash :=
  fun hc => s.2 (by rw [h, hc]; exact mem_cons_self)

/-- Slashes at the start of a text are empty segments. -/
theorem dropWhile_text (ds : List Seg) (l : Seg) :
    (text ds l).dropWhile (· = slash) = text (ds.dropWhile (· = empty)) l := by
  induction ds with
  | nil =>
    rcases heq : l.1 with _ | ⟨c, rest⟩
    · rw [text, heq]
      exact heq.symm
    · rw [text, heq, dropWhile_cons_of_neg (by simpa using ne_slash heq)]
      exact heq.symm
  | cons s ds ih =>
    by_cases hs : s = empty
    · rw [hs, dropWhile_cons_of_pos (by simp)]
      exact ih
    · rw [dropWhile_cons_of_neg (by simpa using hs)]
      rcases heq : s.1 with _ | ⟨c, rest⟩
      · exact absurd (Subtype.ext heq) hs
      · rw [text, heq, cons_append, dropWhile_cons_of_neg (by simpa using ne_slash heq)]

/-- At a slash. -/
theorem gsub_slash (ds : List Seg) (l : Seg) :
    gsub 0 (slash :: text ds l) = slash :: gsub 0 (text (behindSlash ds) l) := by
  have hname : (slash :: text ds l).takeWhile (· ≠ slash) = [] := takeWhile_cons_of_neg (by simp)
  have hslashes : (slash :: text ds l).takeWhile (· = slash) = slash :: (text ds l).takeWhile (· = slash) :=
    takeWhile_cons_of_pos (by simp)
  have hdot : [slash, '.'.toUInt8, slash] <+: slash :: text ds l ↔ ds.head? = some dot := by
    rw [cons_prefix_cons, and_iff_right rfl]
    exact @prefix_text dot ds l
  have hmatch : matchAt (slash :: text ds l) =
      if ds.head? = some dot then some 3
      else if 1 ≤ ((text ds l).takeWhile (· = slash)).length then
        some (((text ds l).takeWhile (· = slash)).length + 1)
      else none := by
    unfold matchAt
    dsimp only
    rw [hname, hslashes, if_neg (fun h => h.1 rfl), length_cons]
    simp only [hdot, succ_le_succ_iff]
  by_cases hhead : ds.head? = some dot
  · rw [if_pos hhead] at hmatch
    rw [gsub_some hmatch, behindSlash, if_pos hhead]
    cases ds with
    | nil => cases hhead
    | cons s ds =>
      rw [some.inj hhead]
      rfl
  · have hdrop : (text ds l).drop ((text ds l).takeWhile (· = slash)).length = text (ds.dropWhile (· = empty)) l := by
      rw [← dropWhile_text]
      generalize text ds l = t
      induction t with
      | nil => rfl
      | cons c t ih =>
        by_cases hc : c = slash
        · rw [takeWhile_cons_of_pos (by simpa using hc), dropWhile_cons_of_pos (by simpa using hc)]
          exact ih
        · rw [takeWhile_cons_of_neg (by simpa using hc), dropWhile_cons_of_neg (by simpa using hc)]
          rfl
    rw [if_neg hhead] at hmatch
    rw [behindSlash, if_neg hhead, ← hdrop]
    by_cases hrun : 1 ≤ ((text ds l).takeWhile (· = slash)).length
    · rw [if_pos hrun] at hmatch
      rw [gsub_some hmatch, Nat.add_sub_cancel]
    · rw [if_neg hrun] at hmatch
      rw [gsub_none hmatch, lt_one_iff.mp (Nat.not_le.mp hrun), drop_zero]

/-- At a name, where the name with what follows it may match. -/
theorem matchAt_name {s : Seg} (hs : s ≠ empty) (ds : List Seg) (l : Seg) :
    matchAt (s.1 ++ slash :: text ds l) = if ds.head? = some dotdot then some (s.1.length + 4) else none := by
  have hne : s.1 ≠ [] := fun h => hs (Subtype.ext h)
  have hdotdot : [slash, '.'.toUInt8, '.'.toUInt8, slash] <+: slash :: text ds l ↔ ds.head? = some dotdot := by
    rw [cons_prefix_cons, and_iff_right rfl]
    exact @prefix_text dotdot ds l
  obtain ⟨c, rest, heq⟩ := exists_cons_of_ne_nil hne
  have hc := ne_slash heq
  have hslashes : (s.1 ++ slash :: text ds l).takeWhile (· = slash) = [] := by
    rw [heq, cons_append, takeWhile_cons_of_neg (by simpa using hc)]
  have hdot : ¬ [slash, '.'.toUInt8, slash] <+: s.1 ++ slash :: text ds l := by
    rw [heq, cons_append, cons_prefix_cons]
    exact fun h => hc h.1.symm
  unfold matchAt
  dsimp only
  rw [takeWhile_seg, drop_left, hslashes, if_neg hdot, if_neg (show ¬ 2 ≤ ([] : Bytes).length by decide)]
  simp only [hdotdot, ne_eq, hne, not_false_eq_true, true_and]

theorem gsub_cancel {s : Seg} {ds : List Seg} (hs : s ≠ empty) (hhead : ds.head? = some dotdot) (l : Seg) :
    gsub 0 (text (s :: ds) l) = slash :: gsub 0 (text ds.tail l) := by
  have hmatch := matchAt_name hs ds l
  rw [if_pos hhead] at hmatch
  obtain ⟨c, rest, heq⟩ := exists_cons_of_ne_nil fun h => hs (Subtype.ext h)
  cases ds with
  | nil => cases hhead
  | cons t ds =>
    rw [some.inj hhead] at hmatch ⊢
    rw [heq, cons_append] at hmatch
    rw [text, heq, cons_append, gsub_some hmatch, length_cons, List.tail_cons,
      show rest.length + 1 + 4 - 1 = rest.length + 4 by omega, ← drop_drop, drop_left]
    rfl

/-- A name that does not match is copied. -/
theorem gsub_copy {ds : List Seg} (s : Seg) (hnot : ¬ (s ≠ empty ∧ ds.head? = some dotdot)) (l : Seg) :
    gsub 0 (text (s :: ds) l) = s.1 ++ gsub 0 (slash :: text ds l) := by
  obtain ⟨s, hs⟩ := s
  induction s with
  | nil => rfl
  | cons c s ih =>
    have hne : (⟨c :: s, hs⟩ : Seg) ≠ empty := fun h => cons_ne_nil c s (congrArg Subtype.val h)
    have hhead : ds.head? ≠ some dotdot := fun h => hnot ⟨hne, h⟩
    have hmatch := matchAt_name hne ds l
    rw [if_neg hhead] at hmatch
    change matchAt (c :: (s ++ slash :: text ds l)) = none at hmatch
    have hrest := ih (fun h => hs (mem_cons_of_mem _ h)) fun h => hhead h.2
    change gsub 0 (c :: (s ++ slash :: text ds l)) = _
    rw [gsub_none hmatch]
    exact congrArg (c :: ·) hrest

theorem gsub_last (l : Seg) : gsub 0 l.1 = l.1 := by
  obtain ⟨l, hl⟩ := l
  induction l with
  | nil => rfl
  | cons c l ih =>
    have hc : c ≠ slash := fun h => hl (h ▸ mem_cons_self)
    have hmatch : matchAt (c :: l) = none := by
      have hname := takeWhile_last ⟨c :: l, hl⟩
      have hdot : ¬ [slash, '.'.toUInt8, slash] <+: c :: l := by
        rw [cons_prefix_cons]
        exact fun h => hc h.1.symm
      unfold matchAt
      dsimp only at hname ⊢
      rw [hname, drop_length, if_neg (by simp), if_neg hdot, takeWhile_cons_of_neg (by simpa using hc),
        if_neg (by simp)]
    rw [gsub_none hmatch]
    exact congrArg (c :: ·) (ih fun h => hl (mem_cons_of_mem _ h))

/-- **A substitution on the segments.** -/
theorem gsub_text (ds : List Seg) (l : Seg) : gsub 0 (text ds l) = text (pass ds) l := by
  fun_induction pass ds with
  | case1 => exact gsub_last l
  | case2 s ds hcancel ih =>
    rw [gsub_cancel hcancel.1 hcancel.2, ih]
    rfl
  | case3 s ds hnot ih => rw [gsub_copy s hnot, gsub_slash, ih, text]

end OpenResty.Waf.NormalisePath
