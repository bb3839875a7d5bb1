/-
`array_split` and `array_join` of array-var-nginx-module, `ngx_http_array_var_module.c`. A
separator is found by `ngx_strncmp`, which takes it for there when the bytes before a zero byte
of it are, but the bytes of a whole separator are left out of the items.
-/
import Mathlib.Data.List.Infix
import OpenResty.Lib.CString

namespace OpenResty.Ndk.ArraySplit

open Lib Lib.CString List

/-! ## Splitting and joining -/

/-- `ngx_http_array_var_strlstrn`, from `s1` up to `last` -/
def strlstrn (s1 : Bytes) (last : Nat) (s2 : Bytes) (n : Nat) : Option (Option Nat) := search id s1 last s2 n

/-- Each char into an array elem, while there are two from `pos` on. -/
def splitChars (max : Int) : Int → Bytes → List Bytes
  | i, c :: d :: pos => if i = max - 1 then [c :: d :: pos] else [c] :: splitChars max (i + 1) (d :: pos)
  | _, pos => [pos]

/-- The items from `pos` on. Each takes a byte at least. -/
def splitLoop (sep : Bytes) (max : Int) : Nat → Int → Bytes → Option (List Bytes)
  | 0, _, _ => none
  | fuel + 1, i, pos =>
    if i = max - 1 then some [pos]
    else
      match strlstrn pos pos.length sep (sep.length - 1) with
      | none => none
      | some none => some [pos]
      | some (some len) => (splitLoop sep max fuel (i + 1) (pos.drop (len + sep.length))).map (pos.take len :: ·)

/-- `ngx_http_array_var_split`, with a `max` that is a number -/
def array_split (sep str : Bytes) (max : Nat) : Option (List Bytes) :=
  if sep.length = 0 then some (splitChars max 0 str) else splitLoop sep max (str.length + 1) 0 str

/-- What is copied: the values, with the separator behind each but the last. -/
def copied (sep : Bytes) : List Bytes → Bytes
  | [] => []
  | [value] => value
  | value :: values => value ++ (sep ++ copied sep values)

/-- `ngx_http_array_var_join`; `none` for its buffer error. -/
def array_join (sep : Bytes) (array : List Bytes) : Option Bytes :=
  if array.length = 0 then some []
  else
    let len := sep.length * (array.length - 1) + (array.map List.length).sum
    if (copied sep array).length = len then some (copied sep array) else none

/-! ## What is asked -/

/-- The items of a text, joined, are the text. There are `max` of them at most, only the last of
`max` may have a separator, and with the empty one they are bytes. -/
structure Right (s sep : Bytes) (max : Nat) (items : List Bytes) : Prop where
  joined : array_join sep items = some s
  limit : 0 < max → items.length ≤ max
  apart : sep ≠ [] → ∀ k item, items[k]? = some item → sep <:+: item → k + 1 = max
  bytes : sep = [] → max = 0 → s ≠ [] → items = s.map fun c => [c]

/-- Wherever a text agrees with the separator, from left to right and up to the item `max - 1`,
the whole separator stands. -/
inductive Whole (sep : Bytes) (max : Int) : Int → Bytes → Prop
  | limit {i : Int} {s : Bytes} : i = max - 1 → Whole sep max i s
  | none {i : Int} {s : Bytes} : (∀ j, ¬ Agrees id sep (s.drop j)) → Whole sep max i s
  | next {i : Int} {s : Bytes} {j : Nat} : (∀ j' < j, ¬ Agrees id sep (s.drop j')) → sep <+: s.drop j →
      Whole sep max (i + 1) (s.drop (j + sep.length)) → Whole sep max i s

variable {sep s pos : Bytes} {items : List Bytes} {max i : Int}

theorem exact_iff : Exact id sep s ↔ sep <+: s := by
  rw [Exact, map_id, map_id, prefix_iff_eq_take]
  exact eq_comm

theorem agrees_of_prefix (hne : sep ≠ []) (h : sep <+: s) : Agrees id sep s := (exact_iff.mpr h).agrees hne

/-! ## Joining -/

theorem copied_cons (hne : items ≠ []) (value : Bytes) :
    copied sep (value :: items) = value ++ (sep ++ copied sep items) := by
  cases items with
  | nil => exact absurd rfl hne
  | cons item items => rfl

theorem array_join_eq (hne : items ≠ []) : array_join sep items = some (copied sep items) := by
  have hlen : (copied sep items).length = sep.length * (items.length - 1) + (items.map List.length).sum := by
    induction items with
    | nil => exact absurd rfl hne
    | cons item items ih =>
      cases items with
      | nil => simp [copied]
      | cons item' items =>
        rw [copied_cons (cons_ne_nil item' items), length_append, length_append,
          ih (cons_ne_nil item' items)]
        simp only [length_cons, map_cons, sum_cons, Nat.add_sub_cancel, Nat.mul_add, Nat.mul_one]
        omega
  rw [array_join, if_neg (length_pos_iff.mpr hne).ne']
  exact if_pos hlen

/-! ## Single bytes -/

theorem splitChars_cons (max i : Int) (c d : UInt8) (pos : Bytes) :
    splitChars max i (c :: d :: pos) = if i = max - 1 then [c :: d :: pos] else [c] :: splitChars max (i + 1)
      (d :: pos) := rfl

theorem splitChars_ne (max i : Int) (pos : Bytes) : splitChars max i pos ≠ [] := by
  cases pos with
  | nil => exact cons_ne_nil _ _
  | cons c pos =>
    cases pos with
    | nil => exact cons_ne_nil _ _
    | cons d pos =>
      rw [splitChars_cons]
      split <;> exact cons_ne_nil _ _

theorem copied_chars (max i : Int) (pos : Bytes) : copied [] (splitChars max i pos) = pos := by
  induction pos generalizing i with
  | nil => rfl
  | cons c pos ih =>
    cases pos with
    | nil => rfl
    | cons d pos =>
      rw [splitChars_cons]
      split
      · rfl
      · rw [copied_cons (splitChars_ne max (i + 1) (d :: pos)), ih]
        rfl

theorem length_chars (h : i ≤ max - 1) (pos : Bytes) : (splitChars max i pos).length + i ≤ max := by
  induction pos generalizing i with
  | nil =>
    simp only [splitChars, length_singleton]
    omega
  | cons c pos ih =>
    cases pos with
    | nil =>
      simp only [splitChars, length_singleton]
      omega
    | cons d pos =>
      rw [splitChars_cons]
      split
      · simp only [length_singleton]
        omega
      · have := ih (i := i + 1) (by omega)
        rw [length_cons]
        omega

theorem chars_unlimited (hi : 0 ≤ i) (hne : pos ≠ []) : splitChars 0 i pos = pos.map fun c => [c] := by
  induction pos generalizing i with
  | nil => exact absurd rfl hne
  | cons c pos ih =>
    cases pos with
    | nil => rfl
    | cons d pos =>
      rw [splitChars_cons, if_neg (by omega), ih (by omega) (cons_ne_nil d pos)]
      rfl

/-! ## Items -/

/-- A text that a place agrees in: what is before it, as many bytes as the separator has, and the
rest. -/
theorem copied_iff {j : Nat} (hj : Agrees id sep (pos.drop j)) (hne : items ≠ []) :
    copied sep (pos.take j :: items) = pos ↔ sep <+: pos.drop j ∧ copied sep items = pos.drop (j + sep.length) := by
  have hsplit : pos = pos.take j ++ ((pos.drop j).take sep.length ++ pos.drop (j + sep.length)) := by
    rw [← drop_drop, take_append_drop, take_append_drop]
  have hlen : sep.length = ((pos.drop j).take sep.length).length := by
    rw [length_take, Nat.min_eq_left hj.length_le]
  rw [copied_cons hne, prefix_iff_eq_take]
  constructor
  · intro h
    exact append_inj (append_cancel_left (h.trans hsplit)) hlen
  · rintro ⟨hsep, hrest⟩
    refine Eq.trans ?_ hsplit.symm
    rw [← hsep, hrest]

/-- What a search for the separator in the whole text comes to. -/
theorem strlstrn_spec (hne : sep ≠ []) (pos : Bytes) :
    ∃ r, strlstrn pos pos.length sep (sep.length - 1) = some r ∧
      match r with
      | none => ∀ j, ¬ Agrees id sep (pos.drop j)
      | some j => Agrees id sep (pos.drop j) ∧ ∀ j' < j, ¬ Agrees id sep (pos.drop j') := by
  obtain ⟨r, hr, hfirst⟩ := search_spec id hne (Nat.le_refl pos.length)
  refine ⟨r, hr, ?_⟩
  cases r with
  | some j => exact hfirst.2
  | none =>
    intro j hj
    have hle := hj.length_le
    have hpos := length_pos_iff.mpr hne
    rw [length_drop] at hle
    exact hfirst j (by omega) hj

theorem splitLoop_succ (sep : Bytes) (max : Int) (fuel : Nat) (i : Int) (pos : Bytes) :
    splitLoop sep max (fuel + 1) i pos =
      if i = max - 1 then some [pos]
      else
        match strlstrn pos pos.length sep (sep.length - 1) with
        | none => none
        | some none => some [pos]
        | some (some len) => (splitLoop sep max fuel (i + 1) (pos.drop (len + sep.length))).map
            (pos.take len :: ·) := rfl

/-- What is before the first place that agrees has no separator. -/
theorem not_infix_take (hne : sep ≠ []) {j : Nat} (hfirst : ∀ j' < j, ¬ Agrees id sep (pos.drop j')) :
    ¬ sep <:+: pos.take j := by
  rintro ⟨a, b, hab⟩
  have hlen := congrArg List.length hab
  have hpos := length_pos_iff.mpr hne
  rw [length_append, length_append, length_take] at hlen
  refine hfirst a.length (by omega) ( agrees_of_prefix hne ?_)
  have hpos : pos = a ++ (sep ++ (b ++ pos.drop j)) := by
    rw [← append_assoc sep, ← append_assoc a, ← append_assoc a, hab, take_append_drop]
  rw [hpos, drop_left]
  exact prefix_append sep _

theorem splitLoop_spec (hne : sep ≠ []) {fuel : Nat} (hfuel : pos.length < fuel) (i : Int) :
    ∃ items, splitLoop sep max fuel i pos = some items ∧ items ≠ [] ∧ (copied sep items = pos ↔ Whole sep max i pos) ∧
      (i ≤ max - 1 → items.length + i ≤ max) ∧
      ∀ (k : Nat) (item : Bytes), items[k]? = some item → sep <:+: item → i + k + 1 = max := by
  induction fuel generalizing i pos with
  | zero => exact absurd hfuel (Nat.not_lt_zero _)
  | succ fuel ih =>
    have hone : ∀ (k : Nat) (item : Bytes), [pos][k]? = some item → k = 0 ∧ item = pos := by
      intro k item hitem
      cases k with
      | zero => exact ⟨rfl, (Option.some.inj hitem).symm⟩
      | succ k => cases hitem
    rw [splitLoop_succ]
    by_cases hlast : i = max - 1
    · rw [if_pos hlast]
      refine ⟨[pos], rfl, cons_ne_nil pos [], iff_of_true rfl (.limit hlast), fun _ => ?_,
        fun k item hitem _ => ?_⟩
      · rw [length_singleton]
        omega
      · obtain ⟨rfl, -⟩ := hone k item hitem
        omega
    rw [if_neg hlast]
    obtain ⟨r, hr, hfirst⟩ := strlstrn_spec hne pos
    rw [hr]
    cases r with
    | none =>
      refine ⟨[pos], rfl, cons_ne_nil pos [], iff_of_true rfl (.none hfirst), fun _ => ?_,
        fun k item hitem hsep => ?_⟩
      · rw [length_singleton]
        omega
      · obtain ⟨-, heq⟩ := hone k item hitem
        rw [heq] at hsep
        refine absurd ?_ (not_infix_take hne fun j' (_ : j' < pos.length) => hfirst j')
        rwa [take_length]
    | some j =>
      obtain ⟨hagrees, hfirst⟩ := hfirst
      have hle := hagrees.length_le
      have hpos := length_pos_iff.mpr hne
      rw [length_drop] at hle
      have hshort : (pos.drop (j + sep.length)).length < fuel := by
        rw [length_drop]
        omega
      obtain ⟨items, hitems, hnonempty, hwhole, hlimit, hapart⟩ := ih hshort (i + 1)
      refine ⟨pos.take j :: items, by simp only [hitems, Option.map_some], cons_ne_nil _ _, ?_, ?_, ?_⟩
      · rw [copied_iff hagrees hnonempty, hwhole]
        constructor
        · rintro ⟨hsep, hrest⟩
          exact .next hfirst hsep hrest
        · intro h
          cases h with
          | limit h => exact absurd h hlast
          | none h => exact absurd hagrees (h j)
          | @next _ _ j' hfirst' hsep hrest =>
            rcases Nat.lt_trichotomy j j' with hlt | rfl | hgt
            · exact absurd hagrees (hfirst' j hlt)
            · exact ⟨hsep, hrest⟩
            · exact absurd ( agrees_of_prefix hne hsep) (hfirst j' hgt)
      · intro h
        have := hlimit (by omega)
        rw [length_cons]
        omega
      · intro k item hitem hsep
        cases k with
        | zero =>
          cases hitem
          exact absurd hsep (not_infix_take hne hfirst)
        | succ k =>
          have := hapart k item hitem hsep
          omega

/-- **The items of a text are right when it has the whole separator wherever it agrees with it.** -/
theorem array_split_right_iff (s sep : Bytes) (max : Nat) :
    ∃ items, array_split sep s max = some items ∧ (Right s sep max items ↔ sep = [] ∨ Whole sep max 0 s) := by
  by_cases hne : sep = []
  · subst hne
    refine ⟨splitChars max 0 s, rfl, iff_of_true ?_ (.inl rfl)⟩
    exact
      { joined := by rw [array_join_eq (splitChars_ne max 0 s), copied_chars]
        limit := by
          intro hmax
          have hlen : ((splitChars max 0 s).length : Int) + 0 ≤ max := length_chars (by omega) s
          omega
        apart := fun h => absurd rfl h
        bytes := by
          rintro - rfl hs
          exact chars_unlimited (Int.le_refl 0) hs }
  · obtain ⟨items, hitems, hnonempty, hwhole, hlimit, hapart⟩ :=
      @splitLoop_spec sep s max hne _ (Nat.lt_succ_self s.length) 0
    have hsplit : array_split sep s max = some items := by
      rw [array_split, if_neg fun h => hne (eq_nil_of_length_eq_zero h)]
      exact hitems
    refine ⟨items, hsplit, ?_⟩
    rw [or_iff_right hne, ← hwhole]
    constructor
    · intro h
      have hjoined := h.joined
      rw [array_join_eq hnonempty] at hjoined
      exact Option.some.inj hjoined
    · intro h
      exact
        { joined := by rw [array_join_eq hnonempty, h]
          limit := by
            intro hmax
            have := hlimit (by omega)
            omega
          apart := by
            intro _ k item hitem hsep
            have := hapart k item hitem hsep
            omega
          bytes := fun h => absurd h hne }

/-- In "ax\x00zb" the separator "x\x00y" is found, for `ngx_strncmp` stops at the zero byte. -/
theorem not_right_split_zero :
    ¬ ∀ (s sep : Bytes) (max : Nat), ∃ items, array_split sep s max = some items ∧ Right s sep max items := by
  intro h
  obtain ⟨items, hitems, hright⟩ := h [97, 120, 0, 122, 98] [120, 0, 121] 0
  have heq : array_split [120, 0, 121] [97, 120, 0, 122, 98] 0 = some [[97], [98]] := by decide
  rw [heq] at hitems
  cases hitems
  exact absurd hright.joined (by decide)

end OpenResty.Ndk.ArraySplit
