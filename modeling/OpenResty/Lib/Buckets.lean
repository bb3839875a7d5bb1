/-
Hash buckets that are linked lists in arrays: each bucket has the ID of its
first entry, each entry the ID of the next, and 0 is the end.
-/
import Mathlib.Data.List.Nodup

namespace OpenResty.Lib

open List Function Nat

structure Buckets where
  head : Nat → Nat
  next : Nat → Nat

namespace Buckets

/-- The first entry from `cur` on that is `p`, or 0, with the one before it;
`none` when the fuel does not last. -/
def search (next : Nat → Nat) (p : Nat → Bool) : Nat → Nat → Nat → Option (Nat × Nat)
  | 0, _, _ => none
  | fuel + 1, cur, prev => if cur ≠ 0 ∧ p cur = false then search next p fuel (next cur) cur else some (cur, prev)

/-- An entry becomes the first of a bucket. -/
def push (t : Buckets) (b x : Nat) : Buckets :=
  { head := update t.head b x, next := update t.next x (t.head b) }

/-- An entry leaves a bucket, where `prev` comes before it. -/
def unlink (t : Buckets) (b x prev : Nat) : Buckets :=
  let t' := if prev ≠ 0 then { t with next := update t.next prev (t.next x) }
    else { t with head := update t.head b (t.next x) }
  { t' with next := update t'.next x 0 }

/-! ## Paths -/

/-- From `a` the links lead through `xs` to the end. -/
def Path (next : Nat → Nat) : Nat → List Nat → Prop
  | a, [] => a = 0
  | a, x :: xs => a = x ∧ x ≠ 0 ∧ Path next (next x) xs

variable {next next' : Nat → Nat} {p : Nat → Bool} {a b x prev fuel : Nat} {xs as bs : List Nat}

theorem Path.congr (h : Path next a xs) (hsame : ∀ x ∈ xs, next' x = next x) : Path next' a xs := by
  induction xs generalizing a with
  | nil => exact h
  | cons x xs ih =>
    obtain ⟨rfl, hne, hrest⟩ := h
    refine ⟨rfl, hne, ?_⟩
    rw [hsame a mem_cons_self]
    exact ih hrest fun y hy => hsame y (mem_cons_of_mem a hy)

theorem Path.ne_zero (h : Path next a xs) : ∀ x ∈ xs, x ≠ 0 := by
  induction xs generalizing a with
  | nil => exact fun x hx => by cases hx
  | cons y xs ih =>
    obtain ⟨rfl, hne, hrest⟩ := h
    intro x hx
    rcases mem_cons.mp hx with rfl | hx
    · exact hne
    · exact ih hrest x hx

theorem Path.rest (h : Path next a (as ++ x :: bs)) : Path next (next x) bs := by
  induction as generalizing a with
  | nil => exact h.2.2
  | cons y as ih => exact ih h.2.2

/-- The links of a path without `x`, where only the one that led to it changes. -/
theorem Path.skip (h : Path next a (as ++ x :: bs)) (hnodup : (as ++ x :: bs).Nodup)
    (hlast : ∀ y, as.getLast? = some y → next' y = next x)
    (hsame : ∀ y, y ≠ x → as.getLast? ≠ some y → next' y = next y) :
    Path next' (if as = [] then next x else a) (as ++ bs) := by
  induction as generalizing a with
  | nil =>
    refine h.rest.congr fun y hy => hsame y (fun heq => ?_) (by simp)
    subst heq
    exact (nodup_cons.mp hnodup).1 hy
  | cons c as ih =>
    obtain ⟨rfl, hne, hrest⟩ := h
    have hcons := nodup_cons.mp hnodup
    refine ⟨rfl, hne, ?_⟩
    cases as with
    | nil =>
      rw [hlast a rfl]
      refine hrest.rest.congr fun y hy => hsame y (fun heq => ?_) (fun heq => ?_)
      · subst heq
        exact (nodup_cons.mp hcons.2).1 hy
      · cases heq
        exact hcons.1 (mem_cons_of_mem x hy)
    | cons d as =>
      rw [hsame a (fun heq => hcons.1 (by simp [heq])) fun heq => hcons.1 ?_]
      · refine ih hrest hcons.2 (fun y hy => hlast y (by simpa using hy))
          fun y hy hne' => hsame y hy (by simpa using hne')
      · rw [getLast?_cons_cons] at heq
        exact mem_append_left _ (mem_of_getLast? heq)

/-! ## Searching -/

theorem search_found (h : Path next a (as ++ x :: bs)) (has : ∀ y ∈ as, p y = false) (hx : p x = true)
    (hfuel : as.length < fuel) : search next p fuel a prev = some (x, as.getLast?.getD prev) := by
  induction as generalizing a prev fuel with
  | nil =>
    obtain ⟨rfl, -, -⟩ := h
    obtain ⟨fuel, rfl⟩ := exists_eq_succ_of_ne_zero (Nat.ne_of_gt hfuel)
    rw [search, if_neg fun hcontinue => by simp [hx] at hcontinue]
    rfl
  | cons y as ih =>
    obtain ⟨rfl, hne, hrest⟩ := h
    obtain ⟨fuel, rfl⟩ := exists_eq_succ_of_ne_zero (Nat.ne_of_gt (zero_lt_of_lt hfuel))
    rw [search, if_pos ⟨hne, has a mem_cons_self⟩,
      ih hrest (fun y hy => has y (mem_cons_of_mem a hy)) (lt_of_succ_lt_succ hfuel), getLast?_cons]
    rfl

theorem search_absent (h : Path next a xs) (hxs : ∀ y ∈ xs, p y = false) (hfuel : xs.length < fuel) :
    ∃ prev', search next p fuel a prev = some (0, prev') := by
  induction xs generalizing a prev fuel with
  | nil =>
    obtain ⟨fuel, rfl⟩ := exists_eq_succ_of_ne_zero (Nat.ne_of_gt hfuel)
    rw [show a = 0 from h]
    exact ⟨prev, by rw [search, if_neg fun hcontinue => hcontinue.1 rfl]⟩
  | cons y xs ih =>
    obtain ⟨rfl, hne, hrest⟩ := h
    obtain ⟨fuel, rfl⟩ := exists_eq_succ_of_ne_zero (Nat.ne_of_gt (zero_lt_of_lt hfuel))
    rw [search, if_pos ⟨hne, hxs a mem_cons_self⟩]
    exact ih hrest (fun y hy => hxs y (mem_cons_of_mem a hy)) (lt_of_succ_lt_succ hfuel)

/-! ## All buckets -/

/-- Each bucket `b` has the entries `lists b`, and no entry is in two places. -/
structure Holds (t : Buckets) (lists : Nat → List Nat) : Prop where
  path : ∀ b, Path t.next (t.head b) (lists b)
  nodup : ∀ b, (lists b).Nodup
  apart : ∀ b b' x, x ∈ lists b → x ∈ lists b' → b = b'

variable {t : Buckets} {lists : Nat → List Nat}

theorem holds_empty : Holds { head := fun _ => 0, next := fun _ => 0 } fun _ => [] :=
  ⟨fun _ => rfl, fun _ => nodup_nil, fun _ _ _ h => by cases h⟩

theorem Holds.push (h : Holds t lists) (hx : x ≠ 0) (hfresh : ∀ b', x ∉ lists b') (b : Nat) :
    Holds (t.push b x) (update lists b (x :: lists b)) := by
  have hkept : ∀ b', Path (update t.next x (t.head b)) (t.head b') (lists b') := fun b' =>
    (h.path b').congr fun y hy => update_of_ne (fun heq => hfresh b' (by rwa [← heq])) ..
  refine ⟨fun b' => ?_, fun b' => ?_, fun b₁ b₂ y h₁ h₂ => ?_⟩
  · unfold Buckets.push
    by_cases hb : b' = b
    · subst hb
      simp only [update_self]
      exact ⟨rfl, hx, by rw [update_self]; exact hkept b'⟩
    · simp only [update_of_ne hb]
      exact hkept b'
  · by_cases hb : b' = b
    · subst hb
      rw [update_self]
      exact nodup_cons.mpr ⟨hfresh b', h.nodup b'⟩
    · rw [update_of_ne hb]
      exact h.nodup b'
  · have hmem : ∀ b', y ∈ update lists b (x :: lists b) b' → y = x ∧ b' = b ∨ y ∈ lists b' := fun b' hy => by
      by_cases hb : b' = b
      · subst hb
        rw [update_self] at hy
        exact (mem_cons.mp hy).imp_left fun heq => ⟨heq, rfl⟩
      · rw [update_of_ne hb] at hy
        exact .inr hy
    rcases hmem b₁ h₁ with ⟨hy, hb₁⟩ | hold₁ <;> rcases hmem b₂ h₂ with ⟨hy, hb₂⟩ | hold₂
    · rw [hb₁, hb₂]
    · exact absurd (hy ▸ hold₂) (hfresh b₂)
    · exact absurd (hy ▸ hold₁) (hfresh b₁)
    · exact h.apart b₁ b₂ y hold₁ hold₂

/-- What the entry that leaves changes: the link that led to it, and its own. -/
theorem unlink_cases (t : Buckets) (b : Nat) (hnodup : (as ++ x :: bs).Nodup) (hne : ∀ y ∈ as, y ≠ 0) :
    (∀ b', (t.unlink b x (as.getLast?.getD 0)).head b' = if b' = b ∧ as = [] then t.next x else t.head b') ∧
      (∀ y, as.getLast? = some y → (t.unlink b x (as.getLast?.getD 0)).next y = t.next x) ∧
      ∀ y, y ≠ x → as.getLast? ≠ some y → (t.unlink b x (as.getLast?.getD 0)).next y = t.next y := by
  unfold Buckets.unlink
  rcases eq_nil_or_concat' as with rfl | ⟨as, z, rfl⟩
  · refine ⟨fun b' => ?_, fun y hy => (by cases hy), fun y hy _ => update_of_ne hy ..⟩
    simp [update_apply]
  · have hz : z ≠ 0 := hne z (by simp)
    have hzx : z ≠ x := fun heq => by
      subst heq
      exact (nodup_append.mp hnodup).2.2 z (by simp) z (by simp) rfl
    simp only [getLast?_append, getLast?_singleton, Option.some_or, Option.getD_some, ne_eq, hz,
      not_false_eq_true, if_true]
    refine ⟨fun b' => ?_, fun y hy => ?_, fun y hy hlast => ?_⟩
    · rw [if_neg fun h => by simp at h]
    · cases hy
      rw [update_of_ne hzx, update_self]
    · rw [update_of_ne hy, update_of_ne fun heq => hlast (by rw [heq])]

theorem Holds.unlink (h : Holds t lists) (hlist : lists b = as ++ x :: bs) :
    Holds (t.unlink b x (as.getLast?.getD 0)) (update lists b (as ++ bs)) := by
  have hpath := h.path b
  have hnodup := h.nodup b
  rw [hlist] at hpath hnodup
  have hmem : ∀ y, y ∈ as.getLast? → y ∈ lists b := fun y hy => by
    rw [hlist]
    exact mem_append_left _ (mem_of_getLast? hy)
  obtain ⟨hhead, hlast, hsame⟩ := unlink_cases t b hnodup fun y hy => hpath.ne_zero y (mem_append_left _ hy)
  have hsub : (as ++ bs).Sublist (lists b) := by
    rw [hlist]
    exact (sublist_cons_self x bs).append_left as
  have hlists : ∀ b' y, y ∈ update lists b (as ++ bs) b' → y ∈ lists b' := fun b' y hy => by
    by_cases hb : b' = b
    · subst hb
      rw [update_self] at hy
      exact hsub.subset hy
    · rwa [update_of_ne hb] at hy
  refine ⟨fun b' => ?_, fun b' => ?_, fun b₁ b₂ y h₁ h₂ => h.apart b₁ b₂ y (hlists b₁ y h₁) (hlists b₂ y h₂)⟩
  · rw [hhead b']
    by_cases hb : b' = b
    · subst hb
      rw [update_self]
      have hskip := hpath.skip hnodup hlast hsame
      by_cases has : as = []
      · rw [if_pos ⟨rfl, has⟩]
        rwa [if_pos has] at hskip
      · rw [if_neg fun h => has h.2]
        rwa [if_neg has] at hskip
    · rw [if_neg fun h => hb h.1, update_of_ne hb]
      refine (h.path b').congr fun y hy => hsame y (fun heq => hb ?_) fun heq => hb ?_
      · subst heq
        exact h.apart b' b y hy (by rw [hlist]; simp)
      · exact h.apart b' b y hy (hmem y heq)
  · by_cases hb : b' = b
    · subst hb
      rw [update_self]
      exact (h.nodup b').sublist hsub
    · rw [update_of_ne hb]
      exact h.nodup b'

end Buckets

end OpenResty.Lib
