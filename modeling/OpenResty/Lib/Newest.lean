/-
The newest element of each key in a list, by a rank that tells the elements of a
key apart.
-/
import Mathlib.Data.List.Sort

namespace OpenResty.Lib

open List

variable {α κ β : Type} [DecidableEq κ] [LinearOrder β] {key : α → κ} {rank : α → β} {l l' : List α} {k : κ} {a b : α}

/-- Of the elements with the key, the one of the greatest rank. -/
def Newest (key : α → κ) (rank : α → β) (l : List α) (k : κ) (a : α) : Prop :=
  a ∈ l ∧ key a = k ∧ ∀ b ∈ l, key b = k → rank b ≤ rank a

namespace Newest

omit [DecidableEq κ] in
theorem congr (h : ∀ x, x ∈ l ↔ x ∈ l') : Newest key rank l k a ↔ Newest key rank l' k a := by
  simp only [Newest, h]

omit [DecidableEq κ] in
theorem unique (hinj : ∀ x ∈ l, ∀ y ∈ l, key x = key y → rank x = rank y → x = y) (ha : Newest key rank l k a)
    (hb : Newest key rank l k b) : a = b :=
  hinj a ha.1 b hb.1 (ha.2.1.trans hb.2.1.symm) (le_antisymm (hb.2.2 a ha.1 ha.2.1) (ha.2.2 b hb.1 hb.2.1))

/-- In a list of falling ranks the newest of a key is the first that has it. -/
theorem of_find? (hsorted : l.Pairwise fun x y => rank y ≤ rank x) (h : l.find? (key · = k) = some a) :
    Newest key rank l k a := by
  obtain ⟨hkey, before, after, rfl, hbefore⟩ := find?_eq_some_iff_append.mp h
  refine ⟨by simp, of_decide_eq_true hkey, fun b hb hbk => ?_⟩
  rcases mem_append.mp hb with hb | hb
  · exact absurd hbk (by simpa using hbefore b hb)
  · rcases mem_cons.mp hb with rfl | hb
    · exact le_refl _
    · exact (pairwise_cons.mp (pairwise_append.mp hsorted).2.1).1 b hb

theorem find?_iff (hsorted : l.Pairwise fun x y => rank y ≤ rank x)
    (hinj : ∀ x ∈ l, ∀ y ∈ l, key x = key y → rank x = rank y → x = y) :
    l.find? (key · = k) = some a ↔ Newest key rank l k a := by
  constructor
  · exact of_find? hsorted
  · intro ha
    cases hfind : l.find? (key · = k) with
    | none =>
      have := find?_eq_none.mp hfind a ha.1
      exact absurd ha.2.1 (by simpa using this)
    | some b => rw [unique hinj ha (of_find? hsorted hfind)]

omit [DecidableEq κ] in
/-- A new element of another key. -/
theorem cons_of_ne (hne : key b ≠ k) : Newest key rank (b :: l) k a ↔ Newest key rank l k a := by
  constructor
  · rintro ⟨hmem, hkey, hmax⟩
    rcases mem_cons.mp hmem with rfl | hmem
    · exact absurd hkey hne
    · exact ⟨hmem, hkey, fun c hc => hmax c (mem_cons_of_mem _ hc)⟩
  · rintro ⟨hmem, hkey, hmax⟩
    refine ⟨mem_cons_of_mem _ hmem, hkey, fun c hc hck => ?_⟩
    rcases mem_cons.mp hc with rfl | hc
    · exact absurd hck hne
    · exact hmax c hc hck

omit [DecidableEq κ] in
/-- A new element that is newer than all others of its key. -/
theorem cons_of_newer (hkey : key b = k) (hnew : ∀ c ∈ l, key c = k → rank c < rank b) :
    Newest key rank (b :: l) k a ↔ a = b := by
  constructor
  · rintro ⟨hmem, hak, hmax⟩
    rcases mem_cons.mp hmem with rfl | hmem
    · rfl
    · exact absurd (hmax b mem_cons_self hkey) (not_le_of_gt (hnew a hmem hak))
  · rintro rfl
    refine ⟨mem_cons_self, hkey, fun c hc hck => ?_⟩
    rcases mem_cons.mp hc with rfl | hc
    · exact le_refl _
    · exact le_of_lt (hnew c hc hck)

omit [DecidableEq κ] in
/-- A new element that is older than another of its key. -/
theorem cons_of_older {c : α} (hc : c ∈ l) (hck : key c = k) (hlt : rank b < rank c) :
    Newest key rank (b :: l) k a ↔ Newest key rank l k a := by
  constructor
  · rintro ⟨hmem, hak, hmax⟩
    rcases mem_cons.mp hmem with rfl | hmem
    · exact absurd (hmax c (mem_cons_of_mem _ hc) hck) (not_le_of_gt hlt)
    · exact ⟨hmem, hak, fun d hd => hmax d (mem_cons_of_mem _ hd)⟩
  · rintro ⟨hmem, hak, hmax⟩
    refine ⟨mem_cons_of_mem _ hmem, hak, fun d hd hdk => ?_⟩
    rcases mem_cons.mp hd with rfl | hd
    · exact le_of_lt (lt_of_lt_of_le hlt (hmax c hc hck))
    · exact hmax d hd hdk

end Newest

end OpenResty.Lib
