/-
Lists of records that have a key each: the record of a key, the others, and
what is left when records go from the end, as in a cache.
-/
import Mathlib.Data.List.Basic

namespace OpenResty.Lib

open List

variable {α κ : Type} [DecidableEq κ] (key : α → κ)

/-- The first record of `k`. -/
def entry (k : κ) (q : List α) : Option α := q.find? fun a => key a = k

/-- The records of other keys than `k`. -/
def others (k : κ) (q : List α) : List α := q.filter fun a => key a ≠ k

/-- A list without some records at its end, which all `go`. -/
def Dropped (go : α → Prop) (q q' : List α) : Prop := ∃ gone, q = q' ++ gone ∧ ∀ a ∈ gone, go a

variable {key} {k k' : κ} {a : α} {q q' q'' : List α} {go go' : α → Prop}

theorem entry_eq_none : entry key k q = none ↔ ∀ a ∈ q, key a ≠ k := by
  simp [entry]

theorem key_of_entry (h : entry key k q = some a) : key a = k := by
  have hkey := find?_some h
  simpa using hkey

theorem mem_of_entry (h : entry key k q = some a) : a ∈ q := mem_of_find?_eq_some h

theorem entry_cons_self (h : key a = k) : entry key k (a :: q) = some a := by
  rw [entry, find?_cons_of_pos (by simpa using h)]

theorem entry_append : entry key k (q ++ q') = (entry key k q).or (entry key k q') := by
  unfold entry
  rw [find?_append]

theorem mem_others : a ∈ others key k q ↔ a ∈ q ∧ key a ≠ k := by
  simp [others]

theorem entry_others_self : entry key k (others key k q) = none :=
  entry_eq_none.mpr fun _ h => (mem_others.mp h).2

theorem entry_others_of_ne (h : k' ≠ k) : entry key k' (others key k q) = entry key k' q := by
  unfold entry others
  rw [find?_filter]
  congr 1
  funext a
  by_cases hk : key a = k'
  · simp [hk, h]
  · simp [hk]

theorem others_of_none (h : entry key k q = none) : others key k q = q :=
  filter_eq_self.mpr fun a ha => by simpa using entry_eq_none.mp h a ha

theorem others_append : others key k (q ++ q') = others key k q ++ others key k q' := filter_append ..

theorem others_cons_self (h : key a = k) : others key k (a :: q) = others key k q :=
  filter_cons_of_neg (by simpa using h)

/-! ## Records gone from the end -/

theorem Dropped.refl : Dropped go q q := ⟨[], (append_nil q).symm, fun _ h => absurd h not_mem_nil⟩

theorem Dropped.trans (h : Dropped go q q') (h' : Dropped go q' q'') : Dropped go q q'' := by
  obtain ⟨gone, rfl, hgone⟩ := h
  obtain ⟨gone', rfl, hgone'⟩ := h'
  refine ⟨gone' ++ gone, append_assoc .., fun a ha => ?_⟩
  exact (mem_append.mp ha).elim (hgone' a) (hgone a)

theorem Dropped.mono (h : Dropped go q q') (himp : ∀ a ∈ q, go a → go' a) : Dropped go' q q' := by
  obtain ⟨gone, rfl, hgone⟩ := h
  exact ⟨gone, rfl, fun a ha => himp a (mem_append_right _ ha) (hgone a ha)⟩

theorem Dropped.mem (h : Dropped go q q') (ha : a ∈ q') : a ∈ q := by
  obtain ⟨gone, rfl, -⟩ := h
  exact mem_append_left _ ha

theorem Dropped.others (h : Dropped go q q') : Dropped go (others key k q) (others key k q') := by
  obtain ⟨gone, rfl, hgone⟩ := h
  exact ⟨Lib.others key k gone, others_append, fun a ha => hgone a (mem_others.mp ha).1⟩

/-- A key keeps its record, or the record went. -/
theorem Dropped.entry (h : Dropped go q q') (key : α → κ) (k : κ) :
    entry key k q' = entry key k q ∨ entry key k q' = none ∧ ∃ a, entry key k q = some a ∧ go a := by
  obtain ⟨gone, rfl, hgone⟩ := h
  rw [entry_append]
  cases hkept : Lib.entry key k q' with
  | some a => exact .inl rfl
  | none =>
    cases hwent : Lib.entry key k gone with
    | none => exact .inl rfl
    | some a => exact .inr ⟨rfl, a, rfl, hgone a (mem_of_entry hwent)⟩

theorem Dropped.entry_none (h : Dropped go q q') (hnone : Lib.entry key k q = none) : Lib.entry key k q' = none :=
  entry_eq_none.mpr fun a ha => entry_eq_none.mp hnone a (h.mem ha)

end OpenResty.Lib
