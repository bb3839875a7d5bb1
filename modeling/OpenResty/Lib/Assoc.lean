/-
Association lists as finite maps: assignment, and what a lookup sees of it.
-/
import Mathlib.Data.List.Nodup

namespace OpenResty.Lib

open List Prod

variable {α β γ : Type} [DecidableEq α]

/-- The map with `b` at `a`: in its place when `a` has one, else at the end. -/
def assign : List (α × β) → α → β → List (α × β)
  | [], a, b => [(a, b)]
  | p :: m, a, b => if p.1 = a then (a, b) :: m else p :: assign m a b

/-- The map without `a`. -/
def unassign (m : List (α × β)) (a : α) : List (α × β) := m.filter fun p => p.1 != a

theorem lookup_cons (p : α × β) (m : List (α × β)) (a : α) :
    (p :: m).lookup a = if a = p.1 then some p.2 else m.lookup a := by
  obtain ⟨k, b⟩ := p
  by_cases h : a = k
  · simp [h]
  · have : (a == k) = false := by simpa using h
    simp [List.lookup_cons, this, h]

variable {m : List (α × β)}

theorem lookup_isSome_of_mem {p : α × β} (h : p ∈ m) : (m.lookup p.1).isSome := by
  induction m with
  | nil => cases h
  | cons q m ih =>
    rw [lookup_cons]
    split
    · rfl
    · next hne =>
      rcases mem_cons.mp h with rfl | h
      · exact absurd rfl hne
      · exact ih h

@[simp] theorem lookup_assign (m : List (α × β)) (a a' : α) (b : β) :
    (assign m a b).lookup a' = if a' = a then some b else m.lookup a' := by
  induction m with
  | nil => rw [assign, lookup_cons]
  | cons p m ih =>
    rw [assign]
    split
    · next hp =>
      subst hp
      simp only [lookup_cons]
      split <;> rfl
    · next hp =>
      simp only [lookup_cons, ih]
      split
      · next h => rw [if_neg (h ▸ hp)]
      · rfl

@[simp] theorem lookup_unassign (m : List (α × β)) (a a' : α) :
    (unassign m a).lookup a' = if a' = a then none else m.lookup a' := by
  induction m with
  | nil => simp [unassign]
  | cons p m ih =>
    simp only [unassign, filter_cons] at ih ⊢
    by_cases hp : p.1 = a
    · simp only [hp, bne_self_eq_false, Bool.false_eq_true, if_false, ih, lookup_cons]
      grind
    · have : (p.1 != a) = true := by simpa using hp
      simp only [this, if_true, lookup_cons, ih]
      grind

/-- A filter on the keys. -/
theorem lookup_filter_key {p : α → Bool} (m : List (α × β)) (a : α) :
    (m.filter fun (k, _) => p k).lookup a = if p a then m.lookup a else none := by
  induction m with
  | nil => simp
  | cons q m ih =>
    obtain ⟨k, b⟩ := q
    rw [lookup_cons]
    by_cases ha : a = k
    · subst ha
      cases hp : p a <;> simp [hp, ih]
    · cases hp : p k <;> simp [hp, ha, ih, lookup_cons]

theorem mem_of_lookup {a : α} {b : β} (h : m.lookup a = some b) : (a, b) ∈ m := by
  induction m with
  | nil => cases h
  | cons p m ih =>
    rw [lookup_cons] at h
    split at h
    · next ha =>
      cases h
      subst ha
      exact mem_cons_self
    · exact mem_cons_of_mem _ (ih h)

theorem lookup_of_mem {a : α} {b : β} (h : (m.map fst).Nodup) (hmem : (a, b) ∈ m) : m.lookup a = some b := by
  obtain ⟨b', hb'⟩ := Option.isSome_iff_exists.mp (lookup_isSome_of_mem hmem)
  cases inj_on_of_nodup_map h (mem_of_lookup hb') hmem rfl
  exact hb'

/-- Assignment keeps the keys apart. -/
theorem nodup_keys_assign (h : (m.map fst).Nodup) (a : α) (b : β) :
    ((assign m a b).map fst).Nodup ∧ ∀ k ∈ (assign m a b).map fst, k = a ∨ k ∈ m.map fst := by
  induction m with
  | nil => simp [assign]
  | cons p m ih =>
    rw [map_cons, nodup_cons] at h
    obtain ⟨hnodup, hkeys⟩ := ih h.2
    rw [assign]
    split
    · next hp =>
      subst hp
      exact ⟨nodup_cons.mpr h, fun k hk => by simpa using hk⟩
    · next hp =>
      simp only [map_cons, nodup_cons, mem_cons]
      refine ⟨⟨fun hmem => ?_, hnodup⟩, ?_⟩
      · exact (hkeys _ hmem).elim hp h.1
      · rintro k (rfl | hk)
        · exact .inr (.inl rfl)
        · exact (hkeys k hk).imp_right .inr

/-- A map with other keys and values. -/
theorem lookup_map {δ : Type} [DecidableEq δ] {f : α → δ} (hf : Function.Injective f) (g : β → γ)
    (m : List (α × β)) (a : α) : (m.map fun (k, v) => (f k, g v)).lookup (f a) = (m.lookup a).map g := by
  induction m with
  | nil => rfl
  | cons p m ih =>
    obtain ⟨k, b⟩ := p
    rw [map_cons, lookup_cons, lookup_cons, ih]
    by_cases h : a = k
    · subst h
      simp
    · simp [h, hf.ne h]

omit [DecidableEq α] in
theorem lookup_map_ne {δ : Type} [DecidableEq δ] {f : α → δ} {d : δ} (hd : ∀ a, f a ≠ d) (g : β → γ)
    (m : List (α × β)) : (m.map fun (k, v) => (f k, g v)).lookup d = none := by
  induction m with
  | nil => rfl
  | cons p m ih =>
    rw [map_cons, lookup_cons, if_neg fun h => hd _ h.symm, ih]

end OpenResty.Lib
