/-
Searching a list for the first element a test accepts, when the test may also
fail: what the search returns, and when it returns at all.
-/
import Mathlib.Data.List.Basic

namespace OpenResty.Lib

open List

variable {α β ε : Type}

/-- A result that accepts or fails; `next` when it does neither. -/
def unlessFound (r next : Except ε (Bool × β)) : Except ε (Bool × β) :=
  match r with
  | .error e => .error e
  | .ok (true, b) => .ok (true, b)
  | .ok (false, _) => next

theorem unlessFound_assoc (r s t : Except ε (Bool × β)) :
    unlessFound (unlessFound r s) t = unlessFound r (unlessFound s t) := by
  rcases r with e | ⟨_ | _, b⟩ <;> rfl

/-- Try the elements in order up to the first success or failure; `dflt` goes
with a search that accepts nothing. -/
def search (dflt : β) (test : α → Except ε (Bool × β)) : List α → Except ε (Bool × β)
  | [] => .ok (false, dflt)
  | a :: as => unlessFound (test a) (search dflt test as)

/-- The test accepts `a`. -/
def Accepts (test : α → Except ε (Bool × β)) (a : α) : Prop := ∃ b, test a = .ok (true, b)

/-- What the test says of the first element it accepts, failures passed over. -/
def firstAccepted (test : α → Except ε (Bool × β)) : List α → Option β
  | [] => none
  | a :: as =>
    match test a with
    | .ok (true, b) => some b
    | _ => firstAccepted test as

/-- The test fails on no element before the first it accepts. -/
def Clean (test : α → Except ε (Bool × β)) : List α → Prop
  | [] => True
  | a :: as =>
    match test a with
    | .error _ => False
    | .ok (true, _) => True
    | .ok (false, _) => Clean test as

variable {dflt : β} {test : α → Except ε (Bool × β)}

theorem search_append (xs ys : List α) :
    search dflt test (xs ++ ys) = unlessFound (search dflt test xs) (search dflt test ys) := by
  induction xs with
  | nil => rfl
  | cons x xs ih => simp only [cons_append, search, ih, unlessFound_assoc]

theorem firstAccepted_isSome {l : List α} : (firstAccepted test l).isSome ↔ ∃ a ∈ l, Accepts test a := by
  induction l with
  | nil => simp [firstAccepted]
  | cons a as ih =>
    simp only [firstAccepted, mem_cons, exists_eq_or_imp]
    split
    · next b h => simp [Accepts, h]
    · next h =>
      rw [ih]
      exact ⟨.inr, fun h' => h'.resolve_left fun ⟨b, hb⟩ => h b hb⟩

theorem firstAccepted_eq_none {l : List α} : firstAccepted test l = none ↔ ∀ a ∈ l, ¬ Accepts test a := by
  rw [← Option.not_isSome_iff_eq_none, firstAccepted_isSome]
  simp

theorem exists_of_firstAccepted {l : List α} {b : β} (h : firstAccepted test l = some b) :
    ∃ a ∈ l, test a = .ok (true, b) := by
  induction l with
  | nil => simp [firstAccepted] at h
  | cons a as ih =>
    simp only [firstAccepted] at h
    split at h
    · next c hc => exact ⟨a, mem_cons_self, Option.some.inj h ▸ hc⟩
    · obtain ⟨a', ha', hb⟩ := ih h
      exact ⟨a', mem_cons_of_mem _ ha', hb⟩

variable (dflt) in
/-- A clean search returns what the test says of the first element it accepts. -/
theorem search_of_clean {l : List α} (h : Clean test l) :
    search dflt test l =
      .ok (match firstAccepted test l with
        | some b => (true, b)
        | none => (false, dflt)) := by
  induction l with
  | nil => rfl
  | cons a as ih =>
    simp only [Clean] at h
    simp only [search, firstAccepted]
    rcases ht : test a with e | ⟨_ | _, b⟩
    · simp [ht] at h
    · rw [ht] at h
      exact ih h
    · rfl

/-- Only a clean search returns. -/
theorem clean_of_search {l : List α} {r : Bool × β} (h : search dflt test l = .ok r) : Clean test l := by
  induction l with
  | nil => trivial
  | cons a as ih =>
    simp only [search, unlessFound] at h
    simp only [Clean]
    split at h
    · cases h
    · trivial
    · exact ih h

/-- A search is clean when no element that it can reach makes the test fail. -/
theorem clean_iff {l : List α} :
    Clean test l ↔
      ∀ pre a post, l = pre ++ a :: post → (∀ b ∈ pre, ¬ Accepts test b) → ∃ r, test a = .ok r := by
  induction l with
  | nil => simp [Clean]
  | cons x xs ih =>
    simp only [Clean]
    constructor
    · intro h pre a post hsplit hpre
      cases pre with
      | nil =>
        obtain ⟨rfl, rfl⟩ := List.cons.inj hsplit
        rcases ht : test x with e | r
        · simp [ht] at h
        · exact ⟨r, rfl⟩
      | cons y pre =>
        obtain ⟨rfl, hxs⟩ := List.cons.inj hsplit
        rcases ht : test x with e | ⟨_ | _, b⟩
        · simp [ht] at h
        · rw [ht] at h
          exact ih.mp h pre a post hxs fun b hb => hpre b (mem_cons_of_mem _ hb)
        · exact absurd ⟨b, ht⟩ (hpre x mem_cons_self)
    · intro h
      obtain ⟨r, hr⟩ := h [] x xs rfl (by simp)
      rcases r with ⟨_ | _, b⟩
      · rw [hr]
        refine ih.mpr fun pre a post hsplit hpre => h (x :: pre) a post (by simp [hsplit]) fun b hb => ?_
        rcases mem_cons.mp hb with rfl | hb
        · rintro ⟨c, hc⟩
          simp [hr] at hc
        · exact hpre b hb
      · rw [hr]
        trivial

end OpenResty.Lib
