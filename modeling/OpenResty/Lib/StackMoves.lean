/-
Words of moves on a stack: whatever lies below, a word leaves what it leaves on the empty stack, on
top of what it does not take off.
-/
import Mathlib.Data.List.Basic

namespace OpenResty.Lib.StackMoves

open List

inductive Move (α : Type)
  | skip
  | pop
  | push (a : α)

variable {α : Type} {S : List α} {w : List (Move α)}

/-- Nothing is taken off the empty stack. -/
def Move.apply (S : List α) : Move α → List α
  | .skip => S
  | .pop => S.tail
  | .push a => a :: S

def run (S : List α) (w : List (Move α)) : List α := w.foldl Move.apply S

/-- How deep a word reaches below where it starts. -/
def need : List (Move α) → Nat
  | [] => 0
  | .skip :: w => need w
  | .pop :: w => need w + 1
  | .push _ :: w => need w - 1

@[simp] theorem run_nil (S : List α) : run S [] = S := rfl

@[simp] theorem run_cons (S : List α) (m : Move α) (w : List (Move α)) : run S (m :: w) = run (m.apply S) w := rfl

theorem run_append (S : List α) (w w' : List (Move α)) : run S (w ++ w') = run (run S w) w' := foldl_append

theorem run_eq (S : List α) (w : List (Move α)) : run S w = run [] w ++ S.drop (need w) := by
  induction w generalizing S with
  | nil => rfl
  | cons m w ih =>
    rw [run_cons, run_cons, ih (m.apply S)]
    cases m with
    | skip => rfl
    | pop => simp [Move.apply, need]
    | push a =>
      rw [ih (Move.apply [] (.push a))]
      cases hneed : need w with
      | zero => simp [Move.apply, need, hneed]
      | succ n => simp [Move.apply, need, hneed]

theorem length_run (S : List α) (w : List (Move α)) : (run S w).length = (run [] w).length + (S.length - need w) := by
  rw [run_eq, length_append, length_drop]

/-- More on the stack leaves more. -/
theorem length_run_drop (S : List α) (w : List (Move α)) (k : Nat) : (run (S.drop k) w).length ≤ (run S w).length := by
  rw [length_run, length_run S, length_drop]
  omega

/-- What is below the start is of no account if all of it is taken off, and otherwise it is. -/
theorem run_drop_iff {k : Nat} (hk : 0 < k) : (run (S.drop k) w).length = (run S w).length ↔ S.length ≤ need w := by
  rw [length_run, length_run S, length_drop]
  omega

theorem run_of_le (h : S.length ≤ need w) : run S w = run [] w := by
  rw [run_eq, drop_eq_nil_of_le h, append_nil]

theorem run_skip (h : ∀ m ∈ w, m = .skip) (w' : List (Move α)) : run S (w ++ w') = run S w' := by
  induction w with
  | nil => rfl
  | cons m w ih =>
    obtain ⟨rfl, hrest⟩ := forall_mem_cons.mp h
    exact ih hrest

theorem need_skip (h : ∀ m ∈ w, m = .skip) (w' : List (Move α)) : need (w ++ w') = need w' := by
  induction w with
  | nil => rfl
  | cons m w ih =>
    obtain ⟨rfl, hrest⟩ := forall_mem_cons.mp h
    exact ih hrest

/-- What is pushed only is there at the end. -/
theorem run_push (S as : List α) : run S (as.map .push) = as.reverse ++ S := by
  induction as generalizing S with
  | nil => rfl
  | cons a as ih => rw [map_cons, run_cons, Move.apply, ih, reverse_cons, append_assoc, singleton_append]

theorem need_push (as : List α) : need (as.map .push) = 0 := by
  induction as with
  | nil => rfl
  | cons a as ih => rw [map_cons, need, ih]

/-- What is on the stack at the end was there or was pushed. -/
theorem mem_run {a : α} (h : a ∈ run S w) : a ∈ S ∨ .push a ∈ w := by
  induction w generalizing S with
  | nil => exact .inl h
  | cons m w ih =>
    rcases ih h with hin | hin
    · cases m with
      | skip => exact .inl hin
      | pop => exact .inl (mem_of_mem_tail hin)
      | push b =>
        rcases mem_cons.mp hin with rfl | hin
        · exact .inr mem_cons_self
        · exact .inl hin
    · exact .inr (mem_cons_of_mem _ hin)

end OpenResty.Lib.StackMoves
