/-
The matches that a search engine finds one after the other in a text, and the text
with each of them replaced. And loops that may break off, with fuel.
-/
import Mathlib.Data.List.Basic

namespace OpenResty.Lib.Matches

open List

/-- Where a match starts and stops, and where its captures do. -/
structure Match where
  start : Nat
  stop : Nat
  captures : List (Option (Nat × Nat))

/-- What a search finds in a text of length `n`, from each place on. -/
structure Engine (n : Nat) where
  exec : Nat → Option Match
  sound : ∀ p m, p ≤ n → exec p = some m → p ≤ m.start ∧ m.start ≤ m.stop ∧ m.stop ≤ n

/-- Where the search goes on: behind the match, and one further when it is empty. -/
def Match.next (m : Match) : Nat := if m.stop = m.start then m.stop + 1 else m.stop

variable {n : Nat} (e : Engine n)

/-- At most `k` matches from `p` on. -/
def scan : Nat → Nat → List Match
  | 0, _ => []
  | k + 1, p =>
    if n < p then []
    else
      match e.exec p with
      | none => []
      | some m => m :: scan k m.next

/-- The matches from `p` on. -/
def found (p : Nat) : List Match := scan e (n + 1 - p) p

variable {p : Nat}

theorem next_gt {m : Match} (hp : p ≤ n) (h : e.exec p = some m) : p < m.next ∧ m.next ≤ n + 1 := by
  obtain ⟨hstart, hstop, hn⟩ := e.sound p m hp h
  rw [Match.next]
  split <;> omega

/-- Enough is as good as more. -/
theorem scan_fuel {j k : Nat} (hj : n + 1 - p ≤ j) (hk : n + 1 - p ≤ k) : scan e j p = scan e k p := by
  induction j generalizing k p with
  | zero =>
    cases k with
    | zero => rfl
    | succ k => rw [scan, scan, if_pos (by omega)]
  | succ j ih =>
    cases k with
    | zero => rw [scan, scan, if_pos (by omega)]
    | succ k =>
      rw [scan, scan]
      split
      · rfl
      · next hp =>
        cases hexec : e.exec p with
        | none => rfl
        | some m =>
          have hnext := (next_gt e (Nat.le_of_not_lt hp) hexec).1
          exact congrArg (m :: ·) (ih (by omega) (by omega))

theorem found_of_lt (h : n < p) : found e p = [] := by
  rw [found, show n + 1 - p = 0 by omega, scan]

theorem found_none (h : e.exec p = none) : found e p = [] := by
  rw [found]
  cases n + 1 - p with
  | zero => rfl
  | succ k =>
    rw [scan, h]
    exact ite_self _

theorem found_some {m : Match} (hp : p ≤ n) (h : e.exec p = some m) : found e p = m :: found e m.next := by
  have hnext := (next_gt e hp h).1
  obtain ⟨k, hk⟩ : ∃ k, n + 1 - p = k + 1 := ⟨n - p, by omega⟩
  rw [found, hk, scan, if_neg (Nat.not_lt.mpr hp), h, found]
  exact congrArg (m :: ·) (scan_fuel e (by omega) (Nat.le_refl _))

/-- Each match lies in the text. -/
theorem mem_found {m : Match} (h : m ∈ found e p) : m.start ≤ m.stop ∧ m.stop ≤ n := by
  have mem_scan : ∀ k p, m ∈ scan e k p → m.start ≤ m.stop ∧ m.stop ≤ n := by
    intro k
    induction k with
    | zero => exact fun _ h => (not_mem_nil h).elim
    | succ k ih =>
      intro p h
      rw [scan] at h
      split at h
      · exact (not_mem_nil h).elim
      · next hp =>
        cases hexec : e.exec p with
        | none =>
          rw [hexec] at h
          exact (not_mem_nil h).elim
        | some m' =>
          rw [hexec] at h
          rcases mem_cons.mp h with rfl | hmem
          · exact (e.sound p m (Nat.le_of_not_lt hp) hexec).2
          · exact ih m'.next hmem
  exact mem_scan _ p h

/-! ## Replacing -/

section

variable {α : Type} (s : List α) (piece : Nat → Match → List α)

/-- The text between two places. -/
def slice (i j : Nat) : List α := (s.take j).drop i

/-- The text from `cp` on up to the last match, with the matches replaced; the `k`-th
match is the first of them. -/
def replaced : Nat → Nat → List Match → List α
  | _, _, [] => []
  | cp, k, m :: ms => slice s cp m.start ++ piece k m ++ replaced m.stop (k + 1) ms

/-- Where the last match stops. -/
def lastStop : Nat → List Match → Nat
  | cp, [] => cp
  | _, m :: ms => lastStop m.stop ms

/-- Where the search goes on behind the last match. -/
def lastNext : Nat → List Match → Nat
  | p, [] => p
  | _, m :: ms => lastNext m.next ms

theorem slice_end (i : Nat) : slice s i s.length = s.drop i := by
  rw [slice, take_length]

theorem lastStop_eq {cp : Nat} {ms : List Match} {m : Match} (h : ms.getLast? = some m) : lastStop cp ms = m.stop := by
  induction ms generalizing cp with
  | nil => cases h
  | cons m' ms ih =>
    rw [lastStop]
    cases ms with
    | nil =>
      cases h
      rfl
    | cons => exact ih h

theorem lastNext_eq {p : Nat} {ms : List Match} {m : Match} (h : ms.getLast? = some m) : lastNext p ms = m.next := by
  induction ms generalizing p with
  | nil => cases h
  | cons m' ms ih =>
    rw [lastNext]
    cases ms with
    | nil =>
      cases h
      rfl
    | cons => exact ih h

/-- The text with the matches replaced and all else kept. -/
def splice (ms : List Match) : List α := replaced s piece 0 1 ms ++ s.drop (lastStop 0 ms)

end

/-! ## Loops -/

section

variable {σ ε : Type}

/-- A loop whose body goes on (`inl`), breaks off (`inr`) or fails; `none` when the fuel is used up. -/
def loop (body : σ → Except ε (σ ⊕ σ)) : Nat → σ → Option (Except ε σ)
  | 0, _ => none
  | k + 1, s =>
    match body s with
    | .error e => some (.error e)
    | .ok (.inl s) => loop body k s
    | .ok (.inr s) => some (.ok s)

end

end OpenResty.Lib.Matches
