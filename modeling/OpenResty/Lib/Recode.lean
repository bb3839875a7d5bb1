/-
Texts that are read item by item and written anew, all at once or as they arrive,
and where what is written comes to lie in buffers.
-/
import Mathlib.Data.List.Basic

namespace OpenResty.Lib.Recode

open List

/-- What is read at the front of a text: how much of it, and what is written for that.
Nothing is read where the text breaks off, and what follows does not change an item. -/
structure Reader (α β : Type) where
  read : List α → Option (Nat × List β)
  sound : ∀ xs k out, read xs = some (k, out) → 0 < k ∧ k ≤ xs.length
  stable : ∀ xs ys k out, read xs = some (k, out) → read (xs ++ ys) = some (k, out)

variable {α β : Type} (r : Reader α β)

/-- What is written for at most `n` items, and the text behind them. -/
def recode : Nat → List α → List β × List α
  | 0, xs => ([], xs)
  | n + 1, xs =>
    match r.read xs with
    | none => ([], xs)
    | some (k, out) => (out ++ (recode n (xs.drop k)).1, (recode n (xs.drop k)).2)

/-- What is written for a text. -/
def Reader.text (xs : List α) : List β := (recode r xs.length xs).1

/-- The end of a text that is not read. -/
def Reader.tail (xs : List α) : List α := (recode r xs.length xs).2

/-- How many buffers are full and how much lies in the next one after at most `n` items,
when `breaks` says which item begins a new one. -/
def pourFrom (breaks : List α → Nat → Bool) : Nat → List α → Nat → Nat → Nat × Nat
  | 0, _, l, u => (l, u)
  | n + 1, xs, l, u =>
    match r.read xs with
    | none => (l, u)
    | some (k, out) =>
      if breaks xs u then pourFrom breaks n (xs.drop k) (l + 1) out.length
      else pourFrom breaks n (xs.drop k) l (u + out.length)

def Reader.pour (breaks : List α → Nat → Bool) (xs : List α) (l u : Nat) : Nat × Nat := pourFrom r breaks xs.length xs l u

variable {r} {xs : List α} {k : Nat} {out : List β}

theorem length_drop_lt (h : r.read xs = some (k, out)) : (xs.drop k).length < xs.length := by
  obtain ⟨hpos, hle⟩ := r.sound xs k out h
  rw [length_drop]
  omega

/-- Induction along the items of a text. -/
theorem Reader.induction {P : List α → Prop} (stop : ∀ xs, r.read xs = none → P xs)
    (item : ∀ xs k out, r.read xs = some (k, out) → P (xs.drop k) → P xs) (xs : List α) : P xs := by
  match h : r.read xs with
  | none => exact stop xs h
  | some (k, out) => exact item xs k out h (Reader.induction stop item (xs.drop k))
termination_by xs.length
decreasing_by exact length_drop_lt h

@[simp] theorem read_nil : r.read [] = none := by
  match h : r.read [] with
  | none => rfl
  | some (k, out) =>
    obtain ⟨hpos, hle⟩ := r.sound [] k out h
    rw [length_nil] at hle
    omega

/-- Enough is as good as more. -/
theorem recode_fuel {m n : Nat} (hm : xs.length ≤ m) (hn : xs.length ≤ n) : recode r m xs = recode r n xs := by
  induction xs using r.induction generalizing m n with
  | stop xs h =>
    have none_read (n : Nat) : recode r n xs = ([], xs) := by
      cases n with
      | zero => rfl
      | succ n => rw [recode, h]
    rw [none_read m, none_read n]
  | item xs k out h ih =>
    have hlt := length_drop_lt h
    obtain ⟨m, rfl⟩ : ∃ i, m = i + 1 := ⟨m - 1, by omega⟩
    obtain ⟨n, rfl⟩ : ∃ i, n = i + 1 := ⟨n - 1, by omega⟩
    have hrest : recode r m (xs.drop k) = recode r n (xs.drop k) := ih (by omega) (by omega)
    rw [recode, recode, h]
    dsimp only
    rw [hrest]

theorem text_stop (h : r.read xs = none) : r.text xs = [] := by
  rw [Reader.text]
  cases xs with
  | nil => rfl
  | cons x xs => rw [length_cons, recode, h]

theorem tail_stop (h : r.read xs = none) : r.tail xs = xs := by
  rw [Reader.tail]
  cases xs with
  | nil => rfl
  | cons x xs => rw [length_cons, recode, h]

theorem recode_item (h : r.read xs = some (k, out)) :
    recode r xs.length xs = (out ++ r.text (xs.drop k), r.tail (xs.drop k)) := by
  have hlt := length_drop_lt h
  obtain ⟨n, hn⟩ : ∃ i, xs.length = i + 1 := ⟨xs.length - 1, by omega⟩
  have hrest : recode r n (xs.drop k) = recode r (xs.drop k).length (xs.drop k) := recode_fuel (by omega) (Nat.le_refl _)
  rw [hn, recode, h]
  dsimp only
  rw [hrest]
  rfl

theorem text_item (h : r.read xs = some (k, out)) : r.text xs = out ++ r.text (xs.drop k) := by
  rw [Reader.text, recode_item h]

theorem tail_item (h : r.read xs = some (k, out)) : r.tail xs = r.tail (xs.drop k) := by
  rw [Reader.tail, recode_item h]

@[simp] theorem text_nil : r.text [] = [] := rfl

@[simp] theorem tail_nil : r.tail [] = [] := rfl

/-- No item begins the rest. -/
@[simp] theorem read_tail (xs : List α) : r.read (r.tail xs) = none := by
  induction xs using r.induction with
  | stop xs h => rwa [tail_stop h]
  | item xs k out h ih => rwa [tail_item h]

theorem tail_suffix (xs : List α) : r.tail xs <:+ xs := by
  induction xs using r.induction with
  | stop xs h => exact ⟨[], by rw [tail_stop h, nil_append]⟩
  | item xs k out h ih =>
    rw [tail_item h]
    exact ih.trans (drop_suffix k xs)

/-- **A text that goes on behind another: what is read of it begins with the rest of the other.** -/
theorem recode_append (xs ys : List α) :
    r.text (xs ++ ys) = r.text xs ++ r.text (r.tail xs ++ ys) ∧ r.tail (xs ++ ys) = r.tail (r.tail xs ++ ys) := by
  induction xs using r.induction with
  | stop xs h => simp [text_stop h, tail_stop h]
  | item xs k out h ih =>
    obtain ⟨hpos, hle⟩ := r.sound xs k out h
    have happend := r.stable xs ys k out h
    have hdrop : (xs ++ ys).drop k = xs.drop k ++ ys := drop_append_of_le_length hle
    rw [text_item happend, tail_item happend, text_item h, tail_item h, hdrop, ih.1, ih.2, append_assoc]
    exact ⟨rfl, rfl⟩

variable {breaks : List α → Nat → Bool}

theorem pourFrom_fuel {m n : Nat} (hm : xs.length ≤ m) (hn : xs.length ≤ n) (l u : Nat) :
    pourFrom r breaks m xs l u = pourFrom r breaks n xs l u := by
  induction xs using r.induction generalizing m n l u with
  | stop xs h =>
    have none_read (n : Nat) : pourFrom r breaks n xs l u = (l, u) := by
      cases n with
      | zero => rfl
      | succ n => rw [pourFrom, h]
    rw [none_read m, none_read n]
  | item xs k out h ih =>
    have hlt := length_drop_lt h
    obtain ⟨m, rfl⟩ : ∃ i, m = i + 1 := ⟨m - 1, by omega⟩
    obtain ⟨n, rfl⟩ : ∃ i, n = i + 1 := ⟨n - 1, by omega⟩
    have hrest (l u : Nat) : pourFrom r breaks m (xs.drop k) l u = pourFrom r breaks n (xs.drop k) l u :=
      ih (by omega) (by omega) l u
    rw [pourFrom, pourFrom, h]
    dsimp only
    rw [hrest, hrest]

theorem pour_stop (h : r.read xs = none) (l u : Nat) : r.pour breaks xs l u = (l, u) := by
  rw [Reader.pour]
  cases xs with
  | nil => rfl
  | cons x xs => rw [length_cons, pourFrom, h]

theorem pour_item (h : r.read xs = some (k, out)) (l u : Nat) :
    r.pour breaks xs l u =
      if breaks xs u then r.pour breaks (xs.drop k) (l + 1) out.length
      else r.pour breaks (xs.drop k) l (u + out.length) := by
  have hlt := length_drop_lt h
  obtain ⟨n, hn⟩ : ∃ i, xs.length = i + 1 := ⟨xs.length - 1, by omega⟩
  rw [Reader.pour, hn, pourFrom, h]
  dsimp only
  have enough (l u : Nat) : pourFrom r breaks n (xs.drop k) l u = r.pour breaks (xs.drop k) l u :=
    pourFrom_fuel (by omega) (Nat.le_refl _) l u
  rw [enough, enough]

end OpenResty.Lib.Recode
