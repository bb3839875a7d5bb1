/-
Rewriting a buffer in place: one position reads, another writes behind it, and what a piece of
the input stands for is never longer than the piece.
-/
import OpenResty.Lib.Memory

namespace OpenResty.Lib

open List

/-- A buffer with its read position and its write position. -/
structure Pass where
  buf : Bytes
  i : Nat
  d : Nat

namespace Pass

variable (s : Pass)

/-- What is not read yet. -/
def rest : Bytes := s.buf.drop s.i

/-- What is written so far. -/
def out : Bytes := s.buf.take s.d

/-- `input[k]`; nothing is read behind the end. -/
def read (k : Nat) : Option UInt8 := s.buf[k]?

/-- Tests of bytes from the read position on, joined by `&&`: none is read after one that fails. -/
def tests : List (Nat × (UInt8 → Bool)) → Option Bool
  | [] => some true
  | (k, p) :: ts => do
    if p (← s.read (s.i + k)) then tests ts else some false

/-- `i + n < input_len &&`, and tests. -/
def ahead (n : Nat) (ts : List (Nat × (UInt8 → Bool))) : Option Bool :=
  if s.i + n < s.buf.length then s.tests ts else some false

/-- `*d = c` -/
def set (c : UInt8) : Pass := { s with buf := s.buf.set s.d c }

/-- `d++`, and `n` bytes are read. -/
def move (w n : Nat) : Pass := { s with i := s.i + n, d := s.d + w }

/-- The loop of a pass, as long as there is something to read. -/
def loop (step : Pass → Option Pass) : Nat → Pass → Option Pass
  | 0, s => some s
  | fuel + 1, s => if s.i < s.buf.length then (step s).bind (loop step fuel) else some s

/-- The states the loop goes through. -/
inductive Reaches (step : Pass → Option Pass) : Pass → Pass → Prop
  | refl (s : Pass) : Reaches step s s
  | tail {s s' s'' : Pass} (h : Reaches step s s') (hlt : s'.i < s'.buf.length) (hstep : step s' = some s'') :
      Reaches step s s''

end Pass

/-- What stands at a position: the bytes it is rewritten to, and how many it takes. -/
abbrev Piece := Nat → Bytes → Bytes × Nat

/-- The whole input, rewritten piece by piece out of place. -/
def rewrite (piece : Piece) : Nat → Nat → Bytes → Bytes
  | 0, _, _ => []
  | _ + 1, _, [] => []
  | fuel + 1, i, c :: cs =>
    (piece i (c :: cs)).1 ++ rewrite piece fuel (i + (piece i (c :: cs)).2) ((c :: cs).drop (piece i (c :: cs)).2)

/-- A piece takes something, and not more than there is, and does not grow. -/
def Shrinking (piece : Piece) : Prop :=
  ∀ i c cs, 0 < (piece i (c :: cs)).2 ∧ (piece i (c :: cs)).2 ≤ (c :: cs).length ∧
    (piece i (c :: cs)).1.length ≤ (piece i (c :: cs)).2

/-- A step writes what the next piece is rewritten to behind what is written, and leaves what
follows the piece as it is. -/
def Writes (s s' : Pass) (piece : Bytes × Nat) : Prop :=
  s'.i = s.i + piece.2 ∧ s'.d = s.d + piece.1.length ∧ s'.buf.length = s.buf.length ∧
    s'.out = s.out ++ piece.1 ∧ s'.rest = s.rest.drop piece.2

/-- Wherever the write position is not ahead, a step takes the next piece. -/
def StepsBy (step : Pass → Option Pass) (piece : Piece) : Prop :=
  ∀ s : Pass, s.d ≤ s.i → s.i < s.buf.length → ∃ s', step s = some s' ∧ Writes s s' (piece s.i s.rest)

variable {step : Pass → Option Pass} {piece : Piece}

theorem Pass.rest_cons {s : Pass} (h : s.i < s.buf.length) : ∃ c cs, s.rest = c :: cs :=
  exists_cons_of_length_pos (by unfold Pass.rest; rw [length_drop]; omega)

theorem Pass.length_rest (s : Pass) : s.rest.length = s.buf.length - s.i := length_drop

/-- The write position stays behind the read position. -/
theorem Writes.behind {s s' : Pass} {c : UInt8} {cs : Bytes} (hshrink : Shrinking piece) (hbehind : s.d ≤ s.i)
    (hrest : s.rest = c :: cs) (h : Writes s s' (piece s.i s.rest)) :
    s'.d ≤ s'.i ∧ s'.i ≤ s'.buf.length ∧ s'.rest.length < s.rest.length := by
  obtain ⟨hi, hd, hlength, -, hrest'⟩ := h
  obtain ⟨hpos, hle, hshort⟩ := hshrink s.i c cs
  have hlen := s.length_rest
  rw [hrest] at hi hd hrest' hlen
  have hrest'' : s'.rest.length = (c :: cs).length - (piece s.i (c :: cs)).2 := by rw [hrest', length_drop]
  rw [hrest]
  have hcons : 0 < (c :: cs).length := Nat.succ_pos _
  omega

/-- **In place is out of place**: the loop ends, having read and written what the pieces say. -/
theorem Pass.loop_eq (hstep : StepsBy step piece) (hshrink : Shrinking piece) (fuel : Nat) {s : Pass}
    (hbehind : s.d ≤ s.i) (hi : s.i ≤ s.buf.length) (hfuel : s.rest.length ≤ fuel) :
    ∃ s', Pass.loop step fuel s = some s' ∧ s'.out = s.out ++ rewrite piece fuel s.i s.rest ∧
      s'.i = s.buf.length := by
  induction fuel generalizing s with
  | zero =>
    have hlen := s.length_rest
    have hnil : s.rest = [] := eq_nil_iff_length_eq_zero.mpr (by omega)
    exact ⟨s, rfl, by rw [rewrite, append_nil], by omega⟩
  | succ fuel ih =>
    rw [Pass.loop]
    by_cases hlt : s.i < s.buf.length
    · obtain ⟨s', hs', hwrites⟩ := hstep s hbehind hlt
      obtain ⟨c, cs, hrest⟩ := Pass.rest_cons hlt
      obtain ⟨hbehind', hi', hless⟩ := hwrites.behind hshrink hbehind hrest
      obtain ⟨s'', hloop, hout, hend⟩ := ih hbehind' hi' (by omega)
      rw [if_pos hlt, hs', Option.bind_some]
      obtain ⟨hieq, -, hlength, hout', hrest'⟩ := hwrites
      refine ⟨s'', hloop, ?_, hend.trans hlength⟩
      rw [hout, hout', hieq, hrest', hrest, rewrite, append_assoc]
    · have hlen := s.length_rest
      have hnil : s.rest = [] := eq_nil_iff_length_eq_zero.mpr (by omega)
      rw [if_neg hlt]
      refine ⟨s, rfl, ?_, by omega⟩
      rw [hnil, rewrite, append_nil]

/-- In every state of the loop the write position is not ahead, and the buffer has its length. -/
theorem Pass.Reaches.behind (hstep : StepsBy step piece) (hshrink : Shrinking piece) {s s' : Pass}
    (h : Pass.Reaches step s s') (hbehind : s.d ≤ s.i) (hi : s.i ≤ s.buf.length) :
    s'.d ≤ s'.i ∧ s'.i ≤ s'.buf.length ∧ s'.buf.length = s.buf.length := by
  induction h with
  | refl => exact ⟨hbehind, hi, rfl⟩
  | tail _ hlt hs ih =>
    obtain ⟨hbehind', -, hlength'⟩ := ih
    obtain ⟨s₁, hs₁, hwrites⟩ := hstep _ hbehind' hlt
    obtain ⟨c, cs, hrest⟩ := Pass.rest_cons hlt
    cases hs.symm.trans hs₁
    obtain ⟨hle, hle', -⟩ := hwrites.behind hshrink hbehind' hrest
    exact ⟨hle, hle', hwrites.2.2.1.trans hlength'⟩

/-! ## Steps of one byte -/

namespace Pass

variable {s : Pass}

theorem read_rest (s : Pass) (k : Nat) : s.read (s.i + k) = s.rest[k]? := by
  unfold read rest
  rw [getElem?_drop]

@[simp] theorem set_i (c : UInt8) : (s.set c).i = s.i := rfl

@[simp] theorem set_d (c : UInt8) : (s.set c).d = s.d := rfl

@[simp] theorem length_set (c : UInt8) : (s.set c).buf.length = s.buf.length := List.length_set

@[simp] theorem set_set (c c' : UInt8) : (s.set c).set c' = s.set c' := by
  unfold set
  rw [List.set_set]

variable {c : UInt8}

/-- A byte in front of the write position's reads as before. -/
theorem read_set {k : Nat} (h : s.d < k) : (s.set c).read k = s.read k :=
  getElem?_set_ne (by omega)

theorem read_set_self (h : s.d < s.buf.length) : (s.set c).read s.d = some c :=
  getElem?_set_self h

/-- What is written does not change what is read ahead. -/
theorem tests_set (hbehind : s.d ≤ s.i) {ts : List (Nat × (UInt8 → Bool))} (hts : ∀ t ∈ ts, 0 < t.1) :
    (s.set c).tests ts = s.tests ts := by
  induction ts with
  | nil => rfl
  | cons t ts ih =>
    obtain ⟨k, p⟩ := t
    have hk : 0 < k := hts (k, p) mem_cons_self
    rw [tests, tests, set_i, read_set (by omega), ih fun t ht => hts t (mem_cons_of_mem _ ht)]

/-- One byte is written for `n` that are read. -/
theorem writes_byte {n : Nat} (hbehind : s.d ≤ s.i) (hi : s.i < s.buf.length) (hn : 0 < n) :
    Writes s ((s.set c).move 1 n) ([c], n) := by
  refine ⟨rfl, rfl, List.length_set, ?_, ?_⟩
  · have hd : s.d < s.buf.length := by omega
    simp only [out, move, set]
    rw [take_add_one, take_set_of_le (Nat.le_refl _), getElem?_set_self hd]
    rfl
  · simp only [rest, move, set]
    rw [drop_set, if_pos (by omega), drop_drop]

/-- Nothing is written for `n` that are read. -/
theorem writes_nothing {n : Nat} : Writes s (s.move 0 n) ([], n) := by
  refine ⟨rfl, rfl, rfl, (append_nil _).symm, ?_⟩
  simp only [rest, move]
  rw [drop_drop]

end Pass

end OpenResty.Lib
