/-
Reads from a TCP cosocket whose peer sends known bytes, any of which an error
may strike before.

A read that fails has consumed the bytes that had arrived: `receive` returns
them as its third value, and the callers here drop it.
-/
import Mathlib.Data.List.Basic

namespace OpenResty.Resty.Cosocket

open List

/-- The bytes that the peer sends from here on and, when an error strikes, how
many of them arrive before it. -/
structure Wire where
  bytes : List UInt8
  cut : Option (Nat × String) := none
deriving DecidableEq

/-- What a read answers, with errors of any kind, and the wire after it; `none` while it waits. -/
abbrev ReadingE (ε α : Type) := Option (Except ε α × Wire)

abbrev Reading (α : Type) := ReadingE String α

/-- The wire with the first `n` bytes gone. -/
def Wire.after (w : Wire) (n : Nat) : Wire := { bytes := w.bytes.drop n, cut := w.cut.map fun (k, err) => (k - n, err) }

/-- `sock:receive(n)` -/
def receive (n : Nat) (w : Wire) : Reading (List UInt8) :=
  match w.cut with
  | some (k, err) =>
    if k < n then if k ≤ w.bytes.length then some (.error err, { bytes := w.bytes.drop k }) else none
    else if n ≤ w.bytes.length then some (.ok (w.bytes.take n), w.after n) else none
  | none => if n ≤ w.bytes.length then some (.ok (w.bytes.take n), w.after n) else none

/-- `sock:receive()`: a line, up to its LF and without any CR. -/
def receiveLine (w : Wire) : Reading (List UInt8) :=
  (receive (w.bytes.idxOf 10 + 1) w).map fun (line, w) => (line.map fun line => line.dropLast.filter (· ≠ 13), w)

variable {ε ε' α β : Type}

/-- A read whose error gets a text before it. -/
def named (msg : String) (r : Reading α) : Reading α := r.map fun (a, w) => (a.mapError (msg ++ ·), w)

/-- A read with its error turned into another. -/
def failing (f : ε → ε') (r : ReadingE ε α) : ReadingE ε' α := r.map fun (a, w) => (a.mapError f, w)

/-- A read, and what follows when it gets its bytes. -/
def andThen (r : ReadingE ε α) (f : α → Wire → ReadingE ε β) : ReadingE ε β :=
  r.bind fun (a, w) =>
    match a with
    | .ok a => f a w
    | .error err => some (.error err, w)

/-- What needs no read. -/
def answer (a : Except ε α) (w : Wire) : ReadingE ε α := some (a, w)

@[simp] theorem named_ok (msg : String) (a : α) (w : Wire) : named msg (some (.ok a, w)) = some (.ok a, w) := rfl

@[simp] theorem failing_ok (f : ε → ε') (a : α) (w : Wire) :
    failing f (some (.ok a, w) : ReadingE ε α) = some (.ok a, w) := rfl

@[simp] theorem failing_error (f : ε → ε') (err : ε) (w : Wire) :
    failing f (some (.error err, w) : ReadingE ε α) = some (.error (f err), w) := rfl

@[simp] theorem andThen_ok (a : α) (w : Wire) (f : α → Wire → ReadingE ε β) : andThen (some (.ok a, w)) f = f a w := rfl

@[simp] theorem andThen_error (err : ε) (w : Wire) (f : α → Wire → ReadingE ε β) :
    andThen (some (.error err, w)) f = some (.error err, w) := rfl

/-- No error strikes before the first `n` bytes have arrived. -/
def Wire.Calm (w : Wire) (n : Nat) : Prop := ∀ k err, w.cut = some (k, err) → n ≤ k

variable {w : Wire} {bs rest : List UInt8}

theorem receive_calm (hw : w.bytes = bs ++ rest) (hcalm : w.Calm bs.length) :
    receive bs.length w = some (.ok bs, w.after bs.length) := by
  have htake : w.bytes.take bs.length = bs := by rw [hw, take_left]
  have hlen : bs.length ≤ w.bytes.length := by rw [hw, length_append]; exact Nat.le_add_right _ _
  rw [receive]
  split
  · next k err hcut => rw [if_neg (Nat.not_lt.mpr (hcalm k err hcut)), if_pos hlen, htake]
  · rw [if_pos hlen, htake]

variable {k m n : Nat}

theorem receive_cut (hw : w.bytes = bs ++ rest) {err : String}
    (hcut : w.cut = some (k, err)) (hk : k < bs.length) :
    receive bs.length w = some (.error err, { bytes := w.bytes.drop k }) := by
  have hlen : k ≤ w.bytes.length := by rw [hw, length_append]; omega
  rw [receive, hcut]
  exact (if_pos hk).trans (if_pos hlen)

/-- A line that holds no LF, nor a CR but at its end. -/
theorem receiveLine_eq {line : List UInt8} (hw : w.bytes = line ++ 10 :: rest) (hline : 10 ∉ line) :
    receiveLine w = (receive (line ++ [10]).length w).map fun (l, w) => (l.map fun l => l.dropLast.filter (· ≠ 13), w) := by
  have hidx : w.bytes.idxOf 10 = line.length := by
    rw [hw, idxOf_append_of_notMem hline, idxOf_cons_self, Nat.add_zero]
  rw [receiveLine, hidx, length_append]
  rfl

theorem Wire.after_bytes (hw : w.bytes = bs ++ rest) : (w.after bs.length).bytes = rest := by
  rw [Wire.after, hw, drop_left]

theorem after_zero (w : Wire) : w.after 0 = w := by
  obtain ⟨bytes, cut⟩ := w
  cases cut <;> rfl

theorem after_after (w : Wire) (m n : Nat) : (w.after m).after n = w.after (m + n) := by
  obtain ⟨bytes, cut⟩ := w
  cases cut with
  | none => simp [Wire.after]
  | some c => simp [Wire.after, Nat.sub_sub]

theorem calm_after (h : w.Calm (m + n)) : (w.after m).Calm n := by
  intro k err hcut
  rw [Wire.after, Option.map_eq_some_iff] at hcut
  obtain ⟨⟨k', err'⟩, hcut, heq⟩ := hcut
  have := h k' err' hcut
  cases heq
  omega

theorem Wire.Calm.le (h : w.Calm n) (hmn : m ≤ n) : w.Calm m := fun k err hcut => Nat.le_trans hmn (h k err hcut)

theorem calm_of_cut {err : String} (hcut : w.cut = some (k, err)) (h : n ≤ k) : w.Calm n := by
  intro k' err' hcut'
  rw [hcut] at hcut'
  cases hcut'
  exact h

/-- Where these bytes come next and nothing strikes, the read takes just them and gives the answer. -/
def Takes (read : Wire → ReadingE ε α) (bs : List UInt8) (a : Except ε α) : Prop :=
  ∀ w rest, w.bytes = bs ++ rest → w.Calm bs.length → read w = some (a, w.after bs.length)

theorem Takes.andThen {read : Wire → ReadingE ε α} {f : α → Wire → ReadingE ε β} {bs' : List UInt8} {a : α} {b : Except ε β}
    (h : Takes read bs (.ok a)) (h' : Takes (f a) bs' b) : Takes (fun w => andThen (read w) f) (bs ++ bs') b := by
  intro w rest hw hcalm
  rw [append_assoc] at hw
  rw [length_append] at hcalm
  simp only [h w _ hw (hcalm.le (Nat.le_add_right _ _)), andThen_ok]
  rw [h' (w.after bs.length) rest (Wire.after_bytes hw) (calm_after hcalm), after_after, length_append]

theorem Takes.answer (a : Except ε α) : Takes (answer a) [] a := by
  intro w rest _ _
  rw [length_nil, after_zero]
  rfl

theorem Takes.receive (msg : String) (f : String → ε) (bs : List UInt8) :
    Takes (fun w => failing f (named msg (receive bs.length w))) bs (.ok bs) := by
  intro w rest hw hcalm
  simp only [receive_calm hw hcalm, named_ok, failing_ok]

end OpenResty.Resty.Cosocket
