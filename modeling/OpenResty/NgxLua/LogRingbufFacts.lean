/-
What the log ring buffer holds. Its messages lie either in one stretch from
head to tail, or in two: the older ones from head to the sentinel, the newer
ones from the start of the data to tail.
-/
import Mathlib.Data.List.Induction
import Mathlib.Data.List.TakeDrop
import OpenResty.NgxLua.LogRingbuf

namespace OpenResty.NgxLua.LogRingbuf

open Lib List Nat

/-! ## Headers -/

/-- A header is read back as it was written. -/
theorem Header.decode_encode (h : Header) : Header.decode h.encode = h := by
  have h8 : (toBytes 8 h.time.toNat).length = 8 := length_toBytes _ _
  have h4 : (toBytes 4 h.len.toNat).length = 4 := length_toBytes _ _
  have htime : h.encode.take 8 = toBytes 8 h.time.toNat := by
    rw [Header.encode, take_append_of_le_length (by omega), take_of_length_le (by omega)]
  have hrest : h.encode.drop 8 = toBytes 4 h.len.toNat ++ toBytes 4 h.log_level.toNat := by
    rw [Header.encode, drop_append_of_le_length (by omega), drop_of_length_le (by omega), nil_append]
  have hlen : (h.encode.drop 8).take 4 = toBytes 4 h.len.toNat := by
    rw [hrest, take_append_of_le_length (by omega), take_of_length_le (by omega)]
  have hlevel : (h.encode.drop 12).take 4 = toBytes 4 h.log_level.toNat := by
    rw [show 12 = 8 + 4 from rfl, ← drop_drop, hrest, drop_append_of_le_length (by omega),
      drop_of_length_le (by omega), nil_append, take_of_length_le (by simp)]
  have time : h.time.toNat < 256 ^ 8 := h.time.toNat_lt
  have len : h.len.toNat < 256 ^ 4 := h.len.toNat_lt
  have level : h.log_level.toNat < 256 ^ 4 := h.log_level.toNat_lt
  simp only [Header.decode, htime, hlen, hlevel, fromBytes_toBytes, mod_eq_of_lt time, mod_eq_of_lt len,
    mod_eq_of_lt level, UInt64.ofNat_toNat, UInt32.ofNat_toNat]

/-! ## Messages in memory -/

def Msg.header (m : Msg) : Header := { time := m.time, len := UInt32.ofNat m.body.length, log_level := m.level }

/-- The bytes of a message with its header. -/
def Msg.frame (m : Msg) : Bytes := m.header.encode ++ m.body

/-- The messages lie one behind the other from `off` to `stop`. -/
def Laid (mem : Memory) : Nat → List Msg → Nat → Prop
  | off, [], stop => off = stop
  | off, m :: q, stop =>
    m.body.length < 2 ^ 32 ∧ mem.load off m.frame.length = m.frame ∧ Laid mem (off + m.frame.length) q stop

theorem Laid.le {mem : Memory} {off stop : Nat} {q : List Msg} (h : Laid mem off q stop) : off ≤ stop := by
  induction q generalizing off with
  | nil => exact Nat.le_of_eq h
  | cons m q ih => exact Nat.le_trans (Nat.le_add_right _ _) (ih h.2.2)

theorem Laid.append {mem : Memory} {off mid stop : Nat} {q q' : List Msg} (h : Laid mem off q mid)
    (h' : Laid mem mid q' stop) : Laid mem off (q ++ q') stop := by
  induction q generalizing off with
  | nil => rwa [show off = mid from h]
  | cons m q ih => exact ⟨h.1, h.2.1, ih h.2.2⟩

/-- A store beside the messages leaves them alone. -/
theorem Laid.store {mem : Memory} {off stop o : Nat} {q : List Msg} {bs : Bytes} (h : Laid mem off q stop)
    (hbeside : stop ≤ o ∨ o + bs.length ≤ off) : Laid (mem.store o bs) off q stop := by
  induction q generalizing off with
  | nil => exact h
  | cons m q ih =>
    have hle := h.2.2.le
    refine ⟨h.1, ?_, ih h.2.2 (by omega)⟩
    rw [Memory.load_store_beside _ (by omega), h.2.1]

theorem Laid.stored (mem : Memory) (off : Nat) {m : Msg} (h : m.body.length < 2 ^ 32) :
    Laid (mem.store off m.frame) off [m] (off + m.frame.length) :=
  ⟨h, Memory.load_store .., rfl⟩

theorem Laid.nonempty {mem : Memory} {off stop : Nat} {q : List Msg} (h : Laid mem off q stop) (hlt : off < stop) :
    ∃ m q', q = m :: q' := by
  cases q with
  | nil => exact absurd (show off = stop from h) (Nat.ne_of_lt hlt)
  | cons m q => exact ⟨m, q, rfl⟩

/-! ## The shapes of the buffer -/

inductive Shape (rb : Ringbuf) : List Msg → Prop
  | empty : rb.head = 0 → rb.tail = 0 → Shape rb []
  | linear : Laid rb.data rb.head q rb.tail → rb.head < rb.tail → rb.tail ≤ rb.sentinel → Shape rb q
  | wrapped : Laid rb.data rb.head older rb.sentinel → Laid rb.data 0 newer rb.tail → rb.tail ≤ rb.head →
      rb.head < rb.sentinel → Shape rb (older ++ newer)

/-- The buffer holds the messages `q`, the oldest first. -/
structure Holds (rb : Ringbuf) (q : List Msg) : Prop where
  shape : Shape rb q
  count : rb.count = q.length
  sentinel : rb.sentinel ≤ rb.size

namespace Ringbuf

/-- What both a read and a throw-away do to head and count. -/
def advance (rb : Ringbuf) (head : Nat) : Ringbuf :=
  let rb := { rb with head, count := rb.count - 1 }
  let rb := if rb.count = 0 then rb.reset else rb
  { rb with head := rb.nextHeader }

end Ringbuf

/-! ## Runs -/

theorem Runs.det {rb rb₁ rb₂ : Ringbuf} {q p q₁ q₂ : List Msg} {ops : List Op} (h₁ : Runs rb q ops rb₁ q₁)
    (h₂ : Runs rb p ops rb₂ q₂) : rb₁ = rb₂ := by
  induction h₁ generalizing p with
  | nil => cases h₂; rfl
  | cons hstep _ _ ih =>
    cases h₂ with
    | cons hstep' _ hruns =>
      rw [hstep] at hstep'
      cases hstep'
      exact ih hruns

theorem Runs.last {rb rb' : Ringbuf} {q q' : List Msg} {ops : List Op} {op : Op}
    (h : Runs rb q (ops ++ [op]) rb' q') :
    ∃ rb₁ q₁ r, Runs rb q ops rb₁ q₁ ∧ step rb₁ op = .ok (r, rb') ∧ Serves rb₁ q₁ op r q' := by
  induction ops generalizing rb q with
  | nil =>
    cases h with
    | cons hstep hserves hruns => cases hruns; exact ⟨rb, q, _, .nil, hstep, hserves⟩
  | cons op' ops ih =>
    cases h with
    | cons hstep hserves hruns =>
      obtain ⟨rb₁, q₁, r, hruns₁, hlast⟩ := ih hruns
      exact ⟨rb₁, q₁, r, .cons hstep hserves hruns₁, hlast⟩

end OpenResty.NgxLua.LogRingbuf
