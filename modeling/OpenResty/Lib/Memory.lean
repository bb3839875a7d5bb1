/-
A byte memory: blocks of bytes stored and loaded, and numbers as
little-endian words of bytes.
-/
import Mathlib.Algebra.Order.Ring.Nat
import Mathlib.Data.List.Basic

namespace OpenResty.Lib

open List

abbrev Bytes := List UInt8

theorem forall_byte {p : UInt8 → Prop} (h : ∀ n : Fin 256, p (.ofFin n)) (c : UInt8) : p c := h c.toFin

/-- A byte at every address. -/
abbrev Memory := Nat → UInt8

namespace Memory

/-- The `n` bytes from `off` on. -/
def load (mem : Memory) (off : Nat) : Nat → Bytes
  | 0 => []
  | n + 1 => mem off :: load mem (off + 1) n

/-- The bytes `bs`, stored from `off` on. -/
def store (mem : Memory) (off : Nat) (bs : Bytes) : Memory := fun a =>
  if off ≤ a then (bs[a - off]?).getD (mem a) else mem a

@[simp] theorem length_load (mem : Memory) (off n : Nat) : (mem.load off n).length = n := by
  induction n generalizing off with
  | zero => rfl
  | succ n ih => simp [load, ih]

theorem load_add (mem : Memory) (off m n : Nat) : mem.load off (m + n) = mem.load off m ++ mem.load (off + m) n := by
  induction m generalizing off with
  | zero => simp [load]
  | succ m ih =>
    rw [show m + 1 + n = m + n + 1 by omega]
    simp only [load, ih, cons_append]
    rw [show off + 1 + m = off + (m + 1) by omega]

theorem load_congr {mem mem' : Memory} {off n : Nat} (h : ∀ a, off ≤ a → a < off + n → mem a = mem' a) :
    mem.load off n = mem'.load off n := by
  induction n generalizing off with
  | zero => rfl
  | succ n ih =>
    simp only [load]
    rw [h off (Nat.le_refl _) (by omega), ih fun a ha ha' => h a (by omega) (by omega)]

/-- Two blocks, one behind the other -/
theorem load_append {mem : Memory} {off : Nat} {a b : Bytes} (h : mem.load off (a ++ b).length = a ++ b) :
    mem.load off a.length = a ∧ mem.load (off + a.length) b.length = b := by
  rw [length_append, load_add] at h
  exact append_inj h (mem.length_load off a.length)

/-- What has been stored is loaded. -/
theorem load_store (mem : Memory) (off : Nat) (bs : Bytes) : (mem.store off bs).load off bs.length = bs := by
  induction bs generalizing mem off with
  | nil => rfl
  | cons b bs ih =>
    have htail : (mem.store off (b :: bs)).load (off + 1) bs.length = (mem.store (off + 1) bs).load
      (off + 1) bs.length := by
      refine load_congr fun a ha ha' => ?_
      obtain ⟨i, rfl⟩ : ∃ i, a = off + 1 + i := ⟨a - (off + 1), by omega⟩
      have hi : i < bs.length := by omega
      rw [store, store, if_pos (by omega), if_pos ha, show off + 1 + i - off = i + 1 by omega,
        Nat.add_sub_cancel_left, getElem?_cons_succ, getElem?_eq_getElem hi]
    simp only [length_cons, load, htail, ih]
    simp [store]

/-- One store after another, just behind it. -/
theorem store_append (mem : Memory) (off : Nat) (bs bs' : Bytes) :
    (mem.store off bs).store (off + bs.length) bs' = mem.store off (bs ++ bs') := by
  funext a
  simp only [store]
  rcases Nat.lt_or_ge a off with ha | ha
  · rw [if_neg (by omega), if_neg (by omega), if_neg (by omega)]
  rcases Nat.lt_or_ge a (off + bs.length) with hb | hb
  · rw [if_neg (by omega), if_pos ha, if_pos ha, getElem?_append_left (by omega)]
  · have hout : bs[a - off]? = none := getElem?_eq_none (by omega)
    rw [if_pos hb, if_pos ha, if_pos ha, getElem?_append_right (by omega), hout, Nat.sub_sub]
    rfl

/-- A store leaves the blocks beside it alone. -/
theorem load_store_beside (mem : Memory) {off o n : Nat} {bs : Bytes} (h : off + n ≤ o ∨ o + bs.length ≤ off) :
    (mem.store o bs).load off n = mem.load off n := by
  refine load_congr fun a ha ha' => ?_
  unfold store
  split
  · next hle =>
    rw [getElem?_eq_none (by omega)]
    rfl
  · rfl

end Memory

/-! ## Words -/

/-- The `n` low bytes of a number, the lowest first. -/
def toBytes : Nat → Nat → Bytes
  | 0, _ => []
  | n + 1, v => UInt8.ofNat v :: toBytes n (v / 256)

def fromBytes : Bytes → Nat
  | [] => 0
  | b :: bs => b.toNat + 256 * fromBytes bs

@[simp] theorem length_toBytes (n v : Nat) : (toBytes n v).length = n := by
  induction n generalizing v with
  | zero => rfl
  | succ n ih => simp [toBytes, ih]

/-- A word is read back as the number, up to its width. -/
theorem fromBytes_toBytes (n v : Nat) : fromBytes (toBytes n v) = v % 256 ^ n := by
  induction n generalizing v with
  | zero => simp [toBytes, fromBytes, Nat.mod_one]
  | succ n ih =>
    have byte : (UInt8.ofNat v).toNat = v % 256 := UInt8.toNat_ofNat'
    rw [toBytes, fromBytes, ih, byte, Nat.pow_succ', Nat.mod_mul]

end OpenResty.Lib
