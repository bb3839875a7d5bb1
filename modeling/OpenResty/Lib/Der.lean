/-
Integers as contents octets: bytes from the most significant one on, a number in
two's complement, and the shortest bytes for it.
-/
import Mathlib.Algebra.Order.Ring.Int
import Mathlib.Tactic.Ring
import OpenResty.Lib.Memory

namespace OpenResty.Lib.Der

open Lib List

/-- The number bytes stand for, without a sign. -/
def natValue : Bytes → Nat
  | [] => 0
  | b :: bs => b.toNat * 256 ^ bs.length + natValue bs

/-- The bit of the sign is set. -/
def negative : Bytes → Bool
  | [] => false
  | b :: _ => decide (128 ≤ b.toNat)

/-- The number in two's complement. -/
def intValue (bs : Bytes) : Int := if negative bs then (natValue bs : Int) - 256 ^ bs.length else natValue bs

/-- The first nine bits are not all the same. -/
def Shortest : Bytes → Prop
  | [] => False
  | [_] => True
  | a :: b :: _ => ¬(a.toNat = 0 ∧ b.toNat < 128) ∧ ¬(a.toNat = 255 ∧ 128 ≤ b.toNat)

/-- The contents octets of an INTEGER. -/
structure IsInteger (n : Int) (contents : Bytes) : Prop where
  value : intValue contents = n
  shortest : Shortest contents

/-- A tag, a length of one byte, and the contents. -/
def tlv (tag : UInt8) (contents : Bytes) : Bytes := tag :: UInt8.ofNat contents.length :: contents

/-- A SEQUENCE of INTEGERs, every length of one byte. -/
def IsSequence (ns : List Int) (der : Bytes) : Prop :=
  ∃ contents : List Bytes, Forall₂ IsInteger ns contents ∧ (∀ c ∈ contents, c.length < 128) ∧
    (contents.flatMap (tlv 2)).length < 128 ∧ der = tlv 0x30 (contents.flatMap (tlv 2))

/-! ## Values -/

theorem natValue_lt (bs : Bytes) : natValue bs < 256 ^ bs.length := by
  induction bs with
  | nil => exact Nat.one_pos
  | cons b bs ih =>
    have hbyte : b.toNat + 1 ≤ 256 := b.toNat_lt
    rw [natValue, length_cons, Nat.pow_succ, Nat.mul_comm _ 256]
    calc b.toNat * 256 ^ bs.length + natValue bs < b.toNat * 256 ^ bs.length + 256 ^ bs.length := by omega
      _ = (b.toNat + 1) * 256 ^ bs.length := by ring
      _ ≤ 256 * 256 ^ bs.length := Nat.mul_le_mul_right _ hbyte

theorem natValue_append (bs cs : Bytes) : natValue (bs ++ cs) = natValue bs * 256 ^ cs.length + natValue cs := by
  induction bs with
  | nil => rw [nil_append, natValue, Nat.zero_mul, Nat.zero_add]
  | cons b bs ih =>
    rw [cons_append, natValue, natValue, ih, length_append, Nat.pow_add]
    ring

/-- A number is as long as its first byte that is not zero says. -/
theorem le_natValue {b : UInt8} (hb : 0 < b.toNat) (bs : Bytes) : 256 ^ bs.length ≤ natValue (b :: bs) :=
  Nat.le_trans (Nat.le_mul_of_pos_left _ hb) (Nat.le_add_right _ _)

theorem natValue_zero (bs : Bytes) : natValue (0 :: bs) = natValue bs := by
  rw [natValue, UInt8.toNat_zero, Nat.zero_mul, Nat.zero_add]

theorem natValue_zeros (k : Nat) (bs : Bytes) : natValue (replicate k 0 ++ bs) = natValue bs := by
  induction k with
  | zero => rfl
  | succ k ih => rw [replicate_succ, cons_append, natValue_zero, ih]

theorem natValue_eq_zero {bs : Bytes} : natValue bs = 0 ↔ bs = replicate bs.length 0 := by
  induction bs with
  | nil => exact ⟨fun _ => rfl, fun _ => rfl⟩
  | cons b bs ih =>
    have hpos : 0 < 256 ^ bs.length := Nat.pow_pos (by decide)
    rw [natValue, length_cons, replicate_succ, List.cons.injEq, ← ih, Nat.add_eq_zero_iff,
      Nat.mul_eq_zero, ← UInt8.toNat_inj, UInt8.toNat_zero]
    constructor
    · rintro ⟨hb | hpow, hbs⟩
      · exact ⟨hb, hbs⟩
      · omega
    · rintro ⟨hb, hbs⟩
      exact ⟨.inl hb, hbs⟩

theorem intValue_of_not_negative {bs : Bytes} (h : negative bs = false) : intValue bs = natValue bs := by
  rw [intValue, h]
  rfl

theorem intValue_of_negative {bs : Bytes} (h : negative bs = true) : intValue bs = natValue bs - 256 ^ bs.length := by
  rw [intValue, h]
  rfl

/-- The sign is set from half of the numbers of the length on. -/
theorem negative_iff (b : UInt8) (bs : Bytes) :
    negative (b :: bs) = true ↔ 256 ^ (b :: bs).length ≤ 2 * natValue (b :: bs) := by
  have hlt := natValue_lt bs
  rw [negative, decide_eq_true_iff, natValue, length_cons, Nat.pow_succ]
  constructor
  · intro h
    have := Nat.mul_le_mul_right (256 ^ bs.length) h
    omega
  · intro h
    by_contra hlow
    have := Nat.mul_le_mul_right (256 ^ bs.length) (show b.toNat + 1 ≤ 128 by omega)
    rw [Nat.add_mul, Nat.one_mul] at this
    omega

end OpenResty.Lib.Der
