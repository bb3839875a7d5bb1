/-
`set_encode_base32` and `set_decode_base32` of set-misc-nginx-module, `ngx_http_set_base32.c`.

A source is a list of as many bytes as it is long, and a pointer into it the bytes from there
on. Reading behind its end gives `none`.
-/
import Mathlib.Data.List.Nodup
import OpenResty.Lib.Memory

namespace OpenResty.Ndk.Base32

open Lib List Nat Function

/-! ## Encoding -/

def encoded_length (len : Nat) : Nat := (len + 4) / 5 * 8

def decoded_length (len : Nat) : Nat := (len + 7) / 8 * 5

/-- `basis32[..]` for some places of the alphabet -/
def chars (alphabet ds : Bytes) : Option Bytes := ds.mapM fun d => alphabet[d.toNat]?

/-- What is written for the last bytes, fewer than five. -/
def encodeTail (alphabet : Bytes) (padding : Bool) (s : Bytes) (len : Nat) : Option Bytes :=
  if len = 0 then some []
  else do
    let pad (n : Nat) : Bytes := if padding then replicate n 61 else []
    let s0 ← s[0]?
    let c0 ← chars alphabet [s0 >>> 3]
    let rest ←
      if len = 1 then do
        let c1 ← chars alphabet [(s0 &&& 0x07) <<< 2]
        pure (c1 ++ pad 5)
      else do
        let s1 ← s[1]?
        let c1 ← chars alphabet [(s0 &&& 0x07) <<< 2 ||| s1 >>> 6, s1 >>> 1 &&& 0x1f]
        if len = 2 then do
          let c2 ← chars alphabet [(s1 &&& 1) <<< 4]
          pure (c1 ++ c2 ++ pad 3)
        else do
          let s2 ← s[2]?
          let c2 ← chars alphabet [(s1 &&& 1) <<< 4 ||| s2 >>> 4]
          if len = 3 then do
            let c3 ← chars alphabet [(s2 &&& 0x0f) <<< 1]
            pure (c1 ++ c2 ++ c3 ++ pad 2)
          else do
            let s3 ← s[3]?
            let c3 ← chars alphabet [(s2 &&& 0x0f) <<< 1 ||| s3 >>> 7, s3 >>> 2 &&& 0x1f, (s3 &&& 0x03) <<< 3]
            pure (c1 ++ c2 ++ c3)
    return c0 ++ rest ++ pad 1

def encodeLoop (alphabet : Bytes) (padding : Bool) : Bytes → Nat → Option Bytes
  | s, len + 5 => do
    let s0 ← s[0]?
    let s1 ← s[1]?
    let s2 ← s[2]?
    let s3 ← s[3]?
    let s4 ← s[4]?
    let d ← chars alphabet
      [s0 >>> 3, (s0 &&& 0x07) <<< 2 ||| s1 >>> 6, s1 >>> 1 &&& 0x1f, (s1 &&& 1) <<< 4 ||| s2 >>> 4,
        (s2 &&& 0x0f) <<< 1 ||| s3 >>> 7, s3 >>> 2 &&& 0x1f, (s3 &&& 0x03) <<< 3 ||| s4 >>> 5, s4 &&& 0x1f]
    return d ++ (← encodeLoop alphabet padding (s.drop 5) len)
  | s, len => encodeTail alphabet padding s len

def encode_base32 (alphabet : Bytes) (padding : Bool) (src : Bytes) : Option Bytes :=
  encodeLoop alphabet padding src src.length

/-! ## Decoding -/

/-- `conf->basis32`. The table is allocated and not cleared, so it holds anything before. -/
def inverse (before : UInt8 → UInt8) (alphabet : Bytes) : UInt8 → UInt8 :=
  alphabet.zipIdx.foldl (fun basis32 c => update basis32 c.1 (UInt8.ofNat c.2)) before

/-- The bytes before the padding; `none` for a byte that the table does not have. -/
def count (basis32 : UInt8 → UInt8) : Bytes → Option Nat
  | [] => some 0
  | c :: s => if c = 61 then some 0 else if basis32 c = 77 then none else (count basis32 s).map (· + 1)

def decodeTail (basis32 : UInt8 → UInt8) (s : Bytes) (len : Nat) : Option Bytes :=
  if len = 0 then some []
  else do
    let s0 := basis32 (← s[0]?)
    let s1 := basis32 (← s[1]?)
    let d0 := s0 <<< 3 ||| (s1 >>> 2 &&& 0x07)
    if 2 < len then
      let s2 := basis32 (← s[2]?)
      let s3 := basis32 (← s[3]?)
      let d1 := (s1 &&& 0x03) <<< 6 ||| (s2 &&& 0x1f) <<< 1 ||| (s3 >>> 4 &&& 1)
      if 4 < len then
        let s4 := basis32 (← s[4]?)
        let d2 := (s3 &&& 0x0f) <<< 4 ||| (s4 >>> 1 &&& 0x0f)
        if 5 < len then
          let s5 := basis32 (← s[5]?)
          let s6 := basis32 (← s[6]?)
          let d3 := (s4 &&& 1) <<< 7 ||| (s5 &&& 0x1f) <<< 2 ||| (s6 >>> 3 &&& 0x03)
          return [d0, d1, d2, d3]
        else return [d0, d1, d2]
      else return [d0, d1]
    else return [d0]

def decodeLoop (basis32 : UInt8 → UInt8) : Bytes → Nat → Option Bytes
  | s, len + 8 => do
    let s0 := basis32 (← s[0]?)
    let s1 := basis32 (← s[1]?)
    let s2 := basis32 (← s[2]?)
    let s3 := basis32 (← s[3]?)
    let s4 := basis32 (← s[4]?)
    let s5 := basis32 (← s[5]?)
    let s6 := basis32 (← s[6]?)
    let s7 := basis32 (← s[7]?)
    let d := [s0 <<< 3 ||| (s1 >>> 2 &&& 0x07), (s1 &&& 0x03) <<< 6 ||| s2 <<< 1 ||| (s3 >>> 4 &&& 1),
      (s3 &&& 0x0f) <<< 4 ||| (s4 >>> 1 &&& 0x0f), (s4 &&& 1) <<< 7 ||| (s5 &&& 0x1f) <<< 2 ||| (s6 >>> 3 &&& 0x03),
      (s6 &&& 0x07) <<< 5 ||| (s7 &&& 0x1f)]
    return d ++ (← decodeLoop basis32 (s.drop 8) len)
  | s, len => decodeTail basis32 s len

/-- What is decoded, or `none` for -1; and `none` for all when the source is left. -/
def decode_base32 (basis32 : UInt8 → UInt8) (src : Bytes) : Option (Option Bytes) :=
  match count basis32 src with
  | none => some none
  | some len =>
    let mod := len % 8
    if mod = 1 ∨ mod = 3 ∨ mod = 6 then some none else (decodeLoop basis32 src len).map some

/-! ## Alphabets -/

/-- 32 characters, none of them twice and none the padding. -/
structure Alphabet where
  data : Bytes
  length_eq : data.length = 32
  nodup : data.Nodup
  noPad : (61 : UInt8) ∉ data

instance : Inhabited Alphabet where
  default :=
    { data := "0123456789abcdefghijklmnopqrstuv".toUTF8.data.toList
      length_eq := by decide
      nodup := by decide
      noPad := by decide }

/-! What `set_encode_base32` writes is decoded to what it was, with every alphabet, and neither
side leaves its source or its buffer. -/

variable {a : Alphabet} {s ds : Bytes}

/-! ## Digits -/

/-- The eight digits of five bytes. -/
def group (s0 s1 s2 s3 s4 : UInt8) : Bytes :=
  [s0 >>> 3, (s0 &&& 0x07) <<< 2 ||| s1 >>> 6, s1 >>> 1 &&& 0x1f, (s1 &&& 1) <<< 4 ||| s2 >>> 4,
    (s2 &&& 0x0f) <<< 1 ||| s3 >>> 7, s3 >>> 2 &&& 0x1f, (s3 &&& 0x03) <<< 3 ||| s4 >>> 5, s4 &&& 0x1f]

/-- The digits of a text. Those of its last bytes are some of a group that ends in zeros. -/
def digits : Bytes → Bytes
  | s0 :: s1 :: s2 :: s3 :: s4 :: s => group s0 s1 s2 s3 s4 ++ digits s
  | [s0, s1, s2, s3] => (group s0 s1 s2 s3 0).take 7
  | [s0, s1, s2] => (group s0 s1 s2 0 0).take 5
  | [s0, s1] => (group s0 s1 0 0 0).take 4
  | [s0] => (group s0 0 0 0 0).take 2
  | [] => []

theorem or_lt {x y : UInt8} (hx : x < 32) (hy : y < 32) : x ||| y < 32 := by
  rw [UInt8.lt_iff_toNat_lt] at hx hy ⊢
  rw [UInt8.toNat_or]
  exact or_lt_two_pow (n := 5) hx hy

def below (n : Nat) : Bytes := (List.range n).map UInt8.ofNat

/-- All parts of a digit are digits, each part of a byte has as many bits as there is room for, and
the byte is put together from its parts. -/
theorem byte_checked : ∀ b : UInt8,
    (b >>> 3 < 32 ∧ b >>> 6 < 32 ∧ b >>> 4 < 32 ∧ b >>> 7 < 32 ∧ b >>> 5 < 32 ∧
      (b &&& 0x07) <<< 2 < 32 ∧ b >>> 1 &&& 0x1f < 32 ∧ (b &&& 1) <<< 4 < 32 ∧ (b &&& 0x0f) <<< 1 < 32 ∧
      b >>> 2 &&& 0x1f < 32 ∧ (b &&& 0x03) <<< 3 < 32 ∧ b &&& 0x1f < 32) ∧
    (b &&& 0x07 ∈ below 8 ∧ b &&& 1 ∈ below 2 ∧ b &&& 0x0f ∈ below 16 ∧ b &&& 0x03 ∈ below 4 ∧
      b >>> 6 ∈ below 4 ∧ b >>> 4 ∈ below 16 ∧ b >>> 7 ∈ below 2 ∧ b >>> 5 ∈ below 8) ∧
    b >>> 3 <<< 3 ||| b &&& 0x07 = b ∧
    b >>> 6 <<< 6 ||| (b >>> 1 &&& 0x1f) <<< 1 ||| b &&& 1 = b ∧
    b >>> 4 <<< 4 ||| b &&& 0x0f = b ∧ b >>> 7 <<< 7 ||| (b >>> 2 &&& 0x1f) <<< 2 ||| b &&& 0x03 = b ∧
    b >>> 5 <<< 5 ||| b &&& 0x1f = b ∧ b &&& 0x1f &&& 0x1f = b &&& 0x1f := forall_byte (by decide +kernel)

theorem group_lt (s0 s1 s2 s3 s4 : UInt8) : ∀ d ∈ group s0 s1 s2 s3 s4, d < 32 := by
  have h0 := (byte_checked s0).1
  have h1 := (byte_checked s1).1
  have h2 := (byte_checked s2).1
  have h3 := (byte_checked s3).1
  have h4 := (byte_checked s4).1
  simp only [group, forall_mem_cons, not_mem_nil, false_implies, implies_true, and_true]
  exact ⟨h0.1, or_lt h0.2.2.2.2.2.1 h1.2.1, h1.2.2.2.2.2.2.1, or_lt h1.2.2.2.2.2.2.2.1 h2.2.2.1,
    or_lt h2.2.2.2.2.2.2.2.2.1 h3.2.2.2.1, h3.2.2.2.2.2.2.2.2.2.1, or_lt h3.2.2.2.2.2.2.2.2.2.2.1 h4.2.2.2.2.1,
    h4.2.2.2.2.2.2.2.2.2.2.2⟩

theorem digits_lt : ∀ s : Bytes, ∀ d ∈ digits s, d < 32
  | s0 :: s1 :: s2 :: s3 :: s4 :: s => forall_mem_append.mpr ⟨group_lt s0 s1 s2 s3 s4, digits_lt s⟩
  | [s0, s1, s2, s3] => fun d hd => group_lt s0 s1 s2 s3 0 d (mem_of_mem_take hd)
  | [s0, s1, s2] => fun d hd => group_lt s0 s1 s2 0 0 d (mem_of_mem_take hd)
  | [s0, s1] => fun d hd => group_lt s0 s1 0 0 0 d (mem_of_mem_take hd)
  | [s0] => fun d hd => group_lt s0 0 0 0 0 d (mem_of_mem_take hd)
  | [] => fun _ hd => absurd hd not_mem_nil

theorem length_digits : ∀ s : Bytes, (digits s).length = (8 * s.length + 4) / 5
  | s0 :: s1 :: s2 :: s3 :: s4 :: s => by
    have hlen : (digits (s0 :: s1 :: s2 :: s3 :: s4 :: s)).length = 8 + (digits s).length := length_append
    rw [hlen, length_digits s]
    simp only [length_cons]
    omega
  | [_, _, _, _] | [_, _, _] | [_, _] | [_] | [] => by simp only [length_cons, length_nil]; rfl

/-! ## Alphabets -/

namespace Alphabet

def char (a : Alphabet) (d : UInt8) : UInt8 := a.data.getD d.toNat 0

theorem getElem?_eq (a : Alphabet) {d : UInt8} (h : d < 32) : a.data[d.toNat]? = some (a.char d) := by
  rw [UInt8.lt_iff_toNat_lt] at h
  have hlt : d.toNat < a.data.length := a.length_eq ▸ h
  rw [char, getD_eq_getElem?_getD, getElem?_eq_getElem hlt]
  rfl

theorem chars_eq (a : Alphabet) (h : ∀ d ∈ ds, d < 32) : chars a.data ds = some (ds.map a.char) := by
  induction ds with
  | nil => rfl
  | cons d ds ih =>
    obtain ⟨hd, hds⟩ := forall_mem_cons.mp h
    rw [chars, mapM_cons, a.getElem?_eq hd]
    exact congrArg (Option.bind · fun cs => some (a.char d :: cs)) (ih hds)

theorem char_ne (a : Alphabet) {d : UInt8} (h : d < 32) : a.char d ≠ 61 := fun heq =>
  a.noPad (heq ▸ mem_of_getElem? (a.getElem?_eq h))

end Alphabet

theorem foldl_other {cs : List (UInt8 × Nat)} {c : UInt8} (h : c ∉ cs.map Prod.fst) (before : UInt8 → UInt8) :
    cs.foldl (fun basis32 c => update basis32 c.1 (UInt8.ofNat c.2)) before c = before c := by
  induction cs generalizing before with
  | nil => rfl
  | cons e cs ih =>
    rw [map_cons, mem_cons, not_or] at h
    exact (ih h.2 _).trans (update_of_ne h.1 ..)

theorem foldl_mem {cs : List (UInt8 × Nat)} (hnodup : (cs.map Prod.fst).Nodup) {e : UInt8 × Nat} (he : e ∈ cs)
    (before : UInt8 → UInt8) :
    cs.foldl (fun basis32 c => update basis32 c.1 (UInt8.ofNat c.2)) before e.1 = UInt8.ofNat e.2 := by
  induction cs generalizing before with
  | nil => exact absurd he not_mem_nil
  | cons e' cs ih =>
    obtain ⟨hnot, hrest⟩ := nodup_cons.mp hnodup
    rcases mem_cons.mp he with rfl | he
    · exact (foldl_other hnot _).trans (update_self ..)
    · exact ih hrest he _

/-- The table has the place of each character, whatever it held before. -/
theorem inverse_char (before : UInt8 → UInt8) {d : UInt8} (h : d < 32) : inverse before a.data (a.char d) = d := by
  have hmem : (a.char d, d.toNat) ∈ a.data.zipIdx := mem_zipIdx_iff_getElem?.mpr (a.getElem?_eq h)
  have hnodup : (a.data.zipIdx.map Prod.fst).Nodup := by
    rw [zipIdx_map_fst]
    exact a.nodup
  exact (foldl_mem hnodup hmem before).trans UInt8.ofNat_toNat

/-! ## Encoding -/

/-- The padding of a text. -/
def pads (padding : Bool) (s : Bytes) : Bytes :=
  if padding then replicate (encoded_length s.length - (digits s).length) 61 else []

theorem encodeLoop_cons (alphabet : Bytes) (padding : Bool) (s0 s1 s2 s3 s4 : UInt8) (s : Bytes) (len : Nat) :
    encodeLoop alphabet padding (s0 :: s1 :: s2 :: s3 :: s4 :: s) (len + 5) =
      (chars alphabet (group s0 s1 s2 s3 s4)).bind fun d =>
        (encodeLoop alphabet padding s len).bind fun rest => some (d ++ rest) := rfl

theorem pads_cons (padding : Bool) (s0 s1 s2 s3 s4 : UInt8) (s : Bytes) :
    pads padding (s0 :: s1 :: s2 :: s3 :: s4 :: s) = pads padding s := by
  simp only [pads, length_digits, encoded_length, length_cons]
  rw [show (s.length + 1 + 1 + 1 + 1 + 1 + 4) / 5 * 8 - (8 * (s.length + 1 + 1 + 1 + 1 + 1) + 4) / 5 =
    (s.length + 4) / 5 * 8 - (8 * s.length + 4) / 5 by omega]

theorem encodeLoop_eq (padding : Bool) : ∀ s : Bytes,
    encodeLoop a.data padding s s.length = some ((digits s).map a.char ++ pads padding s)
  | s0 :: s1 :: s2 :: s3 :: s4 :: s => by
    have hgroup := a.chars_eq (group_lt s0 s1 s2 s3 s4)
    have hcons := encodeLoop_cons a.data padding s0 s1 s2 s3 s4 s s.length
    rw [hgroup, encodeLoop_eq padding s] at hcons
    rw [pads_cons]
    refine hcons.trans ?_
    simp only [Option.bind_some, digits, map_append, append_assoc]
  | [s0, s1, s2, s3] => by
    have hd0 : ∀ d ∈ [s0 >>> 3], d < 32 := by simp [byte_checked]
    have hd1 : ∀ d ∈ [(s0 &&& 0x07) <<< 2 ||| s1 >>> 6, s1 >>> 1 &&& 0x1f], d < 32 := by simp [byte_checked, or_lt]
    have hd2 : ∀ d ∈ [(s1 &&& 1) <<< 4 ||| s2 >>> 4], d < 32 := by simp [byte_checked, or_lt]
    have hd3 : ∀ d ∈ [(s2 &&& 0x0f) <<< 1 ||| s3 >>> 7, s3 >>> 2 &&& 0x1f, (s3 &&& 0x03) <<< 3], d < 32 := by
      simp [byte_checked, or_lt]
    simp [encodeLoop, encodeTail, a.chars_eq hd0, a.chars_eq hd1, a.chars_eq hd2, a.chars_eq hd3, digits, group, pads,
      encoded_length]
  | [s0, s1, s2] => by
    have hd0 : ∀ d ∈ [s0 >>> 3], d < 32 := by simp [byte_checked]
    have hd1 : ∀ d ∈ [(s0 &&& 0x07) <<< 2 ||| s1 >>> 6, s1 >>> 1 &&& 0x1f], d < 32 := by simp [byte_checked, or_lt]
    have hd2 : ∀ d ∈ [(s1 &&& 1) <<< 4 ||| s2 >>> 4], d < 32 := by simp [byte_checked, or_lt]
    have hd3 : ∀ d ∈ [(s2 &&& 0x0f) <<< 1], d < 32 := by simp [byte_checked]
    simp [encodeLoop, encodeTail, a.chars_eq hd0, a.chars_eq hd1, a.chars_eq hd2, a.chars_eq hd3, digits, group, pads,
      encoded_length]
    cases padding <;> rfl
  | [s0, s1] => by
    have hd0 : ∀ d ∈ [s0 >>> 3], d < 32 := by simp [byte_checked]
    have hd1 : ∀ d ∈ [(s0 &&& 0x07) <<< 2 ||| s1 >>> 6, s1 >>> 1 &&& 0x1f], d < 32 := by simp [byte_checked, or_lt]
    have hd2 : ∀ d ∈ [(s1 &&& 1) <<< 4], d < 32 := by simp [byte_checked]
    simp [encodeLoop, encodeTail, a.chars_eq hd0, a.chars_eq hd1, a.chars_eq hd2, digits, group, pads, encoded_length]
    cases padding <;> rfl
  | [s0] => by
    have hd0 : ∀ d ∈ [s0 >>> 3], d < 32 := by simp [byte_checked]
    have hd1 : ∀ d ∈ [(s0 &&& 0x07) <<< 2], d < 32 := by simp [byte_checked]
    simp [encodeLoop, encodeTail, a.chars_eq hd0, a.chars_eq hd1, digits, group, pads, encoded_length]
    cases padding <;> rfl
  | [] => by cases padding <;> rfl

/-! ## Decoding -/

/-- Two parts of a digit are told apart, the upper one `k` bits up. -/
def Apart (k upper lower : UInt8) (m n : Nat) : Prop :=
  ∀ x ∈ below m, ∀ y ∈ below n, (x <<< k ||| y) >>> k &&& upper = x ∧ (x <<< k ||| y) &&& lower = y

instance (k upper lower : UInt8) (m n : Nat) : Decidable (Apart k upper lower m n) :=
  @decidableBAll _ _ (fun _ => decidableBAll _ _) _

theorem parts_checked : Apart 2 0x07 0x03 8 4 ∧ Apart 4 1 0x0f 2 16 ∧ Apart 1 0x0f 1 16 2 ∧ Apart 3 0x03 0x07 4 8 := by
  decide +kernel

theorem parts2 (b c : UInt8) : ((b &&& 0x07) <<< 2 ||| c >>> 6) >>> 2 &&& (0x07 : UInt8) = b &&& 0x07 ∧
    ((b &&& 0x07) <<< 2 ||| c >>> 6) &&& (0x03 : UInt8) = c >>> 6 :=
  parts_checked.1 _ (byte_checked b).2.1.1 _ (byte_checked c).2.1.2.2.2.2.1

theorem parts4 (b c : UInt8) : ((b &&& 1) <<< 4 ||| c >>> 4) >>> 4 &&& (1 : UInt8) = b &&& 1 ∧
    ((b &&& 1) <<< 4 ||| c >>> 4) &&& (0x0f : UInt8) = c >>> 4 :=
  parts_checked.2.1 _ (byte_checked b).2.1.2.1 _ (byte_checked c).2.1.2.2.2.2.2.1

theorem parts1 (b c : UInt8) : ((b &&& 0x0f) <<< 1 ||| c >>> 7) >>> 1 &&& (0x0f : UInt8) = b &&& 0x0f ∧
    ((b &&& 0x0f) <<< 1 ||| c >>> 7) &&& (1 : UInt8) = c >>> 7 :=
  parts_checked.2.2.1 _ (byte_checked b).2.1.2.2.1 _ (byte_checked c).2.1.2.2.2.2.2.2.1

theorem parts3 (b c : UInt8) : ((b &&& 0x03) <<< 3 ||| c >>> 5) >>> 3 &&& (0x03 : UInt8) = b &&& 0x03 ∧
    ((b &&& 0x03) <<< 3 ||| c >>> 5) &&& (0x07 : UInt8) = c >>> 5 :=
  parts_checked.2.2.2 _ (byte_checked b).2.1.2.2.2.1 _ (byte_checked c).2.1.2.2.2.2.2.2.2

variable (s0 s1 s2 s3 s4 : UInt8)

theorem join0 : s0 >>> 3 <<< 3 ||| (((s0 &&& 0x07) <<< 2 ||| s1 >>> 6) >>> 2 &&& 0x07) = s0 := by
  rw [(parts2 s0 s1).1, (byte_checked s0).2.2.1]

theorem join1 : (((s0 &&& 0x07) <<< 2 ||| s1 >>> 6) &&& 0x03) <<< 6 ||| (s1 >>> 1 &&& 0x1f) <<< 1 |||
    (((s1 &&& 1) <<< 4 ||| s2 >>> 4) >>> 4 &&& 1) = s1 := by
  rw [(parts2 s0 s1).2, (parts4 s1 s2).1, (byte_checked s1).2.2.2.1]

theorem join2 : (((s1 &&& 1) <<< 4 ||| s2 >>> 4) &&& 0x0f) <<< 4 |||
    (((s2 &&& 0x0f) <<< 1 ||| s3 >>> 7) >>> 1 &&& 0x0f) =
    s2 := by
  rw [(parts4 s1 s2).2, (parts1 s2 s3).1, (byte_checked s2).2.2.2.2.1]

theorem join3 : (((s2 &&& 0x0f) <<< 1 ||| s3 >>> 7) &&& 1) <<< 7 ||| (s3 >>> 2 &&& 0x1f &&& 0x1f) <<< 2 |||
    (((s3 &&& 0x03) <<< 3 ||| s4 >>> 5) >>> 3 &&& 0x03) = s3 := by
  rw [(parts1 s2 s3).2, (parts3 s3 s4).1, (byte_checked (s3 >>> 2)).2.2.2.2.2.2.2, (byte_checked s3).2.2.2.2.2.1]

theorem join4 : (((s3 &&& 0x03) <<< 3 ||| s4 >>> 5) &&& 0x07) <<< 5 ||| (s4 &&& 0x1f &&& 0x1f) = s4 := by
  rw [(parts3 s3 s4).2, (byte_checked s4).2.2.2.2.2.2.2, (byte_checked s4).2.2.2.2.2.2.1]

variable (basis32 : UInt8 → UInt8) (c0 c1 c2 c3 c4 c5 c6 c7 : UInt8)

theorem decodeLoop_cons (s : Bytes) (len : Nat) :
    decodeLoop basis32 (c0 :: c1 :: c2 :: c3 :: c4 :: c5 :: c6 :: c7 :: s) (len + 8) =
      (decodeLoop basis32 s len).bind fun rest => some
        ([basis32 c0 <<< 3 ||| (basis32 c1 >>> 2 &&& 0x07),
          (basis32 c1 &&& 0x03) <<< 6 ||| basis32 c2 <<< 1 ||| (basis32 c3 >>> 4 &&& 1),
          (basis32 c3 &&& 0x0f) <<< 4 ||| (basis32 c4 >>> 1 &&& 0x0f),
          (basis32 c4 &&& 1) <<< 7 ||| (basis32 c5 &&& 0x1f) <<< 2 ||| (basis32 c6 >>> 3 &&& 0x03),
          (basis32 c6 &&& 0x07) <<< 5 ||| (basis32 c7 &&& 0x1f)] ++ rest) := rfl

theorem decodeLoop_two (s : Bytes) :
    decodeLoop basis32 (c0 :: c1 :: s) 2 = some [basis32 c0 <<< 3 ||| (basis32 c1 >>> 2 &&& 0x07)] := rfl

theorem decodeLoop_four (s : Bytes) :
    decodeLoop basis32 (c0 :: c1 :: c2 :: c3 :: s) 4 = some [basis32 c0 <<< 3 ||| (basis32 c1 >>> 2 &&& 0x07),
      (basis32 c1 &&& 0x03) <<< 6 ||| (basis32 c2 &&& 0x1f) <<< 1 ||| (basis32 c3 >>> 4 &&& 1)] := rfl

theorem decodeLoop_five (s : Bytes) :
    decodeLoop basis32 (c0 :: c1 :: c2 :: c3 :: c4 :: s) 5 = some [basis32 c0 <<< 3 ||| (basis32 c1 >>> 2 &&& 0x07),
      (basis32 c1 &&& 0x03) <<< 6 ||| (basis32 c2 &&& 0x1f) <<< 1 ||| (basis32 c3 >>> 4 &&& 1),
      (basis32 c3 &&& 0x0f) <<< 4 ||| (basis32 c4 >>> 1 &&& 0x0f)] := rfl

theorem decodeLoop_seven (s : Bytes) :
    decodeLoop basis32 (c0 :: c1 :: c2 :: c3 :: c4 :: c5 :: c6 :: s) 7 = some [basis32 c0 <<< 3 |||
      (basis32 c1 >>> 2 &&& 0x07),
      (basis32 c1 &&& 0x03) <<< 6 ||| (basis32 c2 &&& 0x1f) <<< 1 ||| (basis32 c3 >>> 4 &&& 1),
      (basis32 c3 &&& 0x0f) <<< 4 ||| (basis32 c4 >>> 1 &&& 0x0f),
      (basis32 c4 &&& 1) <<< 7 ||| (basis32 c5 &&& 0x1f) <<< 2 ||| (basis32 c6 >>> 3 &&& 0x03)] := rfl

omit s0 s1 s2 s3 s4 basis32 c0 c1 c2 c3 c4 c5 c6 c7

theorem map_char_inverse (before : UInt8 → UInt8) (h : ∀ d ∈ ds, d < 32) :
    ∀ d ∈ ds, inverse before a.data (a.char d) = d := fun d hd => inverse_char before (h d hd)

/-- The digits of a text, and what stands behind them, are decoded to the text. -/
theorem decodeLoop_digits (before : UInt8 → UInt8) (rest : Bytes) : ∀ s : Bytes,
    decodeLoop (inverse before a.data) ((digits s).map a.char ++ rest) (digits s).length = some s
  | s0 :: s1 :: s2 :: s3 :: s4 :: s => by
    have h := map_char_inverse (a := a) before (group_lt s0 s1 s2 s3 s4)
    simp only [group, forall_mem_cons] at h
    have hlen : (digits (s0 :: s1 :: s2 :: s3 :: s4 :: s)).length = (digits s).length + 8 :=
      length_append.trans (Nat.add_comm ..)
    have hloop := decodeLoop_cons (inverse before a.data) (a.char (s0 >>> 3))
      (a.char ((s0 &&& 0x07) <<< 2 ||| s1 >>> 6))
      (a.char (s1 >>> 1 &&& 0x1f)) (a.char ((s1 &&& 1) <<< 4 ||| s2 >>> 4))
        (a.char ((s2 &&& 0x0f) <<< 1 ||| s3 >>> 7))
      (a.char (s3 >>> 2 &&& 0x1f)) (a.char ((s3 &&& 0x03) <<< 3 ||| s4 >>> 5)) (a.char (s4 &&& 0x1f))
      ((digits s).map a.char ++ rest) (digits s).length
    rw [h.1, h.2.1, h.2.2.1, h.2.2.2.1, h.2.2.2.2.1, h.2.2.2.2.2.1, h.2.2.2.2.2.2.1, h.2.2.2.2.2.2.2.1, join0,
      join1, join2,
      join3, join4, decodeLoop_digits before rest s] at hloop
    rw [hlen]
    exact hloop
  | [s0, s1, s2, s3] => by
    have h := map_char_inverse (a := a) before (group_lt s0 s1 s2 s3 0)
    simp only [group, forall_mem_cons] at h
    refine (decodeLoop_seven (inverse before a.data) _ _ _ _ _ _ _ rest).trans ?_
    rw [h.1, h.2.1, h.2.2.1, h.2.2.2.1, h.2.2.2.2.1, h.2.2.2.2.2.1, h.2.2.2.2.2.2.1, join0,
      (byte_checked (s1 >>> 1)).2.2.2.2.2.2.2, join1,
      join2, join3]
  | [s0, s1, s2] => by
    have h := map_char_inverse (a := a) before (group_lt s0 s1 s2 0 0)
    simp only [group, forall_mem_cons] at h
    refine (decodeLoop_five (inverse before a.data) _ _ _ _ _ rest).trans ?_
    rw [h.1, h.2.1, h.2.2.1, h.2.2.2.1, h.2.2.2.2.1, join0, (byte_checked (s1 >>> 1)).2.2.2.2.2.2.2, join1, join2]
  | [s0, s1] => by
    have h := map_char_inverse (a := a) before (group_lt s0 s1 0 0 0)
    simp only [group, forall_mem_cons] at h
    refine (decodeLoop_four (inverse before a.data) _ _ _ _ rest).trans ?_
    rw [h.1, h.2.1, h.2.2.1, h.2.2.2.1, join0, (byte_checked (s1 >>> 1)).2.2.2.2.2.2.2, join1]
  | [s0] => by
    have h := map_char_inverse (a := a) before (group_lt s0 0 0 0 0)
    simp only [group, forall_mem_cons] at h
    refine (decodeLoop_two (inverse before a.data) _ _ rest).trans ?_
    rw [h.1, h.2.1, join0]
  | [] => rfl

theorem count_append {cs rest : Bytes} {basis32 : UInt8 → UInt8} (h : ∀ c ∈ cs, c ≠ 61 ∧ basis32 c ≠ 77)
    (hrest : count basis32 rest = some 0) : count basis32 (cs ++ rest) = some cs.length := by
  induction cs with
  | nil => exact hrest
  | cons c cs ih =>
    obtain ⟨⟨hpad, hbad⟩, hcs⟩ := forall_mem_cons.mp h
    rw [cons_append, count, if_neg hpad, if_neg hbad, ih hcs]
    rfl

theorem count_pads (basis32 : UInt8 → UInt8) (padding : Bool) (s : Bytes) :
    count basis32 (pads padding s) = some 0 := by
  rw [pads]
  split
  · cases encoded_length s.length - (digits s).length <;> rfl
  · rfl

theorem count_le {basis32 : UInt8 → UInt8} {src : Bytes} {len : Nat} (h : count basis32 src = some len) :
    len ≤ src.length := by
  induction src generalizing len with
  | nil =>
    cases h
    exact Nat.le_refl 0
  | cons c src ih =>
    rw [count] at h
    split_ifs at h
    · cases h
      exact Nat.zero_le _
    · obtain ⟨len, hlen, rfl⟩ := Option.map_eq_some_iff.mp h
      exact succ_le_succ (ih hlen)

theorem decode_encoded (before : UInt8 → UInt8) (padding : Bool) (s : Bytes) :
    decode_base32 (inverse before a.data) ((digits s).map a.char ++ pads padding s) = some (some s) := by
  have hchars : ∀ c ∈ (digits s).map a.char, c ≠ 61 ∧ inverse before a.data c ≠ 77 := by
    intro c hc
    obtain ⟨d, hd, rfl⟩ := mem_map.mp hc
    have hlt := digits_lt s d hd
    refine ⟨a.char_ne hlt, ?_⟩
    rw [inverse_char before hlt]
    rintro rfl
    exact absurd hlt (by decide)
  have hmod : ¬ ((digits s).length % 8 = 1 ∨ (digits s).length % 8 = 3 ∨ (digits s).length % 8 = 6) := by
    rw [length_digits]
    omega
  rw [decode_base32, count_append hchars (count_pads _ padding s), length_map]
  simp only [if_neg hmod, decodeLoop_digits before (pads padding s) s]
  rfl

/-! ## Any source -/

/-- A source that is long enough is read up to `len`. -/
theorem decodeLoop_total (basis32 : UInt8 → UInt8) : ∀ (len : Nat) (cs rest : Bytes), cs.length = len →
    ¬ (len % 8 = 1 ∨ len % 8 = 3 ∨ len % 8 = 6) →
    ∃ out, decodeLoop basis32 (cs ++ rest) len = some out ∧ out.length ≤ decoded_length len
  | len + 8, c0 :: c1 :: c2 :: c3 :: c4 :: c5 :: c6 :: c7 :: cs, rest, hlen, hmod => by
    simp only [length_cons, Nat.add_right_cancel_iff] at hlen
    obtain ⟨out, hout, hle⟩ := decodeLoop_total basis32 len cs rest hlen (by omega)
    have hloop := decodeLoop_cons basis32 c0 c1 c2 c3 c4 c5 c6 c7 (cs ++ rest) len
    rw [hout] at hloop
    refine ⟨_, hloop, ?_⟩
    simp only [decoded_length, length_append, length_cons, length_nil] at hle ⊢
    omega
  | 7, [c0, c1, c2, c3, c4, c5, c6], rest, _, _ =>
      ⟨_, decodeLoop_seven basis32 c0 c1 c2 c3 c4 c5 c6 rest, le_of_ble_eq_true rfl⟩
  | 5, [c0, c1, c2, c3, c4], rest, _, _ => ⟨_, decodeLoop_five basis32 c0 c1 c2 c3 c4 rest, le_of_ble_eq_true rfl⟩
  | 4, [c0, c1, c2, c3], rest, _, _ => ⟨_, decodeLoop_four basis32 c0 c1 c2 c3 rest, le_of_ble_eq_true rfl⟩
  | 2, [c0, c1], rest, _, _ => ⟨_, decodeLoop_two basis32 c0 c1 rest, le_of_ble_eq_true rfl⟩
  | 0, [], _, _, _ => ⟨[], rfl, Nat.zero_le _⟩
  | 1, _, _, _, hmod => absurd (.inl rfl) hmod
  | 3, _, _, _, hmod => absurd (.inr (.inl rfl)) hmod
  | 6, _, _, _, hmod => absurd (.inr (.inr rfl)) hmod

theorem decode_total (basis32 : UInt8 → UInt8) (src : Bytes) :
    ∃ r, decode_base32 basis32 src = some r ∧ ∀ out, r = some out → out.length ≤ decoded_length src.length := by
  rw [decode_base32]
  cases hcount : count basis32 src with
  | none => exact ⟨none, rfl, fun _ h => by cases h⟩
  | some len =>
    by_cases hmod : len % 8 = 1 ∨ len % 8 = 3 ∨ len % 8 = 6
    · exact ⟨none, if_pos hmod, fun _ h => by cases h⟩
    · have hle := count_le hcount
      have htake : (src.take len).length = len := by rw [length_take, Nat.min_eq_left hle]
      obtain ⟨out, hout, hlen⟩ := decodeLoop_total basis32 len (src.take len) (src.drop len) htake hmod
      rw [take_append_drop] at hout
      refine ⟨some out, ?_, fun _ h => ?_⟩
      · simp only [if_neg hmod, hout]
        rfl
      · cases h
        refine hlen.trans ?_
        simp only [decoded_length]
        omega

/-- **Every text is encoded within the buffer and decoded again, and no source makes the decoder
leave it or its buffer.** -/
theorem base32_right (a : Alphabet) (before : UInt8 → UInt8) (padding : Bool) (s : Bytes) :
    (∃ text, encode_base32 a.data padding s = some text ∧ decode_base32 (inverse before a.data) text = some (some s) ∧
      text.length ≤ encoded_length s.length ∧ (padding = true → text.length = encoded_length s.length)) ∧
    ∀ (basis32 : UInt8 → UInt8) (src : Bytes), ∃ r, decode_base32 basis32 src = some r ∧
      ∀ out, r = some out → out.length ≤ decoded_length src.length := by
  have hle : (digits s).length ≤ encoded_length s.length := by
    rw [length_digits, encoded_length]
    omega
  refine ⟨⟨_, encodeLoop_eq padding s, decode_encoded before padding s, ?_⟩, decode_total⟩
  rw [length_append, length_map, pads]
  cases padding with
  | false => exact ⟨hle, fun h => by cases h⟩
  | true =>
    rw [if_pos rfl, length_replicate, Nat.add_sub_cancel' hle]
    exact ⟨Nat.le_refl _, fun _ => rfl⟩

end OpenResty.Ndk.Base32
