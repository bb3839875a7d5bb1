/-
kong/plugins/jwt/asn_sequence.lua, and what `ES256` of jwt_parser.lua makes of a
signature of two halves: a DER sequence to verify it, the halves again to sign.

`resign_integer` strips zeros until the byte after a zero has its top bit set, and
has no test for the end: there `string.byte` is nil, which is compared.
-/
import OpenResty.Lib.Der

namespace OpenResty.Kong.AsnSequence

open Lib List

/-! ## The functions -/

/-- The writer's loop over the sorted numbers, behind `numbers`; `none` is no string. -/
def writeNumbers (numbers : Bytes) : List (Option Bytes) → Except String Bytes
  | [] => .ok numbers
  | none :: _ => .error "Table contains non-string value."
  | some number :: rest =>
    let length := number.length
    if length > 0x7F then .error "Mult-byte lengths are not supported"
    else writeNumbers (numbers ++ 2 :: UInt8.ofNat length :: number) rest

/-- `create_simple_sequence`, on a table that has numbers as keys, in the order of `pairs`. -/
def create_simple_sequence (input : List (Rat × Option Bytes)) : Except String Bytes :=
  let sortTable := input.mergeSort fun a b => decide (a.1 ≤ b.1)
  match writeNumbers [] (sortTable.map Prod.snd) with
  | .error e => .error e
  | .ok numbers =>
    if numbers.length > 0x7F then .error "Multi-byte lengths are not supported"
    else .ok (0x30 :: UInt8.ofNat numbers.length :: numbers)

/-- The reader's loop over the chunk from `position` on, which never moves out of bounds. -/
def readNumbers (counter : Nat) : Bytes → Except String (List Bytes)
  | [] => .ok []
  | b :: chunk =>
    if counter > 0xFF then .error "Sequence is too long"
    else if b ≠ 2 then .error "Sequence did not contain integers"
    else
      match chunk with
      | [] => .error "attempt to compare number with nil"
      | integerLength :: chunk =>
        if integerLength.toNat > 0x7F then .error "Multi-byte lengths are not supported."
        else if integerLength.toNat > chunk.length then .error "Integer is longer than remaining length"
        else
          match readNumbers (counter + 1) (chunk.drop integerLength.toNat) with
          | .error e => .error e
          | .ok seq => .ok (chunk.take integerLength.toNat :: seq)
termination_by chunk => chunk.length
decreasing_by
  simp only [length_drop, length_cons]
  omega

def parse_simple_sequence (input : Bytes) : Except String (List Bytes) :=
  match input with
  | [] => .error "Argument #1 must not be empty"
  | [tag] => if tag ≠ 0x30 then .error "Argument #1 is not a sequence" else .error "Sequence is incomplete"
  | tag :: length :: body =>
    if tag ≠ 0x30 then .error "Argument #1 is not a sequence"
    else if length.toNat > 0x7F then .error "Multi-byte lengths are not supported"
    else if length.toNat ≠ body.length then .error "Sequence's asn length does not match expected length"
    else readNumbers 1 body

/-- `n` times a zero goes before the input. -/
def zeroPad : Nat → Bytes → Bytes
  | 0, input => input
  | n + 1, input => zeroPad n (0 :: input)

/-- `unsign_integer`; `none` is no string. -/
def unsign_integer (input : Option Bytes) (len : Nat) : Except String Bytes :=
  match input with
  | none => .error "Argument #1 must be string"
  | some [] => .error "Argument #1 must not be empty"
  | some (b :: rest) =>
    if b ≠ 0 ∧ (b :: rest).length > len then .error "Cannot unsign integer to length."
    else if b = 0 ∧ (b :: rest).length = len + 1 then .ok rest
    else if (b :: rest).length = len then .ok (b :: rest)
    else if (b :: rest).length < len then .ok (zeroPad (len - (b :: rest).length) (b :: rest))
    else .error "Unable to unsign integer"

/-- The loop of `resign_integer`. -/
def strip : Bytes → Except String Bytes
  | [] => .ok []
  | b :: rest =>
    if b = 0 then
      match rest with
      | [] => .error "attempt to compare nil with number"
      | next :: _ => if next.toNat ≤ 0x7F then strip rest else .ok (b :: rest)
    else .ok (b :: rest)

def resign_integer (input : Bytes) : Except String Bytes :=
  match input with
  | [] => .error "attempt to compare number with nil"
  | b :: _ => strip (if b.toNat > 0x7F then 0 :: input else input)

/-- `signatureAsn` of `alg_verify["ES256"]` -/
def signatureAsn (signature : Bytes) : Except String Bytes :=
  if signature.length ≠ 64 then .error "Signature must be 64 bytes."
  else do
    let r ← resign_integer (signature.take 32)
    let s ← resign_integer (signature.drop 32)
    create_simple_sequence [(1, some r), (2, some s)]

/-- What `alg_sign["ES256"]` returns where the signature of `crypto.sign` is `signature`. -/
def signatureHalves (signature : Bytes) : Except String Bytes := do
  let derSequence ← parse_simple_sequence signature
  let r ← unsign_integer derSequence[0]? 32
  let s ← unsign_integer derSequence[1]? 32
  if r.length ≠ 32 ∨ s.length ≠ 32 then .error "assertion failed!" else return r ++ s

/-! ## Stripping -/

theorem zeroPad_eq (n : Nat) (input : Bytes) : zeroPad n input = replicate n 0 ++ input := by
  induction n generalizing input with
  | zero => rfl
  | succ n ih => rw [zeroPad, ih, replicate_succ', append_assoc, singleton_append]

theorem strip_cons {b : UInt8} (rest : Bytes) (hb : b ≠ 0) : strip (b :: rest) = .ok (b :: rest) := by
  cases rest <;> exact if_neg hb

theorem strip_zero (next : UInt8) (rest : Bytes) :
    strip (0 :: next :: rest) = if next.toNat ≤ 0x7F then strip (next :: rest) else .ok (0 :: next :: rest) := by
  rw [strip, if_pos rfl]

variable {c input : Bytes}

/-- A number without a sign is stripped to its contents octets, as long as it is not zero. -/
theorem strip_spec (hsign : Der.negative input = false) (hne : Der.natValue input ≠ 0) :
    ∃ c k, strip input = .ok c ∧ input = replicate k 0 ++ c ∧ Der.negative c = false ∧ Der.Shortest c := by
  induction input with
  | nil => exact absurd rfl hne
  | cons b rest ih =>
    by_cases hb : b = 0
    · subst hb
      rw [Der.natValue_zero] at hne
      cases rest with
      | nil => exact absurd rfl hne
      | cons next rest =>
        rw [strip_zero]
        by_cases hnext : next.toNat ≤ 0x7F
        · have hsign' : Der.negative (next :: rest) = false := decide_eq_false (by omega)
          obtain ⟨c, k, hstrip, hinput, hc⟩ := ih hsign' hne
          rw [if_pos hnext]
          exact ⟨c, k + 1, hstrip, by rw [hinput, replicate_succ, cons_append], hc⟩
        · rw [if_neg hnext]
          refine ⟨_, 0, rfl, rfl, rfl, fun h => hnext (by omega), fun h => ?_⟩
          exact absurd h.1 (by decide)
    · have hlow : b.toNat < 128 := Nat.not_le.mp (of_decide_eq_false hsign)
      have hnonzero : b.toNat ≠ 0 := fun h => hb (UInt8.toNat_inj.mp h)
      refine ⟨_, 0, strip_cons rest hb, rfl, hsign, ?_⟩
      cases rest with
      | nil => trivial
      | cons next rest => exact ⟨fun h => hnonzero h.1, fun h => by omega⟩

theorem strip_zeros (n : Nat) : strip (replicate (n + 1) 0) = .error "attempt to compare nil with number" := by
  induction n with
  | zero => rfl
  | succ n ih =>
    rw [replicate_succ, replicate_succ, strip_zero, if_pos (by decide)]
    exact ih

/-- A number that is not zero becomes its contents octets, in which at most one byte is new. -/
theorem resign_integer_spec (hne : Der.natValue input ≠ 0) :
    ∃ c, resign_integer input = .ok c ∧ Der.IsInteger (Der.natValue input) c ∧
      (c = 0 :: input ∨ ∃ k, input = replicate k 0 ++ c) := by
  cases input with
  | nil => exact absurd rfl hne
  | cons b rest =>
    rw [resign_integer]
    by_cases hhigh : b.toNat > 0x7F
    · rw [if_pos hhigh, strip_zero, if_neg (Nat.not_le.mpr hhigh)]
      refine ⟨_, rfl, ⟨?_, fun h => by omega, fun h => absurd h.1 (by decide)⟩, .inl rfl⟩
      rw [Der.intValue_of_not_negative rfl, Der.natValue_zero]
    · rw [if_neg hhigh]
      have hsign : Der.negative (b :: rest) = false := decide_eq_false (by omega)
      obtain ⟨c, k, hstrip, hinput, hc, hshortest⟩ := strip_spec hsign hne
      refine ⟨c, hstrip, ⟨?_, hshortest⟩, .inr ⟨k, hinput⟩⟩
      rw [Der.intValue_of_not_negative hc, hinput, Der.natValue_zeros]

theorem resign_integer_zeros (n : Nat) :
    resign_integer (replicate (n + 1) 0) = .error "attempt to compare nil with number" :=
  strip_zeros n

/-- Without its sign, and with its zeros again, the number is as long as it was. -/
theorem unsign_resigned (hc : c ≠ []) (h : c = 0 :: input ∨ ∃ k, input = replicate k 0 ++ c) :
    unsign_integer (some c) input.length = .ok input := by
  rcases h with rfl | ⟨k, rfl⟩
  · rw [unsign_integer, if_neg (fun h => h.1 rfl), if_pos ⟨rfl, rfl⟩]
  · obtain ⟨b, rest, rfl⟩ := exists_cons_of_ne_nil hc
    have hlength : (replicate k (0 : UInt8) ++ b :: rest).length = k + (b :: rest).length := by
      rw [length_append, length_replicate]
    rw [unsign_integer, hlength, if_neg (by omega), if_neg (by omega)]
    by_cases hk : k = 0
    · subst hk
      rw [if_pos (Nat.zero_add _).symm]
      rfl
    · rw [if_neg (by omega), if_pos (by omega), Nat.add_sub_cancel, zeroPad_eq]

/-! ## Sequences -/

theorem create_pair {r s : Bytes} (hr : r.length ≤ 33) (hs : s.length ≤ 33) :
    create_simple_sequence [(1, some r), (2, some s)] = .ok (Der.tlv 0x30 ([r, s].flatMap (Der.tlv 2))) := by
  have hsort : ([(1, some r), (2, some s)] : List (Rat × Option Bytes)).mergeSort (fun a b => decide (a.1 ≤ b.1)) =
      [(1, some r), (2, some s)] := by
    refine mergeSort_of_pairwise ?_
    simp
  have hnumbers : writeNumbers [] [some r, some s] = .ok ([r, s].flatMap (Der.tlv 2)) := by
    rw [writeNumbers, if_neg (by omega), writeNumbers, if_neg (by omega), writeNumbers]
    simp [Der.tlv]
  have hlength : ([r, s].flatMap (Der.tlv 2)).length ≤ 0x7F := by
    simp [Der.tlv]
    omega
  rw [create_simple_sequence, hsort]
  simp only [map_cons, map_nil, hnumbers]
  rw [if_neg (by omega)]
  rfl

theorem toNat_length (hc : c.length < 128) : (UInt8.ofNat c.length).toNat = c.length :=
  UInt8.toNat_ofNat_of_lt' (Nat.lt_trans hc (by decide))

theorem readNumbers_tlv {counter : Nat} {rest : Bytes} (hcounter : counter ≤ 0xFF) (hc : c.length < 128) :
    readNumbers counter (Der.tlv 2 c ++ rest) =
      match readNumbers (counter + 1) rest with
      | .error e => .error e
      | .ok seq => .ok (c :: seq) := by
  rw [Der.tlv, cons_append, cons_append, readNumbers, if_neg (by omega), if_neg (by simp)]
  simp only [toNat_length hc, length_append]
  rw [if_neg (by omega), if_neg (by omega), drop_left, take_left]

theorem readNumbers_flatMap {counter : Nat} {cs : List Bytes} (hcounter : counter + cs.length ≤ 0x100)
    (hcs : ∀ c ∈ cs, c.length < 128) : readNumbers counter (cs.flatMap (Der.tlv 2)) = .ok cs := by
  induction cs generalizing counter with
  | nil => rw [flatMap_nil, readNumbers]
  | cons c cs ih =>
    rw [length_cons] at hcounter
    rw [flatMap_cons, readNumbers_tlv (by omega) (hcs c mem_cons_self),
      ih (by omega) fun c hc => hcs c (mem_cons_of_mem _ hc)]

/-- What is read of a sequence of integers is their contents. -/
theorem parse_tlv {cs : List Bytes} (hcount : cs.length ≤ 0xFF) (hcs : ∀ c ∈ cs, c.length < 128)
    (hall : (cs.flatMap (Der.tlv 2)).length < 128) :
    parse_simple_sequence (Der.tlv 0x30 (cs.flatMap (Der.tlv 2))) = .ok cs := by
  rw [Der.tlv, parse_simple_sequence, if_neg (by simp), toNat_length hall, if_neg (by omega), if_neg (by simp)]
  exact readNumbers_flatMap (by omega) hcs

/-! ## The two halves of a signature -/

/-- 32 bytes. -/
abbrev Half := { bytes : Bytes // bytes.length = 32 }

/-- The halves are written as the shortest sequence of their numbers, of which they are read again. -/
def RoundTrip (r s : Half) : Prop :=
  ∃ der, signatureAsn (r.1 ++ s.1) = .ok der ∧ Der.IsSequence [Der.natValue r.1, Der.natValue s.1] der ∧
    signatureHalves der = .ok (r.1 ++ s.1)

theorem length_resigned (h : c = 0 :: input ∨ ∃ k, input = replicate k 0 ++ c) : c.length ≤ input.length + 1 := by
  rcases h with rfl | ⟨k, rfl⟩
  · exact Nat.le_refl _
  · rw [length_append]
    omega

theorem signatureAsn_append (r s : Half) :
    signatureAsn (r.1 ++ s.1) = (do
      let r' ← resign_integer r.1
      let s' ← resign_integer s.1
      create_simple_sequence [(1, some r'), (2, some s')]) := by
  rw [signatureAsn, if_neg (by simp [r.2, s.2]), take_left' r.2, drop_left' r.2]

theorem natValue_half {r : Half} (h : r.1 ≠ replicate 32 0) : Der.natValue r.1 ≠ 0 := by
  rw [Ne, Der.natValue_eq_zero, r.2]
  exact h

theorem roundTrip {r s : Half} (hr : r.1 ≠ replicate 32 0) (hs : s.1 ≠ replicate 32 0) : RoundTrip r s := by
  obtain ⟨r', hresignR, hintR, hformR⟩ := resign_integer_spec (natValue_half hr)
  obtain ⟨s', hresignS, hintS, hformS⟩ := resign_integer_spec (natValue_half hs)
  have hlenR := length_resigned hformR
  have hlenS := length_resigned hformS
  rw [r.2] at hlenR
  rw [s.2] at hlenS
  have hshort : ∀ c ∈ [r', s'], c.length < 128 := by
    simp only [forall_mem_cons]
    exact ⟨by omega, by omega, fun _ h => nomatch h⟩
  have hall : ([r', s'].flatMap (Der.tlv 2)).length < 128 := by
    simp [Der.tlv]
    omega
  have hneR : r' ≠ [] := fun h => by rw [h] at hintR; exact hintR.shortest
  have hneS : s' ≠ [] := fun h => by rw [h] at hintS; exact hintS.shortest
  have hunsignR := unsign_resigned hneR hformR
  have hunsignS := unsign_resigned hneS hformS
  rw [r.2] at hunsignR
  rw [s.2] at hunsignS
  refine ⟨_, ?_, ⟨[r', s'], .cons hintR (.cons hintS .nil), hshort, hall, rfl⟩, ?_⟩
  · rw [signatureAsn_append, hresignR, hresignS]
    exact create_pair hlenR hlenS
  · rw [signatureHalves, parse_tlv (show [r', s'].length ≤ 0xFF by simp) hshort hall]
    change (do
      let r'' ← unsign_integer (some r') 32
      let s'' ← unsign_integer (some s') 32
      if r''.length ≠ 32 ∨ s''.length ≠ 32 then .error "assertion failed!" else return r'' ++ s'') = _
    rw [hunsignR, hunsignS]
    exact if_neg fun h => h.elim (fun h => h r.2) fun h => h s.2

theorem signatureAsn_zeros {r s : Half} (h : r.1 = replicate 32 0 ∨ s.1 = replicate 32 0) :
    signatureAsn (r.1 ++ s.1) = .error "attempt to compare nil with number" := by
  rw [signatureAsn_append]
  by_cases hr : r.1 = replicate 32 0
  · rw [hr, resign_integer_zeros 31]
    rfl
  · obtain ⟨r', hresignR, -⟩ := resign_integer_spec (natValue_half hr)
    rw [hresignR, h.resolve_left hr, resign_integer_zeros 31]
    rfl

/-- **The halves make the round trip if and only if neither is zero.** -/
theorem roundTrip_iff (r s : Half) : RoundTrip r s ↔ r.1 ≠ replicate 32 0 ∧ s.1 ≠ replicate 32 0 := by
  constructor
  · rintro ⟨der, hder, -⟩
    by_contra hzero
    rw [signatureAsn_zeros (by tauto)] at hder
    cases hder
  · rintro ⟨hr, hs⟩
    exact roundTrip hr hs

/-- The first half is zero: `string.byte` is nil behind the last zero. -/
theorem not_roundTrip_zero : ¬ RoundTrip ⟨replicate 32 0, rfl⟩ ⟨replicate 32 1, rfl⟩ := by
  rintro ⟨der, hder, -⟩
  cases hder

end OpenResty.Kong.AsnSequence
