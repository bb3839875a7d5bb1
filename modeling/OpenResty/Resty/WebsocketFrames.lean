/-
`build_frame` and `send_frame` of `resty.websocket.protocol`, whose frames
`recv_frame` reads back from the bytes of all of them.

It does not take back two kinds of frames that can be built: a close frame
with a body of one byte, and a control frame with more than 125 bytes, which
`send_frame` refuses but `build_frame` does not.
-/
import Mathlib.Data.List.Forall2
import OpenResty.Resty.Websocket

namespace OpenResty.Resty.Websocket

open Cosocket List Nat
open UInt8 (ofNat)

/-! ## Sending -/

/-- `char(band(rshift(n, ..), 0xff), ..)` of the lowest `k` bytes of a number -/
def charBytes (k n : Nat) : List UInt8 := (List.range k).reverse.map fun j => ofNat (n >>> (8 * j) &&& 0xff)

/-- `snd` and `extra_len_bytes` -/
def lengthBytes (payload_len : Nat) : Except String (Nat × List UInt8) :=
  if payload_len ≤ 125 then .ok (payload_len, [])
  else if payload_len ≤ 65535 then .ok (126, charBytes 2 payload_len)
  else if payload_len &&& 0x7fffffff < payload_len then .error "payload too big"
  else .ok (127, [0, 0, 0, 0] ++ charBytes 4 payload_len)

/-- The frame of a payload of `payload_len` bytes; `masking` is the number that `rand` gives
for the key. -/
def build_frame (fin : Bool) (opcode : Nat) (payload : List UInt8) (masking : Option Nat) :
    Except String (List UInt8) := do
  let fst := if fin then 0x80 ||| opcode else opcode
  let (snd, extra_len_bytes) ← lengthBytes payload.length
  match masking with
  | some key =>
    let masking_key := charBytes 4 key
    return [ofNat fst, ofNat (snd ||| 0x80)] ++ extra_len_bytes ++ masking_key ++ unmask masking_key payload
  | none => return [ofNat fst, ofNat snd] ++ extra_len_bytes ++ payload

/-- What is given to `sock:send` -/
def send_frame (fin : Bool) (opcode : Nat) (payload : List UInt8) (max_payload_len : Nat) (masking : Option Nat) :
    Except String (List UInt8) :=
  if payload.length > max_payload_len then .error "payload too big"
  else if opcode &&& 0x8 ≠ 0 ∧ payload.length > 125 then .error "too much payload for control frame"
  else if opcode &&& 0x8 ≠ 0 ∧ fin = false then .error "fragmented control frame"
  else (build_frame fin opcode payload masking).mapError ("failed to build frame: " ++ ·)

/-- Calls of `recv_frame` -/
def recvFrames (max_payload_len : Nat) (force_masking : Bool) : Nat → Wire → Reading (List Received)
  | 0, w => answer (.ok []) w
  | n + 1, w =>
    andThen (recv_frame max_payload_len force_masking w) fun frame w =>
    andThen (recvFrames max_payload_len force_masking n w) fun frames w =>
    answer (.ok (frame :: frames)) w

/-! ## Frames that are sent -/

structure Sent where
  fin : Bool
  opcode : Opcode
  payload : List UInt8
  masking : Option Nat

namespace Sent

variable (s : Sent)

/-- The frame is built, by `build_frame` or on the way through `send_frame`. -/
def Built (frame : List UInt8) : Prop :=
  build_frame s.fin s.opcode.code s.payload s.masking = .ok frame ∨
    ∃ max_payload_len, send_frame s.fin s.opcode.code s.payload max_payload_len s.masking = .ok frame

/-- What `recv_frame` is to return: the payload, of a close frame its code and message -/
def received : Received :=
  match s.opcode, s.payload with
  | .close, fst :: snd :: msg => { data := msg, typ := some "close", err := .code (bigEndian [fst, snd]) }
  | _, payload => { data := payload, typ := types s.opcode.code, err := if s.fin then .none else .again }

/-- The receiver's limits, and `fin` for control frames -/
structure Supported (max_payload_len : Nat) (force_masking : Bool) : Prop where
  control_fin : s.opcode.control → s.fin = true
  length_le : s.payload.length ≤ max_payload_len
  masked : force_masking = true → s.masking.isSome = true

/-- The body of a control frame is short, and that of a close frame not a single byte. -/
structure WellFormed : Prop where
  control_length : s.opcode.control → s.payload.length ≤ 125
  close_length : s.opcode = .close → s.payload.length ≠ 1

end Sent

/-- The frames are received as they were sent, and all bytes consumed. -/
def RoundTrip (max_payload_len : Nat) (force_masking : Bool) (ss : List Sent) : Prop :=
  ∀ frames, Forall₂ Sent.Built ss frames →
    recvFrames max_payload_len force_masking ss.length { bytes := frames.flatten } =
      some (.ok (ss.map Sent.received), { bytes := [] })

variable {s : Sent} {ss : List Sent} {bytes : List UInt8} {max_payload_len : Nat} {force_masking : Bool}

theorem built_by_build : s.Built bytes → build_frame s.fin s.opcode.code s.payload s.masking = .ok bytes := by
  rintro (hbuild | ⟨max_payload_len, hsend⟩)
  · exact hbuild
  · rw [send_frame] at hsend
    split at hsend
    · cases hsend
    split at hsend
    · cases hsend
    split at hsend
    · cases hsend
    cases hbuild : build_frame s.fin s.opcode.code s.payload s.masking with
    | error err =>
      rw [hbuild] at hsend
      cases hsend
    | ok bytes' =>
      rw [hbuild] at hsend
      exact hsend

theorem charBytes_eq (k n : Nat) : charBytes k n = toBigEndian k n := by
  induction k with
  | zero => rfl
  | succ k ih =>
    rw [charBytes, range_succ, reverse_append, reverse_singleton, singleton_append, map_cons,
      toBigEndian, ← ih, charBytes]
    congr 1
    rw [show (0xff : Nat) = 2 ^ 8 - 1 from rfl, and_two_pow_sub_one_eq_mod, shiftRight_eq_div_pow, Nat.pow_mul]
    apply UInt8.toNat_inj.mp
    simp

/-- The form of the length of a frame that is built -/
def formOf (payload_len : Nat) : LengthForm :=
  if payload_len ≤ 125 then .short else if payload_len ≤ 65535 then .medium else .long

theorem lengthBytes_eq {n snd : Nat} {extra : List UInt8} (h : lengthBytes n = .ok (snd, extra)) :
    n < (formOf n).bound ∧
      match formOf n with
      | .short => snd = n ∧ extra = []
      | .medium => snd = 126 ∧ extra = toBigEndian 2 n
      | .long => snd = 127 ∧ extra = toBigEndian 8 n := by
  rw [lengthBytes] at h
  rw [formOf]
  by_cases hshort : n ≤ 125
  · rw [if_pos hshort] at h ⊢
    cases h
    exact ⟨lt_succ_of_le hshort, rfl, rfl⟩
  rw [if_neg hshort] at h ⊢
  by_cases hmedium : n ≤ 65535
  · rw [if_pos hmedium] at h ⊢
    cases h
    exact ⟨lt_succ_of_le hmedium, rfl, charBytes_eq 2 n⟩
  rw [if_neg hmedium] at h ⊢
  split at h
  · cases h
  · next hfits =>
    have hlt : n < 2 ^ 31 := by
      rw [show (0x7fffffff : Nat) = 2 ^ 31 - 1 from rfl, and_two_pow_sub_one_eq_mod] at hfits
      have := mod_lt n (show 0 < 2 ^ 31 by decide)
      omega
    have hzero : ∀ j, 4 ≤ j → n / 256 ^ j = 0 := fun j hj =>
      div_eq_of_lt (hlt.trans_le ((by decide : 2 ^ 31 ≤ 256 ^ 4).trans (Nat.pow_le_pow_right (by decide) hj)))
    cases h
    refine ⟨hlt, rfl, ?_⟩
    rw [charBytes_eq]
    simp only [toBigEndian, hzero 7 (by decide), hzero 6 (by decide), hzero 5 (by decide), hzero 4 (by decide)]
    rfl

theorem first_eq (fin : Bool) (o : Opcode) :
    ofNat (if fin then 0x80 ||| o.code else o.code) = ofNat ((if fin then 0x80 else 0) + o.code) := by
  cases fin <;> cases o <;> decide

theorem masked_eq : ∀ n : Fin 128, n.val ||| 0x80 = 0x80 + n.val := by decide

/-- The peer's frame of the same fields -/
theorem exists_frame (s : Sent) (hlength : s.payload.length < (formOf s.payload.length).bound)
    (hfin : s.opcode.control → s.fin = true) (hwf : s.WellFormed) :
    ∃ f : Frame, f.fin = s.fin ∧ f.opcode = s.opcode ∧ f.payload = s.payload ∧ f.form = formOf s.payload.length ∧
      f.key = s.masking.map (charBytes 4) := by
  refine ⟨{ fin := s.fin, opcode := s.opcode, key := s.masking.map (charBytes 4), form := formOf s.payload.length,
            payload := s.payload, key_length := ?_, length_lt := hlength,
            control_fin := fun h => ⟨hfin h, hwf.control_length h⟩, close_code := hwf.close_length },
    rfl, rfl, rfl, rfl, rfl⟩
  intro k hk
  obtain ⟨key, -, rfl⟩ := Option.map_eq_some_iff.mp hk
  rw [charBytes_eq, length_toBigEndian]

/-- A frame that is built has the bytes of the peer's frame. -/
theorem built_frame (hbuilt : s.Built bytes) (hfin : s.opcode.control → s.fin = true) (hwf : s.WellFormed) :
    ∃ f : Frame, f.bytes = bytes ∧ f.fin = s.fin ∧ f.opcode = s.opcode ∧ f.payload = s.payload ∧
      f.key.isSome = s.masking.isSome := by
  have hbuild := built_by_build hbuilt
  rw [build_frame] at hbuild
  cases hlength : lengthBytes s.payload.length with
  | error err =>
    rw [hlength] at hbuild
    cases hbuild
  | ok length =>
    obtain ⟨snd, extra⟩ := length
    obtain ⟨hlt, hform⟩ := lengthBytes_eq hlength
    obtain ⟨f, hfin', hopcode, hpayload, hform', hkey⟩ := exists_frame s hlt hfin hwf
    have hsnd : snd = f.shortLength ∧ extra = f.longLength := by
      rw [Frame.shortLength, Frame.longLength, hform', hpayload]
      cases hcase : formOf s.payload.length <;> rw [hcase] at hform <;> exact hform
    obtain ⟨rfl, rfl⟩ := hsnd
    refine ⟨f, ?_, hfin', hopcode, hpayload, by rw [hkey, Option.isSome_map]⟩
    rw [Frame.bytes, Frame.first, Frame.second, Frame.body, hkey, hfin', hopcode, hpayload]
    simp only [hlength, first_eq, bind, Except.bind, pure, Except.pure] at hbuild
    cases hmasking : s.masking with
    | none =>
      rw [hmasking] at hbuild
      simpa using Except.ok.inj hbuild
    | some key =>
      rw [hmasking] at hbuild
      have hmask := masked_eq ⟨f.shortLength, f.shortLength_lt⟩
      rw [← Except.ok.inj hbuild, hmask]
      simp

theorem received_frame {f : Frame} (hfin : f.fin = s.fin) (hopcode : f.opcode = s.opcode) (hpayload : f.payload = s.payload) :
    f.received = s.received := by
  obtain ⟨fin, opcode, payload, masking⟩ := s
  obtain rfl : f.fin = fin := hfin
  obtain rfl : f.opcode = opcode := hopcode
  obtain rfl : f.payload = payload := hpayload
  rfl

/-- **Frames whose bodies are well formed are received as they were sent, in their order,
from the bytes of all of them, and no byte is left.** -/
theorem frames_round_trip (hss : ∀ s ∈ ss, s.Supported max_payload_len force_masking ∧ s.WellFormed) :
    RoundTrip max_payload_len force_masking ss := by
  intro frames hframes
  induction hframes with
  | nil => rfl
  | @cons s bytes ss frames hbuilt _ ih =>
    obtain ⟨hsupported, hwf⟩ := hss s mem_cons_self
    obtain ⟨f, rfl, hfin, hopcode, hpayload, hkey⟩ := built_frame hbuilt hsupported.control_fin hwf
    have htaken : f.Taken max_payload_len force_masking :=
      ⟨hpayload ▸ hsupported.length_le, fun h => hkey ▸ hsupported.masked h⟩
    have hrecv := recv_frame_calm htaken (w := { bytes := f.bytes ++ frames.flatten }) rfl nofun
    have hafter : Wire.after { bytes := f.bytes ++ frames.flatten } f.bytes.length = { bytes := frames.flatten } := by
      rw [Wire.after]
      simp
    rw [hafter] at hrecv
    have hrest := ih fun s hs => hss s (mem_cons_of_mem _ hs)
    rw [length_cons, List.flatten_cons, recvFrames, hrecv, andThen_ok, hrest, andThen_ok, answer,
      received_frame hfin hopcode hpayload, map_cons]

/-- A text message in two parts, the second of them masked, with a ping between them, and a close frame. -/
def talk : List Sent :=
  [⟨false, .text, [0x68], none⟩, ⟨true, .ping, [], some 1⟩, ⟨true, .continuation, [0x69], some 0x12345678⟩,
    ⟨true, .close, [3, 232, 98], none⟩]

theorem talk_received : RoundTrip 100 false talk :=
  frames_round_trip (by
    intro s hs
    simp only [talk, mem_cons, not_mem_nil, or_false] at hs
    rcases hs with rfl | rfl | rfl | rfl <;> exact ⟨⟨by decide, by decide, by decide⟩, by decide, by decide⟩)

/-- A close frame with a body of one byte, and a ping with 126. -/
def closeOne : Sent := ⟨true, .close, [0], none⟩
def pingLong : Sent := ⟨true, .ping, replicate 126 0, none⟩

/-- Frames that are built and within the receiver's limits but not received. -/
theorem frames_not_round_trip :
    closeOne.Supported 200 false ∧ ¬ RoundTrip 200 false [closeOne] ∧
      pingLong.Supported 200 false ∧ ¬ RoundTrip 200 false [pingLong] := by
  refine ⟨⟨by decide, by decide, by decide⟩, fun h => ?_, ⟨by decide, by simp [pingLong], by decide⟩, fun h => ?_⟩
  · have hbuilt : closeOne.Built [0x88, 1, 0] := .inr ⟨200, by decide⟩
    have hreceived := h [[0x88, 1, 0]] (.cons hbuilt .nil)
    revert hreceived
    decide
  · have hbuilt : pingLong.Built (0x89 :: 126 :: 0 :: 126 :: replicate 126 0) := .inl (by decide +kernel)
    have hreceived := h _ (.cons hbuilt .nil)
    revert hreceived
    decide +kernel

end OpenResty.Resty.Websocket
