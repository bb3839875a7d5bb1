/-
`recv_frame` of `resty.websocket.protocol`, and of the server and client
objects that call it.

The frames of the peer have their bytes as the protocol prescribes them, in any
of the three forms of the length.
-/
import Mathlib.Data.List.Infix
import OpenResty.Resty.Cosocket
import OpenResty.Lib.Transition
import Mathlib.Tactic.Ring

namespace OpenResty.Resty.Websocket

open Cosocket List Option Nat
open UInt8 (ofNat)

/-! ## Receiving -/

/-- `types[opcode]` -/
def types : Nat → Option String
  | 0x0 => some "continuation"
  | 0x1 => some "text"
  | 0x2 => some "binary"
  | 0x8 => some "close"
  | 0x9 => some "ping"
  | 0xa => some "pong"
  | _ => none

/-- The third value: the status code of a close frame, or that more is to come. -/
inductive Extra
  | none
  | again
  | code (code : Nat)
deriving DecidableEq, Repr

/-- What `recv_frame` returns of a frame. -/
structure Received where
  data : List UInt8
  typ : Option String
  err : Extra
deriving DecidableEq, Repr

/-- The first two bytes. -/
structure Header where
  fin : Bool
  opcode : Nat
  mask : Bool
  payload_len : Nat

/-- The checks of the first two bytes. -/
def readHeader (force_masking : Bool) (fst snd : UInt8) : Except String Header :=
  let opcode := (fst &&& 0x0f).toNat
  let mask := snd &&& 0x80 != 0
  if fst &&& 0x70 != 0 then .error "bad RSV1, RSV2, or RSV3 bits"
  else if 0x3 ≤ opcode ∧ opcode ≤ 0x7 then .error "reserved non-control frames"
  else if 0xb ≤ opcode ∧ opcode ≤ 0xf then .error "reserved control frames"
  else if force_masking && !mask then .error "frame unmasked"
  else .ok { fin := fst &&& 0x80 != 0, opcode, mask, payload_len := (snd &&& 0x7f).toNat }

/-- Bytes, the highest first. -/
def bigEndian (bs : List UInt8) : Nat := bs.foldl (fun n b => n <<< 8 ||| b.toNat) 0

/-- The payload's length, which is in further bytes when it is 126 or 127. -/
def recvLength (payload_len : Nat) (w : Wire) : Reading Nat :=
  if payload_len = 126 then
    andThen (named "failed to receive the 2 byte payload length: " (receive 2 w)) fun data w =>
    answer (.ok (bigEndian data)) w
  else if payload_len = 127 then
    andThen (named "failed to receive the 8 byte payload length: " (receive 8 w)) fun data w =>
    if (data.take 4).any (· != 0) then answer (.error "payload len too large") w
    else if (data.getD 4 0) &&& 0x80 != 0 then answer (.error "payload len too large") w
    else answer (.ok (bigEndian (data.drop 4))) w
  else answer (.ok payload_len) w

/-- The checks that need the payload's length. -/
def checkLength (max_payload_len : Nat) (h : Header) (payload_len : Nat) : Except String Unit :=
  if h.opcode &&& 0x8 ≠ 0 ∧ 125 < payload_len then .error "too long payload for control frame"
  else if h.opcode &&& 0x8 ≠ 0 ∧ h.fin = false then .error "fragmented control frame"
  else if max_payload_len < payload_len then .error "exceeding max payload len"
  else .ok ()

/-- Each byte with the byte of the masking key at its position. -/
def unmask (key payload : List UInt8) : List UInt8 := payload.mapIdx fun i b => b ^^^ key.getD (i % 4) 0

/-- The message of a frame whose masking key and payload have been read. -/
def readPayload (h : Header) (data : List UInt8) : Except String Received :=
  let msg := if h.mask then unmask (data.take 4) (data.drop 4) else data
  if h.opcode = 0x8 then
    match msg with
    | [] => .ok { data := [], typ := some "close", err := .none }
    | [_] => .error "close frame with a body must carry a 2-byte status code"
    | fst :: snd :: msg => .ok { data := msg, typ := some "close", err := .code (bigEndian [fst, snd]) }
  else .ok { data := msg, typ := types h.opcode, err := if h.fin then .none else .again }

def recv_frame (max_payload_len : Nat) (force_masking : Bool) (w : Wire) : Reading Received :=
  andThen (named "failed to receive the first 2 bytes: " (receive 2 w)) fun data w =>
  andThen (answer (readHeader force_masking (data.getD 0 0) (data.getD 1 0)) w) fun h w =>
  andThen (recvLength h.payload_len w) fun payload_len w =>
  andThen (answer (checkLength max_payload_len h payload_len) w) fun _ w =>
  let rest := if h.mask then payload_len + 4 else payload_len
  andThen (named "failed to read masking-len and payload: " (receive rest w)) fun data w =>
  answer (readPayload h data) w

/-! ## Frames of the peer -/

inductive Opcode
  | continuation | text | binary | close | ping | pong
deriving DecidableEq, Repr

def Opcode.code : Opcode → Nat
  | .continuation => 0x0
  | .text => 0x1
  | .binary => 0x2
  | .close => 0x8
  | .ping => 0x9
  | .pong => 0xa

def Opcode.control (o : Opcode) : Bool := o.code &&& 0x8 != 0

/-- The forms of the payload's length. -/
inductive LengthForm
  | short | medium | long
deriving Repr

def LengthForm.bound : LengthForm → Nat
  | .short => 126
  | .medium => 2 ^ 16
  | .long => 2 ^ 31

/-- `n` in `k` bytes, the highest first. -/
def toBigEndian : Nat → Nat → List UInt8
  | 0, _ => []
  | k + 1, n => ofNat (n / 256 ^ k) :: toBigEndian k n

structure Frame where
  fin : Bool
  opcode : Opcode
  /-- the masking key of a masked frame -/
  key : Option (List UInt8)
  form : LengthForm
  payload : List UInt8
  key_length : ∀ k, key = some k → k.length = 4
  length_lt : payload.length < form.bound
  control_fin : opcode.control → fin = true ∧ payload.length ≤ 125
  close_code : opcode = .close → payload.length ≠ 1

namespace Frame

variable (f : Frame)

def first : UInt8 := ofNat ((if f.fin then 0x80 else 0) + f.opcode.code)

/-- The seven bits of the length in the second byte. -/
def shortLength : Nat :=
  match f.form with
  | .short => f.payload.length
  | .medium => 126
  | .long => 127

def second : UInt8 := ofNat ((if f.key.isSome then 0x80 else 0) + f.shortLength)

def longLength : List UInt8 :=
  match f.form with
  | .short => []
  | .medium => toBigEndian 2 f.payload.length
  | .long => toBigEndian 8 f.payload.length

/-- The masking key and the payload under it. -/
def body : List UInt8 :=
  match f.key with
  | none => f.payload
  | some key => key ++ unmask key f.payload

def bytes : List UInt8 := [f.first, f.second] ++ f.longLength ++ f.body

/-- What the application is to get of the frame. -/
def received : Received :=
  match f.opcode, f.payload with
  | .close, fst :: snd :: msg => { data := msg, typ := some "close", err := .code (bigEndian [fst, snd]) }
  | _, payload => { data := payload, typ := types f.opcode.code, err := if f.fin then .none else .again }

/-- A frame that the object takes. -/
structure Taken (max_payload_len : Nat) (force_masking : Bool) : Prop where
  length_le : f.payload.length ≤ max_payload_len
  masked : force_masking = true → f.key.isSome = true

end Frame

/-! ## The object -/

/-- A server or client object: `got` is what the application has been given. -/
structure Peer where
  max_payload_len : Nat
  force_masking : Bool
  fatal : Bool := false
  bytes : List UInt8
  got : List Received := []

/-- `str_find(err, ": timeout", 1, true)` -/
def isTimeout (err : String) : Bool := decide (": timeout".toList <:+: err.toList)

/-- The object after a call of `_recv_frame`: any error but a timeout is fatal. -/
def Peer.after (p : Peer) : Except String Received × Wire → Peer
  | (.ok data, w) => { p with bytes := w.bytes, got := p.got ++ [data] }
  | (.error err, w) => { p with bytes := w.bytes, fatal := !isTimeout err }

/-- A call of the object's `recv_frame`: its timer fires after so many bytes, or
does not. -/
def Peer.step (p : Peer) (timer : Option Nat) : Option Peer :=
  if p.fatal then some p
  else
    (recv_frame p.max_payload_len p.force_masking
      { bytes := p.bytes, cut := timer.map fun k => (k, "timeout") }).map p.after

/-! What the application gets when reads time out.

A frame is read in up to three reads, and a read that times out drops what had
arrived of it. The next call starts where the bytes stopped: at the header of a
frame only when the timer fired before its first byte. -/

open Lib.Transition

variable {f : Frame} {w : Wire} {rest : List UInt8}

/-! ## Numbers in bytes -/

theorem length_toBigEndian (k n : Nat) : (toBigEndian k n).length = k := by
  induction k with
  | zero => rfl
  | succ k ih => rw [toBigEndian, length_cons, ih]

theorem foldl_bigEndian (bs : List UInt8) (n : Nat) :
    bs.foldl (fun n b => n <<< 8 ||| b.toNat) n = n * 256 ^ bs.length + bigEndian bs := by
  induction bs generalizing n with
  | nil => simp [bigEndian]
  | cons b bs ih =>
    have hb : b.toNat < 2 ^ 8 := b.toNat_lt
    rw [bigEndian, foldl_cons, foldl_cons, ih, ih (0 <<< 8 ||| b.toNat), zero_shiftLeft, zero_or,
      ← shiftLeft_add_eq_or_of_lt hb, shiftLeft_eq, length_cons, Nat.pow_succ]
    ring

theorem bigEndian_cons (b : UInt8) (bs : List UInt8) :
    bigEndian (b :: bs) = b.toNat * 256 ^ bs.length + bigEndian bs := by
  rw [bigEndian, foldl_cons, foldl_bigEndian, zero_shiftLeft, zero_or]

theorem bigEndian_toBigEndian (k n : Nat) : bigEndian (toBigEndian k n) = n % 256 ^ k := by
  induction k with
  | zero => simp [toBigEndian, bigEndian, mod_one]
  | succ k ih =>
    have hbyte : (ofNat (n / 256 ^ k)).toNat = n / 256 ^ k % 256 := UInt8.toNat_ofNat'
    rw [toBigEndian, bigEndian_cons, ih, length_toBigEndian, hbyte, mod_pow_succ, Nat.add_comm, Nat.mul_comm]

/-! ## The parts of a frame -/

theorem unmask_unmask (key payload : List UInt8) : unmask key (unmask key payload) = payload := by
  rw [unmask, unmask, mapIdx_mapIdx]
  refine ext_getElem (by simp) fun i h₁ h₂ => ?_
  simp [UInt8.xor_assoc]

theorem Frame.first_bits (f : Frame) :
    (f.first &&& 0x0f).toNat = f.opcode.code ∧ (f.first &&& 0x70 != 0) = false ∧ (f.first &&& 0x80 != 0) = f.fin := by
  rw [Frame.first]
  cases f.fin <;> cases f.opcode <;> decide

theorem second_bits : ∀ (mask : Bool) (n : Fin 128),
    (ofNat ((if mask then 0x80 else 0) + n) &&& 0x80 != 0) = mask ∧
      (ofNat ((if mask then 0x80 else 0) + n) &&& 0x7f).toNat = n := by
  decide +kernel

theorem Frame.shortLength_lt (f : Frame) : f.shortLength < 128 := by
  have h := f.length_lt
  rw [Frame.shortLength]
  cases hform : f.form with
  | short =>
    rw [hform] at h
    exact Nat.lt_trans h (by decide)
  | medium => exact (by decide : 126 < 128)
  | long => exact (by decide : 127 < 128)

def Frame.header (f : Frame) : Header :=
  { fin := f.fin, opcode := f.opcode.code, mask := f.key.isSome, payload_len := f.shortLength }

theorem readHeader_frame {force_masking : Bool} (h : force_masking = true → f.key.isSome = true) :
    readHeader force_masking f.first f.second = .ok f.header := by
  obtain ⟨hcode, hrsv, hfin⟩ := f.first_bits
  obtain ⟨hmask, hlen⟩ := second_bits f.key.isSome ⟨f.shortLength, f.shortLength_lt⟩
  change (f.second &&& 0x80 != 0) = _ at hmask
  change (f.second &&& 0x7f).toNat = _ at hlen
  have hforce : (force_masking && !f.key.isSome) = false := by
    cases force_masking with
    | false => rfl
    | true => rw [h rfl]; rfl
  have hvalid : ¬(0x3 ≤ f.opcode.code ∧ f.opcode.code ≤ 0x7) ∧ ¬(0xb ≤ f.opcode.code ∧ f.opcode.code ≤ 0xf) := by
    cases f.opcode <;> decide
  simp only [readHeader, hcode, hrsv, hfin, hmask, hlen, hforce, hvalid.1, hvalid.2, if_false, Bool.false_eq_true,
    Frame.header]

theorem checkLength_frame {max_payload_len : Nat} (h : f.payload.length ≤ max_payload_len) :
    checkLength max_payload_len f.header f.payload.length = .ok () := by
  have hcontrol : f.opcode.code &&& 0x8 ≠ 0 → f.fin = true ∧ f.payload.length ≤ 125 := fun hc =>
    f.control_fin (by simpa [Opcode.control] using hc)
  rw [checkLength, if_neg, if_neg, if_neg (Nat.not_lt.mpr h)]
  · rintro ⟨hc, hfin⟩
    rw [Frame.header, (hcontrol hc).1] at hfin
    cases hfin
  · rintro ⟨hc, hlen⟩
    exact absurd (hcontrol hc).2 (Nat.not_le.mpr hlen)

theorem readPayload_frame (f : Frame) : readPayload f.header f.body = .ok f.received := by
  have hmsg : (if f.header.mask then unmask (f.body.take 4) (f.body.drop 4) else f.body) = f.payload := by
    rw [Frame.header, Frame.body]
    cases hkey : f.key with
    | none => rfl
    | some key =>
      have hlen := f.key_length key hkey
      rw [isSome_some, if_pos rfl, ← hlen, take_left, drop_left, unmask_unmask]
  rw [readPayload]
  simp only [hmsg]
  rw [Frame.received]
  by_cases hclose : f.opcode = .close
  · have hfin : f.fin = true := (f.control_fin (by rw [hclose]; rfl)).1
    rw [if_pos (by rw [Frame.header, hclose]; rfl)]
    match hp : f.payload with
    | [] => simp [hclose, hfin, Opcode.code, types]
    | [_] => exact absurd (by rw [hp]; rfl) (f.close_code hclose)
    | fst :: snd :: msg => simp [hclose]
  · have hcode : ¬f.header.opcode = 0x8 := by
      rw [Frame.header]
      cases ho : f.opcode <;> simp_all [Opcode.code]
    rw [if_neg hcode, Frame.header]
    cases ho : f.opcode with
    | close => exact absurd ho hclose
    | continuation | text | binary | ping | pong => rfl

theorem Frame.length_body (f : Frame) :
    f.body.length = if f.header.mask then f.payload.length + 4 else f.payload.length := by
  rw [Frame.body, Frame.header]
  cases hkey : f.key with
  | none => rfl
  | some key =>
    rw [length_append, f.key_length key hkey, unmask, length_mapIdx, Nat.add_comm]
    rfl

/-! ## The reads of a frame -/

theorem high_bit_zero : ∀ n : Fin 128, (ofNat n &&& 0x80 != 0) = false := by decide +kernel

theorem bigEndian_long {n : Nat} (hn : n < 2 ^ 31) :
    ((toBigEndian 8 n).take 4).any (· != 0) = false ∧ ((toBigEndian 8 n).getD 4 0 &&& 0x80 != 0) = false ∧
      bigEndian ((toBigEndian 8 n).drop 4) = n := by
  have hzero : ∀ j, 4 ≤ j → n / 256 ^ j = 0 := fun j hj =>
    div_eq_of_lt (hn.trans_le ((by decide : 2 ^ 31 ≤ 256 ^ 4).trans (Nat.pow_le_pow_right (by decide) hj)))
  refine ⟨?_, ?_, ?_⟩
  · simp only [toBigEndian, List.take, hzero 7 (by decide), hzero 6 (by decide), hzero 5 (by decide), hzero 4 (by decide)]
    rfl
  · have hlt : n / 256 ^ 3 < 128 := Nat.div_lt_of_lt_mul hn
    exact high_bit_zero ⟨n / 256 ^ 3, hlt⟩
  · rw [show (toBigEndian 8 n).drop 4 = toBigEndian 4 n from rfl, bigEndian_toBigEndian]
    exact mod_eq_of_lt (hn.trans (by decide))

/-- The reading of the length, when its bytes arrive. -/
theorem recvLength_calm (hw : w.bytes = f.longLength ++ rest) (hcalm : w.Calm f.longLength.length) :
    recvLength f.shortLength w = some (.ok f.payload.length, w.after f.longLength.length) := by
  have hlt := f.length_lt
  have hreceive := receive_calm hw hcalm
  rw [recvLength, Frame.shortLength]
  rw [Frame.longLength] at hreceive ⊢
  cases hform : f.form with
  | short =>
    rw [hform] at hlt
    have h126 : ¬f.payload.length = 126 := fun h => absurd hlt (by rw [h]; decide)
    have h127 : ¬f.payload.length = 127 := fun h => absurd hlt (by rw [h]; decide)
    simp only [if_neg h126, if_neg h127, length_nil, after_zero, answer]
  | medium =>
    rw [hform] at hlt
    simp only [hform, length_toBigEndian] at hreceive
    simp only [if_true, length_toBigEndian, hreceive, named_ok, andThen_ok, answer, bigEndian_toBigEndian]
    rw [mod_eq_of_lt (hlt.trans_le (by decide))]
  | long =>
    rw [hform] at hlt
    obtain ⟨hzero, hbit, hlow⟩ := bigEndian_long hlt
    simp only [hform, length_toBigEndian] at hreceive
    simp only [length_toBigEndian, hreceive, named_ok, andThen_ok, answer, hzero, hbit, hlow, Bool.false_eq_true,
      if_false, if_true, reduceEqDiff]

/-- A read of a frame that times out drops the bytes that had arrived. -/
theorem named_receive_cut (msg : String) (hmsg : isTimeout (msg ++ "timeout") = true) {bs : List UInt8}
    (hw : w.bytes = bs ++ rest) {k : Nat} (hcut : w.cut = some (k, "timeout")) (hk : k < bs.length) :
    ∃ err, named msg (receive bs.length w) = some (.error err, { bytes := w.bytes.drop k }) ∧ isTimeout err = true := by
  rw [receive_cut hw hcut hk]
  exact ⟨_, rfl, hmsg⟩

theorem recvLength_cut (hw : w.bytes = f.longLength ++ rest) {k : Nat} (hcut : w.cut = some (k, "timeout"))
    (hk : k < f.longLength.length) :
    ∃ err, recvLength f.shortLength w = some (.error err, { bytes := w.bytes.drop k }) ∧ isTimeout err = true := by
  rw [Frame.longLength] at hw hk
  rw [recvLength, Frame.shortLength]
  cases hform : f.form with
  | short =>
    rw [hform] at hk
    cases hk
  | medium =>
    simp only [hform] at hw hk
    obtain ⟨err, hreceive, herr⟩ := named_receive_cut "failed to receive the 2 byte payload length: "
      (by decide) hw hcut hk
    rw [length_toBigEndian] at hreceive
    simp only [if_true, hreceive, andThen_error]
    exact ⟨err, rfl, herr⟩
  | long =>
    simp only [hform] at hw hk
    obtain ⟨err, hreceive, herr⟩ := named_receive_cut "failed to receive the 8 byte payload length: "
      (by decide) hw hcut hk
    rw [length_toBigEndian] at hreceive
    simp only [if_true, if_false, reduceEqDiff, hreceive, andThen_error]
    exact ⟨err, rfl, herr⟩

/-- A frame whose bytes all arrive before the timer fires is received. -/
theorem recv_frame_calm {max_payload_len : Nat} {force_masking : Bool} (hf : f.Taken max_payload_len force_masking)
    (hw : w.bytes = f.bytes ++ rest) (hcalm : w.Calm f.bytes.length) :
    recv_frame max_payload_len force_masking w = some (.ok f.received, w.after f.bytes.length) := by
  have hlen : f.bytes.length = 2 + f.longLength.length + f.body.length := by simp [Frame.bytes]; omega
  rw [hlen] at hcalm ⊢
  have hw₁ : w.bytes = [f.first, f.second] ++ (f.longLength ++ (f.body ++ rest)) := by
    rw [hw, Frame.bytes, append_assoc, append_assoc]
  have hw₂ := Wire.after_bytes hw₁
  have hw₃ := Wire.after_bytes hw₂
  have hfirst := receive_calm hw₁ (hcalm.le (by simp; omega))
  have hlength := recvLength_calm hw₂ (calm_after (hcalm.le (by simp)))
  have hbody := receive_calm hw₃ (calm_after (calm_after (hcalm.le (by simp; omega))))
  rw [f.length_body] at hbody
  simp only [length_cons, length_nil, Nat.zero_add, reduceAdd, after_after] at hfirst hlength hbody
  have hheader := readHeader_frame hf.masked
  simp only [recv_frame, hfirst, named_ok, andThen_ok, answer, getD_cons_zero, getD_cons_succ, hheader]
  simp only [show f.header.payload_len = f.shortLength from rfl, hlength, andThen_ok, checkLength_frame hf.length_le,
    hbody, named_ok, readPayload_frame, f.length_body]

/-- A frame that the timer cuts loses the bytes that had arrived. -/
theorem recv_frame_cut {max_payload_len : Nat} {force_masking : Bool} (hf : f.Taken max_payload_len force_masking)
    (hw : w.bytes = f.bytes ++ rest) {k : Nat} (hcut : w.cut = some (k, "timeout")) (hk : k < f.bytes.length) :
    ∃ err, recv_frame max_payload_len force_masking w = some (.error err, { bytes := w.bytes.drop k }) ∧
      isTimeout err = true := by
  have hlen : f.bytes.length = 2 + f.longLength.length + f.body.length := by simp [Frame.bytes]; omega
  rw [hlen] at hk
  have hw₁ : w.bytes = [f.first, f.second] ++ (f.longLength ++ (f.body ++ rest)) := by
    rw [hw, Frame.bytes, append_assoc, append_assoc]
  have hw₂ := Wire.after_bytes hw₁
  have hw₃ := Wire.after_bytes hw₂
  have hdrop : ∀ n, n ≤ k → (w.after n).bytes.drop (k - n) = w.bytes.drop k := by
    intro n hn
    rw [Wire.after, drop_drop, Nat.add_sub_cancel' hn]
  have hafter : ∀ n, (w.after n).cut = some (k - n, "timeout") := fun n => by rw [Wire.after, hcut]; rfl
  rcases Nat.lt_or_ge k 2 with h2 | h2
  · -- before the header
    obtain ⟨err, hfirst, herr⟩ :=
      named_receive_cut "failed to receive the first 2 bytes: " (by decide) hw₁ hcut h2
    rw [recv_frame, show (2 : Nat) = [f.first, f.second].length from rfl, hfirst]
    exact ⟨err, rfl, herr⟩
  have hfirst := receive_calm hw₁ (calm_of_cut hcut h2)
  have hheader := readHeader_frame hf.masked
  simp only [length_cons, length_nil, Nat.zero_add, reduceAdd] at hfirst hw₂ hw₃
  simp only [recv_frame, hfirst, named_ok, andThen_ok, answer, getD_cons_zero, getD_cons_succ, hheader]
  rcases Nat.lt_or_ge (k - 2) f.longLength.length with hl | hl
  · -- inside the length
    obtain ⟨err, hlength, herr⟩ := recvLength_cut hw₂ (hafter 2) hl
    rw [show f.header.payload_len = f.shortLength from rfl, hlength, hdrop 2 h2]
    exact ⟨err, rfl, herr⟩
  · -- inside the masking key or the payload
    have hlength := recvLength_calm hw₂ (calm_of_cut (hafter 2) hl)
    rw [after_after] at hlength hw₃
    have hk' : k - (2 + f.longLength.length) < f.body.length := by omega
    obtain ⟨err, hbody, herr⟩ := named_receive_cut "failed to read masking-len and payload: " (by decide) hw₃
      (hafter _) hk'
    rw [show f.header.payload_len = f.shortLength from rfl, hlength]
    rw [hdrop _ (by omega)] at hbody
    simp only [andThen_ok, checkLength_frame hf.length_le, ← f.length_body, hbody, andThen_error]
    exact ⟨err, rfl, herr⟩

/-! ## Runs -/

/-- An object that is to receive the frames `fs`. -/
def start (max_payload_len : Nat) (force_masking : Bool) (fs : List Frame) : Peer :=
  { max_payload_len, force_masking, bytes := fs.flatMap Frame.bytes }

/-- The application has got the first frames as they were sent, and the next
call starts at the header of the next one. -/
def Right (fs : List Frame) (p : Peer) : Prop :=
  p.fatal = false ∧ ∃ before after, fs = before ++ after ∧ p.got = before.map Frame.received ∧
    p.bytes = after.flatMap Frame.bytes

/-- The timer of a call fires before the first byte of the frame it would receive,
or after its last. -/
def Careful (fs : List Frame) (p : Peer) (timer : Option Nat) : Prop :=
  ∀ k f, timer = some k → fs[p.got.length]? = some f → k = 0 ∨ f.bytes.length ≤ k

/-- The object's settings do not change. -/
structure Settled (max_payload_len : Nat) (force_masking : Bool) (p : Peer) : Prop where
  length : p.max_payload_len = max_payload_len
  masking : p.force_masking = force_masking

variable {p p' : Peer} {timer : Option Nat}

theorem step_after (hfatal : p.fatal = false) (hstep : p.step timer = some p')
    {r : Except String Received × Wire}
    (hrecv : recv_frame p.max_payload_len p.force_masking { bytes := p.bytes, cut := timer.map fun k => (k, "timeout") } =
      some r) : p' = p.after r := by
  rw [Peer.step, if_neg (by rw [hfatal]; decide), hrecv] at hstep
  exact (some.inj hstep).symm

/-- A frame received in full. -/
theorem step_calm (hf : f.Taken p.max_payload_len p.force_masking)
    (hfatal : p.fatal = false) (hbytes : p.bytes = f.bytes ++ rest) (htimer : ∀ k, timer = some k → f.bytes.length ≤ k)
    (hstep : p.step timer = some p') : p' = { p with bytes := rest, got := p.got ++ [f.received] } := by
  set w : Wire := { bytes := p.bytes, cut := timer.map fun k => (k, "timeout") } with hw
  have hcalm : w.Calm f.bytes.length := by
    intro k err hcut
    obtain ⟨k', rfl, heq⟩ := map_eq_some_iff.mp hcut
    cases heq
    exact htimer k rfl
  have hrecv := recv_frame_calm (w := w) hf hbytes hcalm
  rw [step_after hfatal hstep hrecv, Peer.after, Wire.after_bytes (w := w) hbytes]

/-- A frame that the timer cuts. -/
theorem step_cut {k : Nat} (hf : f.Taken p.max_payload_len p.force_masking) (hfatal : p.fatal = false)
    (hbytes : p.bytes = f.bytes ++ rest) (hk : k < f.bytes.length) (hstep : p.step (some k) = some p') :
    p' = { p with bytes := p.bytes.drop k } := by
  obtain ⟨err, hrecv, herr⟩ := recv_frame_cut (w := { bytes := p.bytes, cut := some (k, "timeout") }) hf hbytes rfl hk
  rw [step_after hfatal hstep hrecv, Peer.after]
  simp only [herr, Bool.not_true, hfatal]

/-- Nothing is received after the last frame. -/
theorem step_empty (hfatal : p.fatal = false) (hbytes : p.bytes = []) (hstep : p.step timer = some p') : p' = p := by
  rw [Peer.step, if_neg (by rw [hfatal]; decide), hbytes] at hstep
  obtain ⟨max_payload_len, force_masking, fatal, bytes, got⟩ := p
  cases hfatal
  cases hbytes
  cases timer with
  | none => simp [recv_frame, receive, named, andThen] at hstep
  | some k =>
    rcases Nat.eq_zero_or_pos k with rfl | hk
    · exact (some.inj hstep).symm
    · have hk' : ¬k ≤ 0 := Nat.not_le.mpr hk
      by_cases h2 : k < 2
      · simp [recv_frame, receive, named, andThen, h2, hk'] at hstep
      · simp [recv_frame, receive, named, andThen, h2] at hstep

variable {fs : List Frame} {max_payload_len : Nat} {force_masking : Bool}

theorem Frame.bytes_pos (f : Frame) : 0 < f.bytes.length := by simp [Frame.bytes]

/-- The first of the frames that are still to come. -/
theorem getElem?_next {before after : List Frame} {got : List Received} (hgot : got = before.map Frame.received) :
    (before ++ after)[got.length]? = after.head? := by
  rw [hgot, length_map, getElem?_append_right (Nat.le_refl _), Nat.sub_self, head?_eq_getElem?]

theorem Right.step (hfs : ∀ f ∈ fs, f.Taken max_payload_len force_masking)
    (h : Settled max_payload_len force_masking p ∧ Right fs p) (hstep : p.step timer = some p')
    (hok : Careful fs p timer) : Settled max_payload_len force_masking p' ∧ Right fs p' := by
  obtain ⟨hset, hfatal, before, after, rfl, hgot, hbytes⟩ := h
  cases after with
  | nil =>
    rw [step_empty hfatal hbytes hstep]
    exact ⟨hset, hfatal, before, [], rfl, hgot, hbytes⟩
  | cons f after =>
    have hf : f.Taken p.max_payload_len p.force_masking := by
      rw [hset.length, hset.masking]
      exact hfs f (by simp)
    have hcareful : ∀ k, timer = some k → k = 0 ∨ f.bytes.length ≤ k := fun k htimer =>
      hok k f htimer (getElem?_next hgot)
    by_cases hcalm : ∀ k, timer = some k → f.bytes.length ≤ k
    · rw [step_calm hf hfatal hbytes hcalm hstep]
      exact ⟨⟨hset.length, hset.masking⟩, hfatal, before ++ [f], after, by simp, by simp [hgot], rfl⟩
    · push Not at hcalm
      obtain ⟨k, rfl, hk⟩ := hcalm
      obtain rfl := (hcareful k rfl).resolve_right (Nat.not_le.mpr hk)
      rw [step_cut hf hfatal hbytes f.bytes_pos hstep]
      exact ⟨⟨hset.length, hset.masking⟩, hfatal, before, f :: after, rfl, hgot, hbytes⟩

theorem careful_of_right (hfs : ∀ f ∈ fs, f.Taken max_payload_len force_masking)
    (h : Settled max_payload_len force_masking p ∧ Right fs p) (hstep : p.step timer = some p') (h' : Right fs p') :
    Careful fs p timer := by
  obtain ⟨hset, hfatal, before, after, rfl, hgot, hbytes⟩ := h
  rintro k f rfl hnext
  rw [getElem?_next hgot] at hnext
  obtain ⟨after, rfl⟩ := head?_eq_some_iff.mp hnext
  by_contra hcut
  push Not at hcut
  have hf : f.Taken p.max_payload_len p.force_masking := by
    rw [hset.length, hset.masking]
    exact hfs f (by simp)
  obtain ⟨-, before', after', happend, hgot', hbytes'⟩ := h'
  rw [step_cut hf hfatal hbytes hcut.2 hstep] at hgot' hbytes'
  dsimp only at hgot' hbytes'
  -- the frames that are still to come are the same, but some of their bytes are gone
  have hlen : before.length = before'.length := by
    rw [← length_map (f := Frame.received), ← hgot, hgot', length_map]
  obtain ⟨-, rfl⟩ := append_inj happend hlen
  have hdrop : (p.bytes.drop k).length = p.bytes.length := by rw [hbytes', hbytes]
  have hle : k ≤ p.bytes.length := by
    rw [hbytes, flatMap_cons, length_append]
    omega
  rw [length_drop] at hdrop
  omega

/-- **The application gets the frames as they were sent, and every call starts at
a header, exactly when no timer fires inside a frame.** -/
theorem frames_right_iff_careful (hfs : ∀ f ∈ fs, f.Taken max_payload_len force_masking) (timers : List (Option Nat)) :
    Always Peer.step (Right fs) (start max_payload_len force_masking fs) timers ↔
      Along Peer.step (Careful fs) (start max_payload_len force_masking fs) timers :=
  always_iff_along (I := fun p => Settled max_payload_len force_masking p ∧ Right fs p) (fun _ h => h.2)
    (fun _ _ _ h hstep hok => Right.step hfs h hstep hok) (fun _ _ _ h hstep h' => careful_of_right hfs h hstep h')
    ⟨⟨rfl, rfl⟩, rfl, [], fs, rfl, rfl, rfl⟩

/-- A masked text frame of the client, with the message "hi". -/
def textHi : Frame where
  fin := true
  opcode := .text
  key := some [0x81, 0x80, 0x12, 0x34]
  form := .short
  payload := [0x68, 0x69]
  key_length := by decide
  length_lt := by decide
  control_fin := by decide
  close_code := by decide

/-- A timer that fires before the header, which loses nothing. -/
theorem frames_right_idle :
    Always Peer.step (Right [textHi]) (start 100 true [textHi]) [some 0, none] ↔
      Along Peer.step (Careful [textHi]) (start 100 true [textHi]) [some 0, none] :=
  frames_right_iff_careful (by rintro f (_ | ⟨_, hf⟩) <;> [exact ⟨by decide, fun _ => rfl⟩; cases hf]) _

/-- A server whose timer fires after the header of a text frame takes the
masking key for a header, and gives the application an empty message. -/
theorem frames_not_right_cut :
    ¬ Always Peer.step (Right [textHi]) (start 100 true [textHi]) [some 2, none] ∧
      (run Peer.step (start 100 true [textHi]) [some 2, none]).map (fun p => (p.got, p.fatal)) =
        some ([{ data := [], typ := some "text", err := .none }], false) := by
  refine ⟨fun h => ?_, by decide +kernel⟩
  obtain ⟨p, hrun⟩ : ∃ p, run Peer.step (start 100 true [textHi]) [some 2, none] = some p :=
    isSome_iff_exists.mp (by decide +kernel)
  have hgot : (run Peer.step (start 100 true [textHi]) [some 2, none]).map (·.got) =
      some [{ data := [], typ := some "text", err := .none }] := by decide +kernel
  rw [hrun] at hgot
  obtain ⟨-, before, after, happend, hright, -⟩ := h.reached hrun
  rw [show p.got = _ from some.inj hgot] at hright
  cases before with
  | nil => cases hright
  | cons f before =>
    obtain ⟨rfl, -⟩ := List.cons.inj happend
    exact absurd (List.cons.inj hright).1 (by decide)

end OpenResty.Resty.Websocket
