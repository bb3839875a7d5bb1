/-
The cipher of encrypted-session-nginx-module, `ngx_http_encrypted_session_cipher.c`: a text
behind which its time of expiry stands is encrypted, and the digest of both stands in front.
MD5 and AES-256 in CBC mode are those of OpenSSL, which is not part of the module.

Words are stored with the lowest byte first.
-/
import OpenResty.Lib.CString

namespace OpenResty.Ndk.EncryptedSession

open Lib Lib.CString List
open Option hiding map_id

/-! ## The cipher -/

def block_size : Nat := 16

def MD5_DIGEST_LENGTH : Nat := 16

def key_length : Nat := 256 / 8

/-- `sizeof(expires_time)` -/
def expires_size : Nat := 8

/-- A digest and a cipher. What the cipher does not decrypt is not padded as it should be. -/
structure Openssl where
  MD5 : Bytes → Bytes
  encrypt : (key iv : Bytes) → Bytes → Bytes
  decrypt : (key iv : Bytes) → Bytes → Option Bytes
  length_MD5 : ∀ data, (MD5 data).length = MD5_DIGEST_LENGTH
  length_encrypt : ∀ key iv data, (encrypt key iv data).length = (data.length / block_size + 1) * block_size
  decrypt_encrypt : ∀ key iv data, decrypt key iv (encrypt key iv data) = some data

/-- `htonl` and `ntohl` -/
def htonl (n : Nat) : Nat := n % 256 * 2 ^ 24 + n / 2 ^ 8 % 256 * 2 ^ 16 + n / 2 ^ 16 % 256 * 2 ^ 8 + n / 2 ^ 24 % 256

/-- `ngx_http_encrypted_session_htonll` and `ngx_http_encrypted_session_ntohll` -/
def htonll (n : Nat) : Nat := htonl (n % 2 ^ 32) * 2 ^ 32 + htonl (n / 2 ^ 32 % 2 ^ 32)

/-- `expires_time`; 0 is for ever. -/
def expiresAt (now : Option Nat) (expires : Nat) : Option Nat :=
  if expires = 0 then some 0 else now.map fun now => (now + expires) % 2 ^ 64

variable (ssl : Openssl)

/-- `ngx_http_encrypted_session_aes_mac_encrypt`, where `time(NULL)` is `now`, or -1; `none` for
`NGX_ERROR`. -/
def aes_mac_encrypt (now : Option Nat) (iv key input : Bytes) (expires : Nat) : Option Bytes :=
  if key.length ≠ key_length then none
  else do
    let data_size := input.length + expires_size
    let buf_size := MD5_DIGEST_LENGTH + (data_size + block_size - 1) + block_size
    let expires_time ← expiresAt now expires
    let data := input ++ toBytes expires_size (htonll expires_time)
    let dst := ssl.MD5 data ++ ssl.encrypt key iv data
    if buf_size < dst.length then none else some dst

/-- `expires_time` of what is decrypted, its last bytes -/
def expiresTime (dst : Bytes) : Nat := htonll (fromBytes (dst.drop (dst.length - expires_size)))

/-- `ngx_http_encrypted_session_aes_mac_decrypt` -/
def aes_mac_decrypt (now : Option Nat) (iv key input : Bytes) : Option Bytes :=
  if key.length ≠ key_length ∨ input.length < MD5_DIGEST_LENGTH then none
  else do
    let buf_size := input.length + block_size + block_size
    let dst ← ssl.decrypt key iv (input.drop MD5_DIGEST_LENGTH)
    if buf_size < dst.length then none
    else if dst.length < expires_size then none
    else
      let difference ← compare id MD5_DIGEST_LENGTH input (ssl.MD5 dst)
      if difference ≠ 0 then none
      else
        let dst_len := dst.length - expires_size
        let expires_time := expiresTime dst
        let now ← now
        if expires_time ≠ 0 ∧ expires_time ≤ now then none else some (dst.take dst_len)

/-! ## What is asked -/

/-- The first bytes of the input are the digest of all that is decrypted, where data is returned. -/
def Right (now : Option Nat) (iv key input : Bytes) : Prop :=
  ∀ text, aes_mac_decrypt ssl now iv key input = some text →
    ∃ dst, ssl.decrypt key iv (input.drop MD5_DIGEST_LENGTH) = some dst ∧ input.take MD5_DIGEST_LENGTH = ssl.MD5 dst

/-- What is decrypted is whole and not expired. -/
structure Live (now : Option Nat) (input dst : Bytes) : Prop where
  length_le : dst.length ≤ input.length + block_size + block_size
  expires_le : expires_size ≤ dst.length
  live : ∃ t, now = some t ∧ ¬ (expiresTime dst ≠ 0 ∧ expiresTime dst ≤ t)

/-- The digest in front is that of a live text up to a zero byte that both have, and not behind it. -/
def Forged (now : Option Nat) (iv key input : Bytes) : Prop :=
  key.length = key_length ∧ MD5_DIGEST_LENGTH ≤ input.length ∧
    ∃ dst, ssl.decrypt key iv (input.drop MD5_DIGEST_LENGTH) = some dst ∧ Live now input dst ∧
      cstr (input.take MD5_DIGEST_LENGTH) = cstr (ssl.MD5 dst) ∧ input.take MD5_DIGEST_LENGTH ≠ ssl.MD5 dst

variable {ssl}

/-! ## Words -/

theorem htonl_lt (n : Nat) : htonl n < 2 ^ 32 := by
  rw [htonl]
  omega

theorem htonl_bytes {a b c d : Nat} (ha : a < 256) (hb : b < 256) (hc : c < 256) (hd : d < 256) :
    htonl (a * 2 ^ 24 + b * 2 ^ 16 + c * 2 ^ 8 + d) = d * 2 ^ 24 + c * 2 ^ 16 + b * 2 ^ 8 + a := by
  rw [htonl]
  omega

variable {expires n t : Nat}

theorem htonl_htonl (h : n < 2 ^ 32) : htonl (htonl n) = n := by
  have hbyte (k : Nat) : k % 256 < 256 := Nat.mod_lt k (by decide)
  refine (htonl_bytes (hbyte _) (hbyte _) (hbyte _) (hbyte _)).trans ?_
  omega

theorem htonll_htonll (h : n < 2 ^ 64) : htonll (htonll n) = n := by
  have hlo := htonl_lt (n % 2 ^ 32)
  have hhi := htonl_lt (n / 2 ^ 32 % 2 ^ 32)
  have hmod : htonll n % 2 ^ 32 = htonl (n / 2 ^ 32 % 2 ^ 32) := by
    rw [htonll]
    omega
  have hdiv : htonll n / 2 ^ 32 % 2 ^ 32 = htonl (n % 2 ^ 32) := by
    rw [htonll]
    omega
  rw [htonll, hmod, hdiv, htonl_htonl (by omega), htonl_htonl (by omega)]
  omega

theorem htonll_lt (n : Nat) : htonll n < 2 ^ 64 := by
  have hlo := htonl_lt (n % 2 ^ 32)
  have hhi := htonl_lt (n / 2 ^ 32 % 2 ^ 32)
  rw [htonll]
  omega

/-- A time behind a text is read back. -/
theorem expires_eq (text : Bytes) (h : n < 2 ^ 64) {dst : Bytes}
    (hdst : dst = text ++ toBytes expires_size (htonll n)) :
    dst.take (dst.length - expires_size) = text ∧ expiresTime dst = n := by
  have hlen : dst.length - expires_size = text.length := by
    rw [hdst, length_append, length_toBytes, Nat.add_sub_cancel]
  have hword : htonll n % 256 ^ expires_size = htonll n := Nat.mod_eq_of_lt (htonll_lt n)
  rw [expiresTime, hlen, hdst, take_left, drop_left, fromBytes_toBytes, hword, htonll_htonll h]
  exact ⟨rfl, rfl⟩

/-! ## Decrypting -/

variable {now : Option Nat} {iv key input text dst : Bytes}

/-- The comparison of the digests. -/
theorem compare_digest (ssl : Openssl) (hlen : MD5_DIGEST_LENGTH ≤ input.length) (dst : Bytes) :
    ∃ difference, compare id MD5_DIGEST_LENGTH input (ssl.MD5 dst) = some difference ∧
      (difference = 0 ↔ cstr (input.take MD5_DIGEST_LENGTH) = cstr (ssl.MD5 dst)) := by
  have hdigest := ssl.length_MD5 dst
  obtain ⟨difference, hcompare, hiff⟩ := compare_spec id hlen hdigest.ge
  rw [map_id, map_id, take_of_length_le hdigest.le] at hiff
  exact ⟨difference, hcompare, hiff⟩

/-- When the decryption returns data, and which. -/
theorem decrypt_eq_some_iff :
    aes_mac_decrypt ssl now iv key input = some text ↔
      key.length = key_length ∧ MD5_DIGEST_LENGTH ≤ input.length ∧
        ∃ dst, ssl.decrypt key iv (input.drop MD5_DIGEST_LENGTH) = some dst ∧ Live now input dst ∧
          cstr (input.take MD5_DIGEST_LENGTH) = cstr (ssl.MD5 dst) ∧ dst.take (dst.length - expires_size) = text := by
  rw [aes_mac_decrypt]
  by_cases hshort : key.length ≠ key_length ∨ input.length < MD5_DIGEST_LENGTH
  · rw [if_pos hshort]
    refine iff_of_false (fun h => by cases h) ?_
    rintro ⟨hkey, hlen, -⟩
    exact hshort.elim (fun h => h hkey) fun h => absurd hlen (Nat.not_le.mpr h)
  obtain ⟨hkey, hlen⟩ := not_or.mp hshort
  have hkey := not_not.mp hkey
  have hlen := Nat.not_lt.mp hlen
  rw [if_neg hshort]
  cases hdecrypt : ssl.decrypt key iv (input.drop MD5_DIGEST_LENGTH) with
  | none =>
    refine iff_of_false (fun h => by cases h) ?_
    rintro ⟨-, -, dst, hsome, -⟩
    cases hsome
  | some dst =>
    obtain ⟨difference, hcompare, hiff⟩ := compare_digest ssl hlen dst
    simp only [bind_eq_bind, bind_some, hcompare]
    constructor
    · intro h
      split_ifs at h with hbuf hsize hdiff
      obtain ⟨t, rfl, hthen⟩ := bind_eq_some_iff.mp h
      split_ifs at hthen with hexpired
      have hlive : Live (some t) input dst := ⟨Nat.not_lt.mp hbuf, Nat.not_lt.mp hsize, t, rfl, hexpired⟩
      exact ⟨hkey, hlen, dst, rfl, hlive, hiff.mp (not_not.mp hdiff), some.inj hthen⟩
    · rintro ⟨-, -, _, hsome, ⟨hbuf, hsize, t, rfl, hexpired⟩, hagree, rfl⟩
      cases hsome
      rw [if_neg (Nat.not_lt.mpr hbuf), if_neg (Nat.not_lt.mpr hsize), if_neg (not_not.mpr (hiff.mpr hagree)),
        bind_some, if_neg hexpired]

/-- What an encryption is. -/
theorem encrypt_eq (hkey : key.length = key_length) (m : Bytes)
    (hn : expiresAt (some t) expires = some n) :
    aes_mac_encrypt ssl (some t) iv key m expires =
      some (ssl.MD5 (m ++ toBytes expires_size (htonll n)) ++ ssl.encrypt key iv
        (m ++ toBytes expires_size (htonll n))) := by
  rw [aes_mac_encrypt, if_neg (not_not.mpr hkey)]
  simp only [hn, bind_eq_bind, bind_some]
  refine if_neg (Nat.not_lt.mpr ?_)
  rw [length_append, ssl.length_MD5, ssl.length_encrypt, length_append, length_toBytes]
  simp only [MD5_DIGEST_LENGTH, expires_size, block_size]
  omega

/-- What an encryption is decrypted to. -/
theorem decrypt_encrypted (ssl : Openssl) (iv : Bytes) (hkey : key.length = key_length) (m : Bytes) (t' : Nat) (hn : n < 2 ^ 64)
    {dst : Bytes}
    (hdst : dst = m ++ toBytes expires_size (htonll n)) (text : Bytes) :
    aes_mac_decrypt ssl (some t') iv key (ssl.MD5 dst ++ ssl.encrypt key iv dst) = some text ↔
      ¬ (n ≠ 0 ∧ n ≤ t') ∧ m = text := by
  have hdigest := ssl.length_MD5 dst
  have htake : (ssl.MD5 dst ++ ssl.encrypt key iv dst).take MD5_DIGEST_LENGTH = ssl.MD5 dst := take_left' hdigest
  have hdrop : (ssl.MD5 dst ++ ssl.encrypt key iv dst).drop MD5_DIGEST_LENGTH = ssl.encrypt key iv dst :=
    drop_left' hdigest
  have hlen : (ssl.MD5 dst ++ ssl.encrypt key iv dst).length = MD5_DIGEST_LENGTH +
    (dst.length / block_size + 1) * block_size := by
    rw [length_append, hdigest, ssl.length_encrypt]
  have hexpires : expires_size ≤ dst.length := by
    rw [hdst, length_append, length_toBytes]
    exact Nat.le_add_left ..
  obtain ⟨hm, htime⟩ := expires_eq m hn hdst
  rw [decrypt_eq_some_iff, htake, hdrop, ssl.decrypt_encrypt]
  constructor
  · rintro ⟨-, -, _, hsome, ⟨-, -, t, ht, hlive⟩, -, rfl⟩
    cases hsome
    cases ht
    rw [htime] at hlive
    exact ⟨hlive, hm.symm⟩
  · rintro ⟨hlive, rfl⟩
    refine ⟨hkey, by omega, dst, rfl, ⟨?_, hexpires, t', rfl, by rwa [htime]⟩, rfl, hm⟩
    rw [hlen]
    simp only [MD5_DIGEST_LENGTH, block_size]
    omega

/-- A text comes back until its time, and not from then on. -/
theorem round_trip (hkey : key.length = key_length) (m : Bytes) (ht : t < 2 ^ 63)
    (hexpires : expires < 2 ^ 63)
    (t' : Nat) :
    ∃ text, aes_mac_encrypt ssl (some t) iv key m expires = some text ∧
      aes_mac_decrypt ssl (some t') iv key text = if expires ≠ 0 ∧ t + expires ≤ t' then none else some m := by
  obtain ⟨n, hn, hlt, hlive⟩ : ∃ n,
    (if expires = 0 then some 0 else (some t).map fun now => (now + expires) % 2 ^ 64) = some n ∧
      n < 2 ^ 64 ∧ (n ≠ 0 ∧ n ≤ t' ↔ expires ≠ 0 ∧ t + expires ≤ t') := by
    by_cases hzero : expires = 0
    · exact ⟨0, if_pos hzero, by decide, by omega⟩
    · exact ⟨(t + expires) % 2 ^ 64, if_neg hzero, by omega, by omega⟩
  refine ⟨_, encrypt_eq hkey m hn, ?_⟩
  have hiff := decrypt_encrypted ssl iv hkey m t' hlt rfl
  split
  · next hexpired =>
    refine eq_none_iff_forall_ne_some.mpr fun text htext => ?_
    exact ((hiff text).mp htext).1 (hlive.mpr hexpired)
  · next hfresh => exact (hiff m).mpr ⟨fun h => hfresh (hlive.mp h), rfl⟩

/-- **A text comes back until it expires, and data is returned for the digest of all of it only,
unless a digest is forged up to a zero byte.** -/
theorem mac_right_iff (ssl : Openssl) (iv key : Bytes) :
    (key.length = key_length → ∀ (m : Bytes) (t expires t' : Nat), t < 2 ^ 63 → expires < 2 ^ 63 →
      ∃ text, aes_mac_encrypt ssl (some t) iv key m expires = some text ∧
        aes_mac_decrypt ssl (some t') iv key text = if expires ≠ 0 ∧ t + expires ≤ t' then none else some m) ∧
    ∀ (now : Option Nat) (input : Bytes), Right ssl now iv key input ↔ ¬ Forged ssl now iv key input := by
  refine ⟨fun hkey m t expires t' ht hexpires => round_trip hkey m ht hexpires t', fun now input => ?_⟩
  constructor
  · rintro h ⟨hkey, hlen, dst, hdecrypt, hlive, hagree, hdiffer⟩
    obtain ⟨dst', hdecrypt', hdigest⟩ := h _ (decrypt_eq_some_iff.mpr ⟨hkey, hlen, dst, hdecrypt, hlive, hagree, rfl⟩)
    cases hdecrypt.symm.trans hdecrypt'
    exact hdiffer hdigest
  · intro h text htext
    obtain ⟨hkey, hlen, dst, hdecrypt, hlive, hagree, -⟩ := decrypt_eq_some_iff.mp htext
    refine ⟨dst, hdecrypt, ?_⟩
    by_contra hdiffer
    exact h ⟨hkey, hlen, dst, hdecrypt, hlive, hagree, hdiffer⟩

/-! ## A cipher that only pads -/

/-- The padding of a text: as many bytes as are missing, each of them their number. -/
def pad (data : Bytes) : Bytes := replicate (block_size - data.length % block_size)
    (UInt8.ofNat (block_size - data.length % block_size))

def unpad (text : Bytes) : Option Bytes :=
  match text.getLast? with
  | none => none
  | some p =>
    if text.drop (text.length - p.toNat) = replicate p.toNat p then some (text.take
      (text.length - p.toNat)) else none

theorem unpad_pad (data : Bytes) : unpad (data ++ pad data) = some data := by
  have hlt : data.length % block_size < block_size := Nat.mod_lt _ (by decide)
  obtain ⟨k, hk⟩ : ∃ k, block_size - data.length % block_size = k + 1 :=
    ⟨block_size - data.length % block_size - 1, by omega⟩
  have hbyte : (UInt8.ofNat (k + 1)).toNat = k + 1 := by
    rw [UInt8.toNat_ofNat']
    simp only [block_size] at hk
    omega
  have hlast : (data ++ replicate (k + 1) (UInt8.ofNat (k + 1))).getLast? = some (UInt8.ofNat (k + 1)) := by
    rw [replicate_succ', ← append_assoc, getLast?_concat]
  have hlen : (data ++ replicate (k + 1) (UInt8.ofNat (k + 1))).length - (k + 1) = data.length := by
    rw [length_append, length_replicate, Nat.add_sub_cancel]
  rw [pad, hk, unpad, hlast]
  simp only [hbyte, hlen, drop_left, take_left, if_true]

def paddedOnly : Openssl where
  MD5 _ := 1 :: replicate 15 0
  encrypt _ _ data := data ++ pad data
  decrypt _ _ := unpad
  length_MD5 _ := rfl
  length_encrypt _ _ data := by
    rw [length_append, pad, length_replicate]
    simp only [block_size]
    omega
  decrypt_encrypt _ _ := unpad_pad

theorem mac_right_iff_until :
    ∃ text, aes_mac_encrypt paddedOnly (some 10) [] (replicate 32 0) [97] 5 = some text ∧
      aes_mac_decrypt paddedOnly (some 14) [] (replicate 32 0) text = if 5 ≠ 0 ∧
        10 + 5 ≤ 14 then none else some [97] :=
  (mac_right_iff paddedOnly [] (replicate 32 0)).1 rfl [97] 10 5 14 (by decide) (by decide)

/-- The digest is one, zero and others; the input has one, zero and sevens. -/
theorem not_right_zero :
    ¬ ∀ (ssl : Openssl) (now : Option Nat) (iv key input : Bytes), Right ssl now iv key input := by
  intro h
  have hdecrypt : aes_mac_decrypt paddedOnly (some 0) [] (replicate 32 0)
      ([1, 0, 7, 7, 7, 7, 7, 7, 7, 7, 7, 7, 7, 7, 7, 7] ++ (replicate 8 0 ++ replicate 8 8)) = some [] := by
    decide
  obtain ⟨dst, -, hdigest⟩ := h _ _ _ _ _ [] hdecrypt
  have hdigest : [(1 : UInt8), 0, 7, 7, 7, 7, 7, 7, 7, 7, 7, 7, 7, 7, 7, 7] = 1 :: replicate 15 0 := hdigest
  exact absurd hdigest (by decide)

end OpenResty.Ndk.EncryptedSession
