/-
The integers of `resty.mysql`'s packets: the length coded ones of an OK packet, and the length
that `send_query` writes. `_get_byte8` makes its lower half with `bor`, whose result has a sign,
and `_set_byte3` writes the length modulo 2^24.
-/
import OpenResty.Resty.MysqlFacts

namespace OpenResty.Resty.Mysql

/-! ## Sending -/

def band (x y : Nat) : Nat := (x % 2 ^ 32) &&& (y % 2 ^ 32)

def rshift (x n : Nat) : Nat := (x % 2 ^ 32) >>> n

/-- `_set_byte3` -/
def set_byte3 (n : Nat) : Bytes :=
  [UInt8.ofNat (band n 0xff), UInt8.ofNat (band (rshift n 8) 0xff), UInt8.ofNat (band (rshift n 16) 0xff)]

/-- A client. Its socket, once there is one, gives the number of bytes sent or an error. -/
structure Client where
  state : State
  sock : Option (Bytes → Except String Nat)
  packet_no : Int

/-- `_send_packet`: the packet, and what `sock:send` returns for it. -/
def send_packet (self : Client) (sock : Bytes → Except String Nat) (req : Bytes) (size : Nat) :
    Bytes × Except String Nat × Client :=
  let self := { self with packet_no := self.packet_no + 1 }
  let packet := set_byte3 size ++ [UInt8.ofInt self.packet_no] ++ req
  (packet, sock packet, self)

def COM_QUERY : UInt8 := 0x03

/-- What is returned, and the packet that was sent. -/
def send_query (self : Client) (query : Bytes) : Except String Nat × Option Bytes × Client :=
  if self.state ≠ .CONNECTED then
    (.error ("cannot send query in the current context: " ++ self.state.text), none, self)
  else
    match self.sock with
    | none => (.error "not initialized", none, self)
    | some sock =>
      let self := { self with packet_no := -1 }
      let cmd_packet := [COM_QUERY] ++ query
      let packet_len := 1 + query.length
      match send_packet self sock cmd_packet packet_len with
      | (packet, .error err, self) => (.error err, some packet, self)
      | (packet, .ok bytes, self) => (.ok bytes, some packet, { self with state := .COMMAND_SENT })

/-! ## What is asked -/

/-- Where an OK packet is read, its counts are exact. -/
def OkPacket.Exact (p : OkPacket) : Prop :=
  ∀ res status, parse_ok_packet p.payload = some (res, status) →
    ∃ message, res = .ok (.number p.affected_rows.toNat)
      (.number p.insert_id.toNat) p.status.toNat p.warnings.toNat message

/-- There is an error, or a packet was sent whose header has the length of what follows it. -/
def Client.Sends (self : Client) (query : Bytes) : Prop :=
  match send_query self query with
  | (.error _, _, _) => True
  | (.ok _, sent, _) => ∃ packet, sent = some packet ∧ littleEndian (packet.take 3) = (packet.drop 4).length

/-! ## Integers -/

theorem signed32_eq {n : Nat} (h : n < 2 ^ 32) : signed32 n = if n < 2 ^ 31 then (n : Int) else n - 2 ^ 32 := by
  rw [signed32, BitVec.toInt_eq_toNat_cond, BitVec.toNat_ofNat, Nat.mod_eq_of_lt h]
  split
  · rw [if_pos (by omega)]
  · rw [if_neg (by omega)]
    rfl

theorem testBit_eq_false {n : Nat} : n.testBit 31 = false ↔ n / 2 ^ 31 % 2 = 0 := by
  rw [Nat.testBit_eq_decide_div_mod_eq, decide_eq_false_iff_not]
  omega

/-- The lower half is made right when its highest bit is clear. -/
theorem decoded_iff {n : Nat} (h : n < 2 ^ 53) : decoded n = n ↔ n.testBit 31 = false := by
  rw [testBit_eq_false, decoded]
  split
  · exact iff_of_true rfl (by omega)
  · rw [wide, signed32_eq (by omega), signed32_eq (by omega), if_pos (by omega : n / 2 ^ 32 < 2 ^ 31)]
    split <;> omega

theorem band_eq (n : Nat) : band n 0xff = n % 256 := by
  have hmask : 0xff % 2 ^ 32 = 2 ^ 8 - 1 := rfl
  rw [band, hmask, Nat.and_two_pow_sub_one_eq_mod]
  omega

theorem rshift_eq (n k : Nat) : rshift n k = n % 2 ^ 32 / 2 ^ k := Nat.shiftRight_eq_div_pow ..

theorem littleEndian_set_byte3 (n : Nat) : littleEndian (set_byte3 n) = n % 2 ^ 24 := by
  simp only [set_byte3, littleEndian, band_eq, rshift_eq, UInt8.toNat_ofNat']
  omega

/-! ## Packets -/

theorem exact_iff {p : OkPacket} (hlen : p.payload.length < 2 ^ 24) (haffected : p.affected_rows.toNat < 2 ^ 53)
    (hinsert : p.insert_id.toNat < 2 ^ 53) :
    p.Exact ↔ (p.info.Readable → p.affected_rows.toNat.testBit 31 = false ∧
      p.insert_id.toNat.testBit 31 = false) := by
  rw [← decoded_iff haffected, ← decoded_iff hinsert]
  obtain ⟨k, -, hparse⟩ := parse_ok_packet_eq p
  constructor
  · intro h hread
    obtain ⟨_, _, message, hsome⟩ := (parse_ok_packet_spec p hlen).1 hread
    obtain ⟨message', hres⟩ := h _ _ hsome
    rw [hparse] at hsome
    obtain ⟨read, -, heq⟩ := Option.map_eq_some_iff.mp hsome
    have hok := (Prod.mk.inj heq).1.trans hres
    simp only [Result.ok.injEq, Coded.number.injEq] at hok
    exact ⟨hok.1, hok.2.1⟩
  · intro h res status hsome
    have hread : p.info.Readable := by
      by_contra hread
      rw [(parse_ok_packet_spec p hlen).2 hread] at hsome
      cases hsome
    obtain ⟨haffected, hinsert⟩ := h hread
    rw [hparse, haffected, hinsert] at hsome
    obtain ⟨read, -, heq⟩ := Option.map_eq_some_iff.mp hsome
    exact ⟨read.1, (Prod.mk.inj heq).1.symm⟩

/-- The packet of a query. -/
def queryPacket (query : Bytes) : Bytes := set_byte3 (1 + query.length) ++ [0] ++ ([COM_QUERY] ++ query)

theorem length_queryPacket (query : Bytes) :
    littleEndian ((queryPacket query).take 3) = ((queryPacket query).drop 4).length ↔ query.length + 1 < 2 ^ 24 := by
  have htake : (queryPacket query).take 3 = set_byte3 (1 + query.length) := rfl
  have hdrop : (queryPacket query).drop 4 = COM_QUERY :: query := rfl
  rw [htake, hdrop, littleEndian_set_byte3, List.length_cons]
  omega

/-- A client that is connected. -/
def connected : Client := { state := .CONNECTED, sock := some fun packet => .ok packet.length, packet_no := 0 }

theorem sends_iff (query : Bytes) : (∀ self : Client, self.Sends query) ↔ query.length + 1 < 2 ^ 24 := by
  rw [← length_queryPacket]
  constructor
  · intro h
    obtain ⟨packet, hsent, hlen⟩ := h connected
    cases hsent
    exact hlen
  · rintro h ⟨state, _ | sock, packet_no⟩ <;> rw [Client.Sends, send_query]
    · split_ifs <;> trivial
    · split_ifs
      · trivial
      · have hpacket : send_packet ⟨state, some sock, -1⟩ sock ([COM_QUERY] ++ query) (1 + query.length) =
            (queryPacket query, sock (queryPacket query), ⟨state, some sock, 0⟩) := rfl
        simp only [hpacket]
        cases sock (queryPacket query) with
        | error err => trivial
        | ok bytes => exact ⟨_, rfl, h⟩

/-- **When a length coded integer is read exactly, when an OK packet is, and when a query is
sent with its length.** -/
theorem packets_right_iff (n k : Nat) (data rest : Bytes) (p : OkPacket) (query : Bytes) :
    (n < 2 ^ 53 → data.drop k = lenenc n ++ rest →
      (from_length_coded_bin data (place k) = some (.number n, place (k + (lenenc n).length)) ↔
        n.testBit 31 = false)) ∧
    (p.payload.length < 2 ^ 24 → p.affected_rows.toNat < 2 ^ 53 → p.insert_id.toNat < 2 ^ 53 →
      (p.Exact ↔
        (p.info.Readable → p.affected_rows.toNat.testBit 31 = false ∧ p.insert_id.toNat.testBit 31 = false))) ∧
    ((∀ self : Client, self.Sends query) ↔ query.length + 1 < 2 ^ 24) := by
  refine ⟨fun hn h => ?_, fun hlen haffected hinsert => exact_iff hlen haffected hinsert, sends_iff query⟩
  rw [from_length_coded_bin_eq (by omega) h, Option.some.injEq, Prod.mk.injEq, Coded.number.injEq, ← decoded_iff hn]
  exact and_iff_left rfl

theorem packets_right_iff_five :
    (from_length_coded_bin [5] (place 0) = some (.number 5, place 1) ↔ Nat.testBit 5 31 = false) ∧
      ((∀ self : Client, self.Sends []) ↔ 1 < 2 ^ 24) :=
  have h := packets_right_iff 5 0 [5] [] ⟨5, 0, 2, 0, .absent⟩ []
  ⟨h.1 (by decide) rfl, h.2.2⟩

/-- 2^31 is read as -2^31. -/
theorem not_right_highBit :
    ¬ ∀ (n k : Nat) (data rest : Bytes), n < 2 ^ 53 → data.drop k = lenenc n ++ rest →
      from_length_coded_bin data (place k) = some (.number n, place (k + (lenenc n).length)) := by
  intro h
  have heq := h (2 ^ 31) 0 [254, 0, 0, 0, 128, 0, 0, 0, 0] [] (by decide) (by decide)
  exact absurd heq (by decide)

end OpenResty.Resty.Mysql
