/-
Which responses of the server `read_result` reads as what they are.
-/
import OpenResty.Resty.Mysql

namespace OpenResty.Resty.Mysql

open Cosocket List Nat Prod
open Option hiding any_eq_false
open UInt8 (ofNat toNat_ofNat')

/-! ## What is to be read -/

def valueOf : Option Bytes → Value
  | none => .null
  | some s => .string s

/-- The row with each value at its place, or under its column. -/
def rowOf (compact : Bool) (columns : List Column) (row : List (Option Bytes)) : Row :=
  if compact then .compact (row.map fun v => some (valueOf v))
  else .named (columns.zipWith (fun c v => (some c.name, valueOf v)) row)

/-- The error of the server. -/
def ErrPacket.answer (p : ErrPacket) : State × Answer :=
  (.CONNECTED, .error (.server p.message p.errno.toNat (some p.sqlstate.1)))

/-- The state after a response, and what is returned. -/
def Correct (compact : Bool) : Response → State × Answer → Prop
  | .ok p, o =>
    ∃ affected_rows insert_id message,
      o = withStatus p.status.toNat (.ok affected_rows insert_id p.status.toNat p.warnings.toNat message)
  | .err p, o => o = p.answer
  | .resultSet r, o =>
    match r.ending with
    | .eof p => o = withStatus p.status.toNat (.rows (r.rows.map fun row => rowOf compact r.columns row.1))
    | .err p => o = p.answer

/-- The response is read as what it is, and its bytes are gone. -/
def Right (max_packet_size : Nat) (r : Response) : Prop :=
  ∀ compact w rest, w.bytes = r.bytes ++ rest → w.Calm r.bytes.length →
    ∃ o, Correct compact r o ∧
      read_result max_packet_size compact .COMMAND_SENT w = some (o.1, o.2, w.after r.bytes.length)

/-- The text does not start with the prefix of a longer integer than there are bytes for. -/
def Info.Readable : Info → Prop
  | .absent | .coded _ => True
  | .rest s => ∀ first, s.head? = some first →
      (first = 252 → 3 ≤ s.length) ∧ (first = 253 → 4 ≤ s.length) ∧ (first = 254 → 9 ≤ s.length)

/-- At most 250 columns, and no error behind the rows. -/
def Response.Readable : Response → Prop
  | .ok p => p.info.Readable
  | .err _ => True
  | .resultSet r => r.columns.length ≤ 250 ∧ ∃ p, r.ending = .eof p

/-! ## Positions -/

/-- The position behind `k` bytes. -/
def place (k : Nat) : Int := k + 1

variable {data bs rest : Bytes} {k : Nat}

theorem drop_more (h : data.drop k = bs ++ rest) : data.drop (k + bs.length) = rest := by
  rw [← drop_drop, h, drop_left]

theorem range_eq (h : data.drop k = bs ++ rest) : range data (place k) (k + bs.length) = bs := by
  have hlen := congrArg List.length h
  rw [length_drop, length_append] at hlen
  have hfirst : ¬ (place k < 0) ∧ ¬ (place k ≤ 0) ∧ (place k - 1).toNat = k := by
    rw [place]
    omega
  rw [range]
  simp only [if_neg hfirst.1, if_neg hfirst.2.1, hfirst.2.2]
  rw [if_neg (by omega)]
  by_cases hshort : (data.length : Int) < k + bs.length
  · have hnil : bs = [] := eq_nil_of_length_eq_zero (by omega)
    rw [if_pos hshort, Int.toNat_natCast, take_length, hnil, h, hnil, nil_append]
    exact eq_nil_of_length_eq_zero (by rw [hnil] at hshort; simp at hshort; omega)
  · rw [if_neg hshort, show ((k : Int) + bs.length).toNat = k + bs.length by omega, drop_take, h,
      Nat.add_sub_cancel_left, take_left]

theorem strbyte_eq {b : UInt8} (h : data.drop k = b :: rest) : strbyte data (place k) = some b := by
  have hrange : range data (place k) (place k) = [b] := range_eq (show data.drop k = [b] ++ rest from h)
  rw [strbyte, hrange]
  rfl

theorem strbyte_none (h : data.drop k = []) : strbyte data (place k) = none := by
  have hlen := congrArg List.length h
  rw [length_drop, length_nil] at hlen
  have hrange : range data (place k) (place k) = [] := by
    refine eq_nil_of_length_eq_zero ?_
    rw [range, length_drop, length_take, place]
    split <;> split <;> omega
  rw [strbyte, hrange]
  rfl

theorem get_bytes_eq {size : Nat} (h : data.drop k = bs ++ rest) (hsize : bs.length = size) :
    get_bytes size data (place k) = some (littleEndian bs, place (k + size)) := by
  have hend : place k + size - 1 = k + bs.length := by
    rw [place, hsize]
    omega
  rw [get_bytes, hend, range_eq h]
  simp only [hsize, if_true, place]
  rw [some.injEq, mk.injEq]
  exact ⟨rfl, by push_cast; omega⟩

/-- What `_get_byte8` makes of an integer. -/
def wide (n : Nat) : Int := signed32 (n % 2 ^ 32) + signed32 (n / 2 ^ 32) * 4294967296

theorem get_byte8_eq (h : data.drop k = bs ++ rest) (hsize : bs.length = 8) :
    get_byte8 data (place k) = some (wide (littleEndian bs), place (k + 8)) := by
  rw [get_byte8, get_bytes_eq h hsize]
  rfl

/-! ## Integers -/

theorem length_toLittleEndian (k n : Nat) : (toLittleEndian k n).length = k := by
  induction k generalizing n with
  | zero => rfl
  | succ k ih => rw [toLittleEndian, length_cons, ih]

variable {n turns : Nat}

theorem littleEndian_toLittleEndian {k : Nat} (h : n < 256 ^ k) : littleEndian (toLittleEndian k n) = n := by
  induction k generalizing n with
  | zero =>
    rw [toLittleEndian, littleEndian]
    omega
  | succ k ih =>
    rw [Nat.pow_succ] at h
    rw [toLittleEndian, littleEndian, ih (by omega), toNat_ofNat']
    omega

/-! ## Length coded values -/

theorem lenenc_ne_nil (n : Nat) : lenenc n ≠ [] := by
  rw [lenenc]
  split
  · exact cons_ne_nil _ _
  · split
    · exact cons_ne_nil _ _
    · split <;> exact cons_ne_nil _ _

/-- What a length coded integer is read as. -/
def decoded (n : Nat) : Int := if n < 2 ^ 24 then n else wide n

theorem from_length_coded_bin_eq (hn : n < 2 ^ 64) (h : data.drop k = lenenc n ++ rest) :
    from_length_coded_bin data (place k) = some (.number (decoded n), place (k + (lenenc n).length)) := by
  rw [lenenc] at h ⊢
  by_cases h1 : n ≤ 250
  · rw [if_pos h1] at h ⊢
    have hle : ofNat n ≤ 250 := by
      rw [UInt8.le_iff_toNat_le, toNat_ofNat']
      have : (250 : UInt8).toNat = 250 := rfl
      omega
    rw [from_length_coded_bin, strbyte_eq h]
    simp only [if_pos hle, toNat_ofNat']
    rw [mod_eq_of_lt (by omega), decoded, if_pos (by omega)]
    rfl
  rw [if_neg h1] at h ⊢
  by_cases h2 : n < 2 ^ 16
  · rw [if_pos h2] at h ⊢
    have hbytes := get_bytes_eq (drop_more (show data.drop k = [252] ++ _ from h)) (length_toLittleEndian 2 n)
    rw [littleEndian_toLittleEndian (by omega)] at hbytes
    rw [from_length_coded_bin, strbyte_eq h, decoded, if_pos (by omega)]
    exact congrArg (Option.map fun read => (Coded.number read.1, read.2)) hbytes
  rw [if_neg h2] at h ⊢
  by_cases h3 : n < 2 ^ 24
  · rw [if_pos h3] at h ⊢
    have hbytes := get_bytes_eq (drop_more (show data.drop k = [253] ++ _ from h)) (length_toLittleEndian 3 n)
    rw [littleEndian_toLittleEndian (by omega)] at hbytes
    rw [from_length_coded_bin, strbyte_eq h, decoded, if_pos h3]
    exact congrArg (Option.map fun read => (Coded.number read.1, read.2)) hbytes
  rw [if_neg h3] at h ⊢
  have hbytes := get_byte8_eq (drop_more (show data.drop k = [254] ++ _ from h)) (length_toLittleEndian 8 n)
  rw [littleEndian_toLittleEndian (by omega)] at hbytes
  rw [from_length_coded_bin, strbyte_eq h, decoded, if_neg h3]
  exact congrArg (Option.map fun read => (Coded.number read.1, read.2)) hbytes

/-- A length coded integer is read; one below 2^24 exactly. -/
theorem from_length_coded_bin_spec (hn : n < 2 ^ 64) (h : data.drop k = lenenc n ++ rest) :
    ∃ v, from_length_coded_bin data (place k) = some (.number v, place (k + (lenenc n).length)) ∧ (n < 2 ^ 24 → v = n) :=
  ⟨decoded n, from_length_coded_bin_eq hn h, fun hlt => if_pos hlt⟩

theorem from_length_coded_str_spec {s : Bytes} (hs : s.length < 2 ^ 24) (h : data.drop k = lenencStr s ++ rest) :
    from_length_coded_str data (place k) = some (some s, place (k + (lenencStr s).length)) := by
  rw [lenencStr, append_assoc] at h
  obtain ⟨v, hv, hexact⟩ := from_length_coded_bin_spec (by omega) h
  obtain rfl := hexact hs
  have hrange := range_eq (drop_more h)
  have hend : place (k + (lenenc s.length).length) + s.length - 1 = ((k + (lenenc s.length).length : Nat) : Int) + s.length := by
    rw [place]
    omega
  rw [from_length_coded_str, hv]
  simp only [map_some, hend, hrange]
  rw [lenencStr, length_append, some.injEq, mk.injEq]
  exact ⟨rfl, by rw [place, place]; push_cast; omega⟩

theorem field_spec {v : Option Bytes} (hv : ∀ s, v = some s → s.length < 2 ^ 24) (h : data.drop k = fieldBytes v ++ rest) :
    from_length_coded_str data (place k) = some (v, place (k + (fieldBytes v).length)) := by
  cases v with
  | none =>
    rw [from_length_coded_str, from_length_coded_bin, strbyte_eq (show data.drop k = 251 :: rest from h)]
    rfl
  | some s => exact from_length_coded_str_spec (hv s rfl) h

/-! ## Packets -/

theorem typOf_cons (b : UInt8) (bs : Bytes) :
    typOf (b :: bs) =
      if b = 0x00 then some .OK else if b = 0xff then some .ERR else if b = 0xfe then some .EOF
      else if b ≤ 250 then some .DATA else none := by
  rw [typOf, show (1 : Int) = place 0 from rfl, strbyte_eq (show (b :: bs).drop 0 = b :: bs from rfl)]

variable {max_packet_size : Nat} {payload : Bytes}

/-- A packet is read with its type. -/
theorem recv_packet_spec (number : UInt8) (hne : payload ≠ []) (hmax : payload.length ≤ max_packet_size)
    (hlen : payload.length < 2 ^ 24 - 1) :
    Takes (recv_packet max_packet_size) (packetBytes number payload) (.ok (payload, typOf payload)) := by
  have hheader : (toLittleEndian 3 payload.length ++ [number]).length = 4 := by
    rw [length_append, length_toLittleEndian]
    rfl
  have htake : littleEndian ((toLittleEndian 3 payload.length ++ [number]).take 3) = payload.length := by
    rw [take_left' (length_toLittleEndian 3 payload.length), littleEndian_toLittleEndian (by omega)]
  have hpos := length_pos_iff.mpr hne
  have hcontent := (Takes.receive "failed to read packet content: " Stop.err payload).andThen
    (f := fun data => answer (.ok (data, typOf data))) (Takes.answer (.ok (payload, typOf payload)))
  have hall := (Takes.receive "failed to receive packet header: " Stop.err (toLittleEndian 3 payload.length ++ [number])).andThen
    (f := fun header w =>
      let len := littleEndian (header.take 3)
      if len = 0 then answer (.error (.err "empty packet")) w
      else if len > max_packet_size then answer (.error (.err s!"packet size too big: {len}")) w
      else
        andThen (failing Stop.err (named "failed to read packet content: " (receive len w))) fun data w =>
        answer (.ok (data, typOf data)) w)
    (b := .ok (payload, typOf payload)) (by
      simp only [htake, if_neg (show ¬ payload.length = 0 by omega), if_neg (show ¬ payload.length > max_packet_size by omega)]
      rw [append_nil] at hcontent
      exact hcontent)
  rw [hheader] at hall
  exact hall

/-! ## The packets of a response -/

theorem range_end (data : Bytes) (k : Nat) : range data (place k) (-1) = data.drop k := by
  have hfirst : ¬ (place k < 0) ∧ ¬ (place k ≤ 0) ∧ (place k - 1).toNat = k := by
    rw [place]
    omega
  rw [range]
  simp only [if_neg hfirst.1, if_neg hfirst.2.1, hfirst.2.2]
  rw [if_pos (by decide), show ((-1 : Int) + data.length + 1).toNat = data.length by omega, take_length]

theorem length_range (data : Bytes) (k size : Nat) :
    (range data (place k) (place k + size - 1)).length = min size (data.length - k) := by
  rw [range, length_drop, length_take, place]
  split
  · omega
  · split <;> split <;> split <;> omega

theorem get_bytes_isSome (size : Nat) (data : Bytes) (k : Nat) :
    (get_bytes size data (place k)).isSome = true ↔ size ≤ data.length - k := by
  rw [get_bytes, length_range]
  by_cases h : min size (data.length - k) = size
  · simp only [if_pos h]
    exact iff_of_true rfl (by omega)
  · simp only [if_neg h]
    exact iff_of_false Bool.false_ne_true (by omega)

/-- A text that the server sends as it is can be read unless a longer integer seems to come. -/
theorem info_isSome {i : Info} (h : data.drop k = i.bytes) (hlen : i.bytes.length < 2 ^ 24) :
    (from_length_coded_str data (place k)).isSome = true ↔ i.Readable := by
  rw [from_length_coded_str, isSome_map]
  cases i with
  | absent =>
    rw [from_length_coded_bin, strbyte_none h]
    exact iff_of_true rfl trivial
  | coded s =>
    have hs : s.length < 2 ^ 24 := by
      rw [Info.bytes, lenencStr, length_append] at hlen
      omega
    obtain ⟨v, hv, -⟩ := from_length_coded_bin_spec (by omega) (show data.drop k = lenenc s.length ++ s from h)
    rw [hv]
    exact iff_of_true rfl trivial
  | rest s =>
    cases s with
    | nil =>
      rw [from_length_coded_bin, strbyte_none h]
      exact iff_of_true rfl nofun
    | cons first s =>
      have hlen := congrArg List.length h
      rw [length_drop, Info.bytes, length_cons] at hlen
      have hread : Info.Readable (.rest (first :: s)) ↔
          (first = 252 → 3 ≤ s.length + 1) ∧ (first = 253 → 4 ≤ s.length + 1) ∧ (first = 254 → 9 ≤ s.length + 1) :=
        ⟨fun h => h first rfl, fun h f hf => some.inj hf ▸ h⟩
      rw [from_length_coded_bin, strbyte_eq h, hread]
      have hbytes : ∀ size, (get_bytes size data (place k + 1)).isSome = true ↔ size ≤ data.length - (k + 1) := fun size =>
        get_bytes_isSome size data (k + 1)
      simp only
      by_cases h250 : first ≤ 250
      · rw [if_pos h250]
        refine iff_of_true rfl ⟨?_, ?_, ?_⟩ <;> rintro rfl <;> exact absurd h250 (by decide)
      rw [if_neg h250]
      by_cases h251 : first = 251
      · rw [if_pos h251]
        refine iff_of_true rfl ⟨?_, ?_, ?_⟩ <;> rintro rfl <;> exact absurd h251 (by decide)
      rw [if_neg h251]
      by_cases h252 : first = 252
      · rw [if_pos h252, isSome_map, get_byte2, hbytes, h252]
        refine ⟨fun h => ⟨fun _ => by omega, fun h => absurd h (by decide), fun h => absurd h (by decide)⟩, fun h => ?_⟩
        have := h.1 rfl
        omega
      rw [if_neg h252]
      by_cases h253 : first = 253
      · rw [if_pos h253, isSome_map, get_byte3, hbytes, h253]
        refine ⟨fun h => ⟨fun h => absurd h (by decide), fun _ => by omega, fun h => absurd h (by decide)⟩, fun h => ?_⟩
        have := h.2.1 rfl
        omega
      rw [if_neg h253]
      by_cases h254 : first = 254
      · rw [if_pos h254, isSome_map, get_byte8, isSome_map, hbytes, h254]
        refine ⟨fun h => ⟨fun h => absurd h (by decide), fun h => absurd h (by decide), fun _ => by omega⟩, fun h => ?_⟩
        have := h.2.2 rfl
        omega
      rw [if_neg h254]
      exact iff_of_true rfl ⟨fun h => absurd h h252, fun h => absurd h h253, fun h => absurd h h254⟩

theorem get_word {n : BitVec 16} (h : data.drop k = toLittleEndian 2 n.toNat ++ rest) :
    get_byte2 data (place k) = some (n.toNat, place (k + 2)) := by
  have hbytes := get_bytes_eq h (length_toLittleEndian 2 n.toNat)
  rwa [littleEndian_toLittleEndian n.isLt] at hbytes

/-- All but the text of an OK packet. -/
theorem parse_ok_packet_eq (p : OkPacket) :
    ∃ k, p.payload.drop k = p.info.bytes ∧
      parse_ok_packet p.payload = (from_length_coded_str p.payload (place k)).map fun read =>
        (.ok (.number (decoded p.affected_rows.toNat)) (.number (decoded p.insert_id.toNat)) p.status.toNat
          p.warnings.toNat read.1, p.status.toNat) := by
  have hall : p.payload.drop 1 = lenenc p.affected_rows.toNat ++ (lenenc p.insert_id.toNat ++
      (toLittleEndian 2 p.status.toNat ++ (toLittleEndian 2 p.warnings.toNat ++ p.info.bytes))) := by
    simp only [OkPacket.payload, append_assoc]
    rfl
  have haffected := from_length_coded_bin_eq p.affected_rows.isLt hall
  have hall := drop_more hall
  have hinsert := from_length_coded_bin_eq p.insert_id.isLt hall
  have hall := drop_more hall
  have hstatus := get_word hall
  have hall := drop_more hall
  have hwarnings := get_word (by rwa [length_toLittleEndian] at hall)
  have hinfo := drop_more hall
  rw [length_toLittleEndian, length_toLittleEndian] at hinfo
  refine ⟨_, hinfo, ?_⟩
  rw [parse_ok_packet, show (2 : Int) = place 1 from rfl]
  simp only [haffected, hinsert, hstatus, hwarnings, bind, Option.bind, pure]
  generalize from_length_coded_str p.payload _ = message
  cases message <;> rfl

theorem parse_ok_packet_spec (p : OkPacket) (hlen : p.payload.length < 2 ^ 24) :
    (p.info.Readable → ∃ affected_rows insert_id message, parse_ok_packet p.payload =
        some (.ok affected_rows insert_id p.status.toNat p.warnings.toNat message, p.status.toNat)) ∧
      (¬ p.info.Readable → parse_ok_packet p.payload = none) := by
  obtain ⟨k, hinfo, hparse⟩ := parse_ok_packet_eq p
  have hsome := info_isSome hinfo (by
    have := congrArg List.length hinfo
    rw [length_drop] at this
    omega)
  constructor
  · intro hread
    obtain ⟨⟨message, pos⟩, hmessage⟩ := isSome_iff_exists.mp (hsome.mpr hread)
    exact ⟨_, _, message, by rw [hparse, hmessage]; rfl⟩
  · intro hread
    rw [hparse, not_isSome_iff_eq_none.mp fun h => hread (hsome.mp h)]
    rfl

theorem parse_err_packet_spec (p : ErrPacket) :
    parse_err_packet p.payload = .server p.message p.errno.toNat (some p.sqlstate.1) := by
  have hall : p.payload.drop 1 = toLittleEndian 2 p.errno.toNat ++ ([35] ++ (p.sqlstate.1 ++ p.message)) := by
    simp only [ErrPacket.payload, append_assoc]
    rfl
  have herrno := get_word hall
  have hmarker := drop_more hall
  have hstate := drop_more hmarker
  have hmessage := drop_more hstate
  rw [length_toLittleEndian] at hmarker hstate hmessage
  rw [p.sqlstate.2] at hmessage
  have hfirst : range p.payload (place 3) (place 3) = [35] := range_eq hmarker
  have hsqlstate : range p.payload (place 3 + 1) (place 3 + 5) = p.sqlstate.1 := by
    have hrange := range_eq hstate
    rw [p.sqlstate.2] at hrange
    exact hrange
  have hrest : range p.payload (place 3 + 6) (-1) = p.message := (range_end p.payload 9).trans hmessage
  rw [parse_err_packet, show (2 : Int) = place 1 from rfl, herrno]
  simp only [reduceAdd, hfirst, if_true, hsqlstate, hrest]

theorem parse_eof_packet_spec (p : EofPacket) : parse_eof_packet p.payload = some (p.warnings.toNat, p.status.toNat) := by
  have hall : p.payload.drop 1 = toLittleEndian 2 p.warnings.toNat ++ (toLittleEndian 2 p.status.toNat ++ []) := by
    simp only [EofPacket.payload, append_assoc, append_nil]
    rfl
  have hwarnings := get_word hall
  have hall := drop_more hall
  rw [length_toLittleEndian] at hall
  have hstatus := get_word hall
  rw [parse_eof_packet, show (2 : Int) = place 1 from rfl]
  simp only [hwarnings, hstatus, bind, Option.bind, pure]

def Column.col (c : Column) : Col := { name := some c.name, typ := some c.typ.1 }

theorem parse_field_packet_spec (c : Column) (hlen : c.payload.length < 2 ^ 24) :
    parse_field_packet c.payload = some c.col := by
  have hall : c.payload.drop 0 = lenencStr [100, 101, 102] ++ (lenencStr c.db ++ (lenencStr c.table ++ (lenencStr c.orig_table ++
      (lenencStr c.name ++ (lenencStr c.orig_name ++ ([0x0c] ++ (toLittleEndian 2 c.charset.toNat ++
      (toLittleEndian 4 c.length.toNat ++ (c.typ.1 :: (toLittleEndian 2 c.flags.toNat ++ [c.decimals, 0, 0])))))))))) := by
    simp only [Column.payload, append_assoc]
    rfl
  have hsizes := congrArg List.length hall
  simp only [lenencStr, length_append, drop_zero] at hsizes
  have hcatalog : from_length_coded_str c.payload 1 = some (some [100, 101, 102], place (0 + (lenencStr [100, 101, 102]).length)) :=
    from_length_coded_str_spec (by decide) hall
  have hall := drop_more hall
  have hdb := from_length_coded_str_spec (by omega) hall
  have hall := drop_more hall
  have htable := from_length_coded_str_spec (by omega) hall
  have hall := drop_more hall
  have horig_table := from_length_coded_str_spec (by omega) hall
  have hall := drop_more hall
  have hname := from_length_coded_str_spec (by omega) hall
  have hall := drop_more hall
  have horig_name := from_length_coded_str_spec (by omega) hall
  have hall := drop_more (drop_more hall)
  have hcharset := get_word hall
  have hall := drop_more hall
  have hlength := get_bytes_eq hall (length_toLittleEndian 4 _)
  have hall := drop_more hall
  have htyp := strbyte_eq hall
  rw [length_toLittleEndian, length_toLittleEndian] at htyp
  rw [length_toLittleEndian] at hlength
  have hfiller : ∀ k, place k + 1 = place (k + [(0x0c : UInt8)].length) := fun _ => rfl
  rw [parse_field_packet]
  simp only [hcatalog, hdb, htable, horig_table, hname, horig_name, bind, Option.bind, pure, hfiller, hcharset, get_byte4,
    hlength, map_some, htyp]
  rfl

/-! ## Rows -/

theorem convert_col (c : Column) (v : Option Bytes) : convert c.col.typ v = some (valueOf v) := by
  cases v with
  | none => rfl
  | some s =>
    rw [convert, Column.col]
    simp only [any_some, c.typ.2, Bool.false_eq_true, if_false]
    rfl

variable {row : List (Option Bytes)}

theorem parseFields_spec {columns : List Column} (hlen : row.length = columns.length)
    (hsize : ∀ s, some s ∈ row → s.length < 2 ^ 24) (h : data.drop k = row.flatMap fieldBytes ++ rest) :
    parseFields data (columns.map Column.col) (place k) = some (row.map fun v => some (valueOf v)) := by
  induction row generalizing columns k with
  | nil =>
    rw [eq_nil_of_length_eq_zero hlen.symm]
    rfl
  | cons v row ih =>
    cases columns with
    | nil => cases hlen
    | cons c columns =>
      rw [flatMap_cons, append_assoc] at h
      have hfield := field_spec (fun s hs => hsize s (hs ▸ mem_cons_self)) h
      have hrest := ih (succ.inj hlen) (fun s hs => hsize s (mem_cons_of_mem v hs)) (drop_more h)
      rw [map_cons, parseFields]
      simp only [hfield, hrest, bind, Option.bind, pure, convert_col]
      rfl

/-- With distinct names no value is put over another. -/
theorem foldl_assign {columns : List Column} {fields : List (Option Bytes × Value)}
    (hlen : row.length = columns.length) (hdistinct : (columns.map Column.name).Nodup)
    (hnew : ∀ c ∈ columns, ∀ e ∈ fields, e.1 ≠ some c.name) :
    ((columns.map Column.col).zip (row.map fun v => some (valueOf v))).foldl (fun row e => assign row e.1.name e.2) fields =
      fields ++ columns.zipWith (fun c v => (some c.name, valueOf v)) row := by
  induction columns generalizing row fields with
  | nil => simp
  | cons c columns ih =>
    cases row with
    | nil => cases hlen
    | cons v row =>
      rw [map_cons, nodup_cons] at hdistinct
      have hassign : assign fields (some c.name) (some (valueOf v)) = fields ++ [(some c.name, valueOf v)] := by
        have hany : fields.any (·.1 == some c.name) = false := by
          rw [any_eq_false]
          intro e he
          rw [beq_iff_eq]
          exact hnew c mem_cons_self e he
        simp only [assign, hany, Bool.false_eq_true, if_false]
      have hrest := ih (succ.inj hlen) hdistinct.2 (show ∀ d ∈ columns, ∀ e ∈ fields ++ [(some c.name, valueOf v)], e.1 ≠ some d.name by
        intro d hd e he
        rcases mem_append.mp he with he | he
        · exact hnew d (mem_cons_of_mem c hd) e he
        · obtain rfl := mem_singleton.mp he
          intro heq
          exact hdistinct.1 (some.inj heq ▸ mem_map_of_mem hd))
      rw [map_cons, map_cons, zip_cons_cons, foldl_cons]
      simp only [Column.col] at hassign hrest ⊢
      rw [hassign, hrest, zipWith_cons_cons, append_assoc]
      rfl

theorem length_lt_of_mem {s : Bytes} (h : some s ∈ row) : s.length ≤ (row.flatMap fieldBytes).length := by
  induction row with
  | nil => cases h
  | cons v row ih =>
    rw [flatMap_cons, length_append]
    rcases mem_cons.mp h with rfl | hmem
    · rw [fieldBytes, lenencStr, length_append]
      omega
    · have := ih hmem
      omega

/-- A row that fits into a packet is read. -/
theorem parse_row_data_packet_spec {columns : List Column} (compact : Bool)
    (hlen : row.length = columns.length) (hdistinct : (columns.map Column.name).Nodup)
    (hsize : (row.flatMap fieldBytes).length < 2 ^ 24) :
    parse_row_data_packet (row.flatMap fieldBytes) (columns.map Column.col) compact = some (rowOf compact columns row) := by
  have hfields : parseFields (row.flatMap fieldBytes) (columns.map Column.col) 1 = some (row.map fun v => some (valueOf v)) :=
    parseFields_spec hlen (fun s hs => Nat.lt_of_le_of_lt (length_lt_of_mem hs) hsize) (by rw [append_nil]; rfl)
  rw [parse_row_data_packet, hfields, map_some, rowOf]
  cases compact with
  | true => rfl
  | false =>
    rw [foldl_assign hlen hdistinct (fun _ _ _ he => (not_mem_nil he).elim)]
    rfl

/-! ## Types of packets -/

theorem typOf_small (hn : n ≤ 250) (rest : Bytes) :
    typOf (lenenc n ++ rest) = if n = 0 then some .OK else some .DATA := by
  have htoNat : (ofNat n).toNat = n := by rw [toNat_ofNat', mod_eq_of_lt (by omega)]
  have hne : ∀ b : UInt8, 250 < b.toNat → ofNat n ≠ b := by
    rintro b hb rfl
    omega
  have hzero : ofNat n = 0x00 ↔ n = 0 := by
    rw [← UInt8.toNat_inj, htoNat]
    rfl
  have hle : ofNat n ≤ 250 := by
    rw [UInt8.le_iff_toNat_le, htoNat]
    exact hn
  rw [lenenc, if_pos hn, cons_append, typOf_cons]
  simp only [hzero, if_neg (hne 0xff (by decide)), if_neg (hne 0xfe (by decide)), if_pos hle]

theorem typOf_large (hn : 250 < n) (rest : Bytes) :
    typOf (lenenc n ++ rest) = if n < 2 ^ 24 then none else some .EOF := by
  rw [lenenc, if_neg (Nat.not_le.mpr hn)]
  by_cases h2 : n < 2 ^ 16
  · rw [if_pos h2, if_pos (by omega), cons_append, typOf_cons]
    rfl
  rw [if_neg h2]
  by_cases h3 : n < 2 ^ 24
  · rw [if_pos h3, if_pos h3, cons_append, typOf_cons]
    rfl
  · rw [if_neg h3, if_neg h3, cons_append, typOf_cons]
    rfl

theorem typOf_row (hne : row ≠ []) (hsize : (row.flatMap fieldBytes).length < 2 ^ 24) :
    typOf (row.flatMap fieldBytes) ≠ some .EOF := by
  cases row with
  | nil => exact absurd rfl hne
  | cons v row =>
    rw [flatMap_cons] at hsize ⊢
    cases v with
    | none =>
      rw [fieldBytes, cons_append, typOf_cons]
      decide
    | some s =>
      rw [fieldBytes, lenencStr, append_assoc] at hsize ⊢
      by_cases hsmall : s.length ≤ 250
      · rw [typOf_small hsmall]
        split <;> decide
      · simp only [length_append] at hsize
        rw [typOf_large (Nat.lt_of_not_le hsmall), if_pos (by omega)]
        decide

/-! ## The parts of a result set -/

theorem packets_append (number : UInt8) (xs ys : List Bytes) :
    packets number (xs ++ ys) = packets number xs ++ packets (number + ofNat xs.length) ys := by
  induction xs generalizing number with
  | nil => simp [packets]
  | cons x xs ih =>
    have hnumber : number + 1 + ofNat xs.length = number + ofNat (xs.length + 1) := by
      rw [UInt8.ofNat_add, UInt8.add_assoc, UInt8.add_comm 1]
      rfl
    rw [cons_append, packets, packets, ih, hnumber, length_cons, append_assoc]

theorem length_packets (number : UInt8) (payloads : List Bytes) : payloads.length ≤ (packets number payloads).length := by
  induction payloads generalizing number with
  | nil => exact Nat.zero_le _
  | cons payload payloads ih =>
    have := ih (number + 1)
    simp only [packets, packetBytes, length_append, length_cons, length_nil]
    omega

def Fit (max_packet_size : Nat) (payload : Bytes) : Prop := payload.length ≤ max_packet_size ∧ payload.length < 2 ^ 24 - 1

theorem recv_field_packet_spec (c : Column) (number : UInt8) (hfit : Fit max_packet_size c.payload) :
    Takes (recv_field_packet max_packet_size) (packetBytes number c.payload) (.ok c.col) := by
  have htyp : typOf c.payload = some .DATA := by
    rw [Column.payload]
    simp only [append_assoc]
    exact typOf_small (n := 3) (by decide) _
  have hne : c.payload ≠ [] := by
    intro h
    rw [h] at htyp
    cases htyp
  have hfield := parse_field_packet_spec c (by have := hfit.2; omega)
  have hall : Takes (recv_field_packet max_packet_size) (packetBytes number c.payload ++ []) (.ok c.col) :=
    (recv_packet_spec number hne hfit.1 hfit.2).andThen (by
      simp only [htyp, hfield]
      exact Takes.answer _)
  rw [append_nil] at hall
  exact hall

theorem recvCols_spec {columns : List Column} (number : UInt8) (hfit : ∀ c ∈ columns, Fit max_packet_size c.payload) :
    Takes (recvCols max_packet_size columns.length) (packets number (columns.map Column.payload))
      (.ok (columns.map Column.col)) := by
  induction columns generalizing number with
  | nil => exact Takes.answer _
  | cons c columns ih =>
    have hrest := (ih (number + 1) fun d hd => hfit d (mem_cons_of_mem c hd)).andThen
      (f := fun cols => answer (.ok (c.col :: cols))) (Takes.answer _)
    rw [append_nil] at hrest
    exact (recv_field_packet_spec c number (hfit c mem_cons_self)).andThen hrest

variable {columns : List Column} (compact : Bool)

variable {w : Wire}

/-- A row is read, and the rest after it. -/
theorem recvRows_cons (number : UInt8) (hne : columns ≠ [])
    (hlen : row.length = columns.length) (hdistinct : (columns.map Column.name).Nodup)
    (hfit : Fit max_packet_size (row.flatMap fieldBytes)) {rest : Bytes}
    (hw : w.bytes = packetBytes number (row.flatMap fieldBytes) ++ rest)
    (hcalm : w.Calm (packetBytes number (row.flatMap fieldBytes)).length) :
    recvRows max_packet_size (columns.map Column.col) compact (turns + 1) w =
      andThen (recvRows max_packet_size (columns.map Column.col) compact turns
        (w.after (packetBytes number (row.flatMap fieldBytes)).length)) fun (rows, status_flags) w =>
      answer (.ok (rowOf compact columns row :: rows, status_flags)) w := by
  have hrow : row ≠ [] := by
    intro h
    rw [h] at hlen
    exact hne (eq_nil_of_length_eq_zero hlen.symm)
  have htyp := typOf_row hrow (by have := hfit.2; omega)
  have hpayload : row.flatMap fieldBytes ≠ [] := by
    cases row with
    | nil => exact absurd rfl hrow
    | cons v row =>
      rw [flatMap_cons]
      cases v with
      | none => exact cons_ne_nil _ _
      | some s => exact append_ne_nil_of_left_ne_nil (append_ne_nil_of_left_ne_nil (lenenc_ne_nil _) _) _
  rw [recvRows, recv_packet_spec number hpayload hfit.1 hfit.2 w rest hw hcalm]
  simp only [andThen_ok, if_neg htyp, parse_row_data_packet_spec compact hlen hdistinct (Nat.lt_of_lt_of_le hfit.2 (by decide))]

/-- The payloads of the rows. -/
def rowPayloads (rows : List { row : List (Option Bytes) // row.length = columns.length }) : List Bytes :=
  rows.map fun row => row.1.flatMap fieldBytes

theorem packets_rows_nil (number : UInt8) (payload : Bytes) :
    packets number (rowPayloads ([] : List { row : List (Option Bytes) // row.length = columns.length }) ++ [payload]) = packetBytes number payload := by
  rw [rowPayloads, map_nil, nil_append, packets, packets, append_nil]

theorem packets_rows_cons (number : UInt8) (row : { row : List (Option Bytes) // row.length = columns.length })
    (rows : List { row : List (Option Bytes) // row.length = columns.length }) (payload : Bytes) :
    packets number (rowPayloads (row :: rows) ++ [payload]) =
      packetBytes number (row.1.flatMap fieldBytes) ++ packets (number + 1) (rowPayloads rows ++ [payload]) := rfl

theorem typOf_eof (p : EofPacket) : typOf p.payload = some .EOF := by
  rw [EofPacket.payload, append_assoc, cons_append, typOf_cons]
  rfl

theorem eof_ne_nil (p : EofPacket) : p.payload ≠ [] := cons_ne_nil _ _

theorem err_ne_nil (p : ErrPacket) : p.payload ≠ [] := cons_ne_nil _ _

theorem typOf_err (p : ErrPacket) : typOf p.payload = some .ERR := by
  simp only [ErrPacket.payload, append_assoc, cons_append, typOf_cons]
  rfl

variable {rows : List { row : List (Option Bytes) // row.length = columns.length }}

theorem recvRows_eof {p : EofPacket}
    (number : UInt8) (hne : columns ≠ []) (hdistinct : (columns.map Column.name).Nodup) (hturns : rows.length < turns)
    (hfit : ∀ payload ∈ rowPayloads rows ++ [p.payload], Fit max_packet_size payload) :
    Takes (recvRows max_packet_size (columns.map Column.col) compact turns) (packets number (rowPayloads rows ++ [p.payload]))
      (.ok (rows.map fun row => rowOf compact columns row.1, p.status.toNat)) := by
  intro w rest hw hcalm
  induction rows generalizing turns number w with
  | nil =>
    obtain ⟨turns, rfl⟩ : ∃ n, turns = n + 1 := ⟨turns - 1, by omega⟩
    have hp := hfit p.payload mem_cons_self
    rw [packets_rows_nil] at hw hcalm ⊢
    rw [recvRows, recv_packet_spec number (eof_ne_nil p) hp.1 hp.2 w rest hw hcalm]
    simp only [andThen_ok, if_pos (typOf_eof p), parse_eof_packet_spec]
    rfl
  | cons row rows ih =>
    obtain ⟨turns, rfl⟩ : ∃ n, turns = n + 1 := ⟨turns - 1, by omega⟩
    rw [packets_rows_cons] at hw hcalm ⊢
    rw [length_append] at hcalm
    rw [append_assoc] at hw
    have hrest := ih (number + 1) (lt_of_succ_lt_succ hturns) (fun payload hmem => hfit payload (mem_cons_of_mem _ hmem))
      _ (Wire.after_bytes hw) (calm_after hcalm)
    rw [recvRows_cons compact number hne row.2 hdistinct (hfit _ mem_cons_self) hw (hcalm.le (Nat.le_add_right _ _))]
    rw [hrest, andThen_ok, after_after, length_append]
    rfl

/-- An error packet is taken for one more row: either an error is raised, or more packets are awaited. -/
theorem recvRows_err {p : ErrPacket} (turns : Nat)
    (number : UInt8) (hne : columns ≠ []) (hdistinct : (columns.map Column.name).Nodup)
    (hfit : ∀ payload ∈ rowPayloads rows ++ [p.payload], Fit max_packet_size payload)
    (hw : w.bytes = packets number (rowPayloads rows ++ [p.payload])) (hcut : w.cut = none) :
    recvRows max_packet_size (columns.map Column.col) compact turns w = none ∨
      ∃ w', recvRows max_packet_size (columns.map Column.col) compact turns w = some (.error .raised, w') := by
  have hcalm : ∀ n, w.Calm n := by
    intro n k err h
    rw [hcut] at h
    cases h
  induction rows generalizing turns number w with
  | nil =>
    cases turns with
    | zero => exact .inl rfl
    | succ turns =>
      have hp := hfit p.payload mem_cons_self
      rw [packets_rows_nil, ← append_nil (packetBytes number p.payload)] at hw
      rw [recvRows, recv_packet_spec number (err_ne_nil p) hp.1 hp.2 w [] hw (hcalm _)]
      simp only [andThen_ok, typOf_err, some.injEq, reduceCtorEq, if_false]
      cases parse_row_data_packet p.payload (columns.map Column.col) compact with
      | none => exact .inr ⟨_, rfl⟩
      | some row =>
        -- nothing more comes
        have hbytes := Wire.after_bytes hw
        have hnone : recvRows max_packet_size (columns.map Column.col) compact turns
            (w.after (packetBytes number p.payload).length) = none := by
          cases turns with
          | zero => rfl
          | succ turns =>
            have hreceive : receive 4 (w.after (packetBytes number p.payload).length) = none := by
              rw [receive, hbytes, Wire.after, hcut]
              rfl
            rw [recvRows, recv_packet, hreceive]
            rfl
        simp only [hnone]
        exact .inl rfl
  | cons row rows ih =>
    cases turns with
    | zero => exact .inl rfl
    | succ turns =>
      rw [packets_rows_cons] at hw
      rw [recvRows_cons compact number hne row.2 hdistinct (hfit _ mem_cons_self) hw (hcalm _)]
      have hcut' : (w.after (packetBytes number (row.1.flatMap fieldBytes)).length).cut = none := by rw [Wire.after, hcut]; rfl
      rcases ih turns (number + 1) (fun payload hmem => hfit payload (mem_cons_of_mem _ hmem)) (Wire.after_bytes hw) hcut'
          (by intro n k err h; rw [hcut'] at h; cases h) with hnone | ⟨w', hraised⟩
      · rw [hnone]
        exact .inl rfl
      · rw [hraised]
        exact .inr ⟨w', rfl⟩

/-- The columns and the packet behind them are read, and the rows are next. -/
theorem recvResultSet_eq {between : EofPacket} (number : UInt8) (hsmall : columns.length ≤ 250)
    (hfit : ∀ payload ∈ columns.map Column.payload ++ [between.payload], Fit max_packet_size payload) {rest : Bytes}
    (hw : w.bytes = packets number (columns.map Column.payload ++ [between.payload]) ++ rest)
    (hcalm : w.Calm (packets number (columns.map Column.payload ++ [between.payload])).length) :
    recvResultSet max_packet_size compact (lenenc columns.length) w =
      recvRows max_packet_size (columns.map Column.col) compact (rest.length + 1)
        (w.after (packets number (columns.map Column.payload ++ [between.payload])).length) := by
  have hheader : from_length_coded_bin (lenenc columns.length) 1 = some (.number columns.length, place (lenenc columns.length).length) := by
    obtain ⟨v, hv, hexact⟩ := from_length_coded_bin_spec (k := 0) (n := columns.length)
      (by omega) (append_nil _).symm
    rw [hexact (by omega)] at hv
    rw [Nat.zero_add] at hv
    exact hv
  have hextra : from_length_coded_bin (lenenc columns.length) (place (lenenc columns.length).length) ≠ none := by
    rw [from_length_coded_bin, strbyte_none (drop_length)]
    exact some_ne_none _
  have hp := hfit between.payload (mem_append_right _ mem_cons_self)
  rw [packets_append, packets, packets, append_nil] at hw hcalm ⊢
  rw [append_assoc] at hw
  rw [length_append] at hcalm ⊢
  rw [recvResultSet, hheader]
  simp only [if_neg hextra, Int.toNat_natCast]
  rw [recvCols_spec number (fun c hc => hfit c.payload (mem_append_left _ (mem_map_of_mem hc))) w _ hw
    (hcalm.le (Nat.le_add_right _ _)), andThen_ok,
    recv_packet_spec _ (eof_ne_nil between) hp.1 hp.2 _ rest (Wire.after_bytes hw) (calm_after hcalm), andThen_ok]
  have hbytes := Wire.after_bytes (Wire.after_bytes hw)
  rw [after_after] at hbytes
  simp only [typOf_eof, after_after, hbytes]

/-! ## Responses -/

theorem packets_single (number : UInt8) (payload : Bytes) : packets number [payload] = packetBytes number payload :=
  append_nil _

/-- A response is read by the type of its first packet. -/
theorem read_result_first (number : UInt8) (hne : payload ≠ []) (hfit : Fit max_packet_size payload) {rest : Bytes}
    (hw : w.bytes = packetBytes number payload ++ rest) (hcalm : w.Calm (packetBytes number payload).length) :
    let w' := w.after (packetBytes number payload).length
    (typOf payload = some .ERR → read_result max_packet_size compact .COMMAND_SENT w =
      some (.CONNECTED, .error (parse_err_packet payload), w')) ∧
    (typOf payload = some .OK → read_result max_packet_size compact .COMMAND_SENT w =
      match parse_ok_packet payload with
      | some (res, server_status) => some ((withStatus server_status res).1, (withStatus server_status res).2, w')
      | none => some (.COMMAND_SENT, .error .raised, w')) ∧
    (typOf payload = some .DATA → read_result max_packet_size compact .COMMAND_SENT w =
      (recvResultSet max_packet_size compact payload w').map fun (r, w) =>
        match r with
        | .error stop => (.COMMAND_SENT, .error stop, w)
        | .ok (rows, status_flags) =>
          ((withStatus status_flags (.rows rows)).1, (withStatus status_flags (.rows rows)).2, w)) ∧
    (typOf payload = some .EOF → read_result max_packet_size compact .COMMAND_SENT w =
      some (.CONNECTED, .error (.err "packet type EOF not supported"), w')) ∧
    (typOf payload = none → read_result max_packet_size compact .COMMAND_SENT w = some (.CONNECTED, .error .raised, w')) := by
  have hrecv := recv_packet_spec number hne hfit.1 hfit.2 w rest hw hcalm
  refine ⟨fun htyp => ?_, fun htyp => ?_, fun htyp => ?_, fun htyp => ?_, fun htyp => ?_⟩ <;> rw [htyp] at hrecv <;>
    rw [read_result, if_neg (not_not_intro rfl), hrecv] <;> rfl

theorem right_ok_iff {p : OkPacket} (h : (Response.ok p).Fits max_packet_size) :
    Right max_packet_size (.ok p) ↔ p.info.Readable := by
  have hfit : Fit max_packet_size p.payload := h p.payload mem_cons_self
  have hne : p.payload ≠ [] := by
    rw [OkPacket.payload]
    simp
  have htyp : typOf p.payload = some .OK := by
    simp only [OkPacket.payload, append_assoc, cons_append, typOf_cons]
    rfl
  have hparse := parse_ok_packet_spec p (by have := hfit.2; omega)
  have hbytes : (Response.ok p).bytes = packetBytes 1 p.payload := packets_single 1 p.payload
  constructor
  · intro hright
    by_contra hread
    obtain ⟨o, ⟨affected_rows, insert_id, message, rfl⟩, hresult⟩ :=
      hright false { bytes := (Response.ok p).bytes } [] (append_nil _).symm nofun
    have hraised := (read_result_first false 1 hne hfit (w := { bytes := (Response.ok p).bytes })
      (by rw [hbytes, append_nil]) nofun).2.1 htyp
    rw [hparse.2 hread, hresult] at hraised
    have hanswer := congrArg (fun r => fst (snd r)) (some.inj hraised)
    simp only [withStatus] at hanswer
    split at hanswer <;> cases hanswer
  · intro hread compact w rest hw hcalm
    obtain ⟨affected_rows, insert_id, message, hok⟩ := hparse.1 hread
    refine ⟨_, ⟨affected_rows, insert_id, message, rfl⟩, ?_⟩
    rw [hbytes] at hw hcalm ⊢
    rw [(read_result_first compact 1 hne hfit hw hcalm).2.1 htyp, hok]

theorem right_err {p : ErrPacket} (h : (Response.err p).Fits max_packet_size) : Right max_packet_size (.err p) := by
  have hfit : Fit max_packet_size p.payload := h p.payload mem_cons_self
  intro compact w rest hw hcalm
  refine ⟨_, rfl, ?_⟩
  have hbytes : (Response.err p).bytes = packetBytes 1 p.payload := packets_single 1 p.payload
  rw [hbytes] at hw hcalm ⊢
  rw [(read_result_first compact 1 (err_ne_nil p) hfit hw hcalm).1 (typOf_err p), parse_err_packet_spec]
  rfl

theorem resultSet_bytes (r : ResultSet) :
    (Response.resultSet r).bytes = packetBytes 1 (lenenc r.columns.length) ++
      (packets 2 (r.columns.map Column.payload ++ [r.between.payload]) ++
        packets (2 + ofNat (r.columns.map Column.payload ++ [r.between.payload]).length)
          (rowPayloads r.rows ++ [r.ending.payload])) := by
  rw [← packets_append, Response.bytes, Response.payloads, ResultSet.payloads]
  simp only [append_assoc, rowPayloads]
  rfl

variable {r : ResultSet}

/-- The packets of a result set fit, part by part. -/
theorem resultSet_fits (h : (Response.resultSet r).Fits max_packet_size) :
    Fit max_packet_size (lenenc r.columns.length) ∧
      (∀ payload ∈ r.columns.map Column.payload ++ [r.between.payload], Fit max_packet_size payload) ∧
      (∀ payload ∈ rowPayloads r.rows ++ [r.ending.payload], Fit max_packet_size payload) := by
  have hall : ∀ payload ∈ [lenenc r.columns.length] ++ ((r.columns.map Column.payload ++ [r.between.payload]) ++
      (rowPayloads r.rows ++ [r.ending.payload])), Fit max_packet_size payload := by
    intro payload hmem
    refine h payload ?_
    simp only [Response.payloads, ResultSet.payloads, append_assoc] at hmem ⊢
    exact hmem
  exact ⟨hall _ mem_cons_self, fun payload hmem => hall payload (mem_append_right _ (mem_append_left _ hmem)),
    fun payload hmem => hall payload (mem_append_right _ (mem_append_right _ hmem))⟩

/-- What follows the columns of a result set. -/
theorem read_result_rows (h : (Response.resultSet r).Fits max_packet_size) (hsmall : r.columns.length ≤ 250) {rest : Bytes} (hw : w.bytes = (Response.resultSet r).bytes ++ rest)
    (hcalm : w.Calm (Response.resultSet r).bytes.length) :
    ∃ w' turns number, w'.bytes = packets number (rowPayloads r.rows ++ [r.ending.payload]) ++ rest ∧
      w'.Calm (packets number (rowPayloads r.rows ++ [r.ending.payload])).length ∧ (w.cut = none → w'.cut = none) ∧
      r.rows.length < turns ∧
      w'.after (packets number (rowPayloads r.rows ++ [r.ending.payload])).length = w.after (Response.resultSet r).bytes.length ∧
      read_result max_packet_size compact .COMMAND_SENT w =
        (recvRows max_packet_size (r.columns.map Column.col) compact turns w').map fun (r, w) =>
          match r with
          | .error stop => (.COMMAND_SENT, .error stop, w)
          | .ok (rows, status_flags) =>
            ((withStatus status_flags (.rows rows)).1, (withStatus status_flags (.rows rows)).2, w) := by
  obtain ⟨hheader, hcols, -⟩ := resultSet_fits h
  have hzero : r.columns.length ≠ 0 := fun hlen => r.columns_ne (eq_nil_of_length_eq_zero hlen)
  have htyp : typOf (lenenc r.columns.length) = some .DATA := by
    rw [← append_nil (lenenc r.columns.length), typOf_small hsmall, if_neg hzero]
  rw [resultSet_bytes] at hw hcalm ⊢
  rw [append_assoc, append_assoc] at hw
  rw [length_append, length_append] at hcalm ⊢
  have hfirst := (read_result_first compact 1 (lenenc_ne_nil _) hheader hw (hcalm.le (Nat.le_add_right _ _))).2.2.1 htyp
  have hw₁ := Wire.after_bytes hw
  have hcalm₁ := calm_after hcalm
  rw [recvResultSet_eq compact 2 hsmall hcols hw₁ (hcalm₁.le (Nat.le_add_right _ _)), after_after] at hfirst
  have hw₂ := Wire.after_bytes hw₁
  have hcalm₂ := calm_after hcalm₁
  rw [after_after] at hw₂ hcalm₂
  refine ⟨_, _, _, hw₂, hcalm₂, fun hcut => by rw [Wire.after, hcut]; rfl, ?_, ?_, hfirst⟩
  · have := length_packets (2 + ofNat (r.columns.map Column.payload ++ [r.between.payload]).length)
      (rowPayloads r.rows ++ [r.ending.payload])
    simp only [rowPayloads, length_append, length_map] at this ⊢
    omega
  · rw [after_after, Nat.add_assoc]

theorem right_resultSet_iff (h : (Response.resultSet r).Fits max_packet_size) :
    Right max_packet_size (.resultSet r) ↔ r.columns.length ≤ 250 ∧ ∃ p, r.ending = .eof p := by
  obtain ⟨hheader, -, hrows⟩ := resultSet_fits h
  constructor
  · intro hright
    obtain ⟨o, hcorrect, hresult⟩ := hright false { bytes := (Response.resultSet r).bytes } [] (append_nil _).symm nofun
    have hsmall : r.columns.length ≤ 250 := by
      by_contra hlarge
      have htyp := typOf_large (Nat.lt_of_not_le hlarge) []
      rw [append_nil] at htyp
      have hfirst := read_result_first false 1 (lenenc_ne_nil _) hheader (w := { bytes := (Response.resultSet r).bytes })
        (resultSet_bytes r) nofun
      have hstop : ∃ stop, (∀ msg errno sqlstate, stop ≠ .server msg errno sqlstate) ∧ o.2 = .error stop := by
        split at htyp
        · have hraised := hfirst.2.2.2.2 htyp
          rw [hresult] at hraised
          exact ⟨.raised, nofun, congrArg (fun r => fst (snd r)) (some.inj hraised)⟩
        · have herr := hfirst.2.2.2.1 htyp
          rw [hresult] at herr
          exact ⟨.err _, nofun, congrArg (fun r => fst (snd r)) (some.inj herr)⟩
      obtain ⟨stop, hstop, ho⟩ := hstop
      rw [Correct] at hcorrect
      split at hcorrect
      · rw [hcorrect, withStatus] at ho
        split at ho <;> cases ho
      · rw [hcorrect] at ho
        cases ho
        exact hstop _ _ _ rfl
    refine ⟨hsmall, ?_⟩
    cases hending : r.ending with
    | eof p => exact ⟨p, rfl⟩
    | err p =>
      obtain ⟨w', turns, number, hw', -, hcut, -, -, hread⟩ := read_result_rows false h hsmall
        (w := { bytes := (Response.resultSet r).bytes }) (append_nil _).symm nofun
      rw [hending] at hw' hrows
      rw [append_nil] at hw'
      rw [hread] at hresult
      rcases recvRows_err false turns number r.columns_ne r.distinct hrows hw' (hcut rfl) with hnone | ⟨w'', hraised⟩
      · rw [hnone] at hresult
        cases hresult
      · rw [hraised] at hresult
        have hanswer := congrArg (fun r => fst (snd r)) (some.inj hresult)
        rw [Correct, hending] at hcorrect
        rw [hcorrect] at hanswer
        cases hanswer
  · rintro ⟨hsmall, p, hending⟩ compact w rest hw hcalm
    obtain ⟨w', turns, number, hw', hcalm', -, hturns, hafter, hread⟩ := read_result_rows compact h hsmall hw hcalm
    rw [hending] at hw' hcalm' hafter hrows
    refine ⟨withStatus p.status.toNat (.rows (r.rows.map fun row => rowOf compact r.columns row.1)), by rw [Correct, hending], ?_⟩
    rw [hread, recvRows_eof compact number r.columns_ne r.distinct hturns hrows w' rest hw' hcalm', ← hafter]
    rfl

/-- **`read_result` reads a response whose packets fit if and only if it has at most 250 columns and no
error behind its rows, and the text of an OK packet does not look like a longer integer.** -/
theorem read_result_right_iff (max_packet_size : Nat) (r : Response) (h : r.Fits max_packet_size) :
    Right max_packet_size r ↔ r.Readable := by
  cases r with
  | ok p => exact right_ok_iff h
  | err p => exact iff_of_true (right_err h) trivial
  | resultSet r => exact right_resultSet_iff h

/-- `SELECT 'x' AS a`, with a packet behind the row. -/
def oneRow (ending : Ending) : ResultSet where
  columns := [{
    db := [], table := [], orig_table := [], name := [97], orig_name := [], charset := 33, length := 3, typ := ⟨0xfd, by decide⟩,
    flags := 1, decimals := 0 }]
  columns_ne := cons_ne_nil _ _
  distinct := by decide
  between := { warnings := 0, status := 2 }
  rows := [⟨[some [120]], rfl⟩]
  ending

theorem oneRow_right : Right 1048576 (.resultSet (oneRow (.eof { warnings := 0, status := 2 }))) :=
  (read_result_right_iff 1048576 (.resultSet (oneRow (.eof { warnings := 0, status := 2 }))) (by decide)).mpr
    ⟨by decide, _, rfl⟩

/-- The server is shut down while the rows are sent. -/
def shutdown : ErrPacket where
  errno := 1053
  sqlstate := ⟨[48, 56, 83, 48, 49], rfl⟩
  message := [83, 104, 117, 116, 100, 111, 119, 110]

/-- The error behind the rows is taken for a row, and more packets are awaited. -/
theorem error_behind_rows_lost : ¬ ∀ max_packet_size (r : Response), r.Fits max_packet_size → Right max_packet_size r := by
  intro hright
  obtain ⟨o, -, hresult⟩ := hright 1048576 (.resultSet (oneRow (.err shutdown))) (by decide) false
    { bytes := (Response.resultSet (oneRow (.err shutdown))).bytes } [] (append_nil _).symm nofun
  have hwaits : read_result 1048576 false .COMMAND_SENT
      { bytes := (Response.resultSet (oneRow (.err shutdown))).bytes } = none := by rfl
  rw [hwaits] at hresult
  cases hresult

end OpenResty.Resty.Mysql
