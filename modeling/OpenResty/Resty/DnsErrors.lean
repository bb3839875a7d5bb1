/-
When `parse_response` ends with answers or with `nil` and a message: what it reads of each record
that it comes to is there.
-/
import OpenResty.Resty.DnsResolver

namespace OpenResty.Resty.DnsResolver

open Lib Option List

variable {buf : Bytes} {p pos len last : Nat} {α β : Type}

/-! ## The law -/

/-- A result, or `nil` and a message. -/
def Settled (r : Read α) : Prop := ∀ e, r = .error e → ∃ m, e = .nil (.message m)

/-! ## The condition -/

/-- The bytes that say how long a text is are there. -/
def LengthsFit (buf : Bytes) (last pos : Nat) : Prop :=
  if pos < last then
    match byte buf pos with
    | none => False
    | some slen => LengthsFit buf last (min (pos + slen + 1) last)
  else True
termination_by last - pos

/-- What is read as the data of a record is there. -/
def DataFits (buf : Bytes) (typ len pos : Nat) : Prop :=
  if typ = TYPE_A then True
  else if typ = TYPE_CNAME ∨ typ = TYPE_NS ∨ typ = TYPE_PTR then (decode_name buf pos).isSome = true
  else if typ = TYPE_AAAA then len = 16 → pos + 14 < buf.length
  else if typ = TYPE_MX then 3 ≤ len → pos < buf.length ∧ (decode_name buf (pos + 2)).isSome = true
  else if typ = TYPE_SRV then 7 ≤ len → pos + 4 < buf.length ∧ (decode_name buf (pos + 6)).isSome = true
  else if typ = TYPE_TXT ∨ typ = TYPE_SPF then
    ∃ slen, byte buf pos = some slen ∧ LengthsFit buf (pos + len) (pos + min slen len + 1)
  else if typ = TYPE_SOA then
    ∃ mname p, decode_name buf pos = some (mname, p) ∧
      ∃ rname q, decode_name buf p = some (rname, q) ∧ q + 18 < buf.length
  else True

/-- A record without a name that can be read, or with ten bytes behind it and its data. -/
def RecordFits (buf : Bytes) (pos : Nat) : Prop :=
  ∀ name p, decode_name buf pos = some (name, p) →
    p + 8 < buf.length ∧
      ∀ typ len, u16 buf p = .ok typ → u16 buf (p + 8) = .ok len → DataFits buf typ len (p + 10)

/-- So it is for each record that is come to. -/
def SectionFits (s : Nat) (buf : Bytes) : Nat → Nat → Prop
  | 0, _ => True
  | size + 1, pos => RecordFits buf pos ∧ ∀ ans p, parseRecord s buf pos = .ok (ans, p) → SectionFits s buf size p

/-- So it is in each section that is read. -/
def ResponseFits (buf : Bytes) (id : Nat) (opts : Opts) : Prop :=
  ∀ header, parseHeader buf id = .ok header →
    SectionFits SECTION_AN buf header.nan header.pos ∧
      ∀ an pos, parse_section SECTION_AN buf header.pos header.nan = .ok (an, pos) →
        (opts.authority = true ∨ opts.additional_section = true) →
        SectionFits SECTION_NS buf header.nns pos ∧
          ∀ ns pos', parse_section SECTION_NS buf pos header.nns = .ok (ns, pos') →
            opts.additional_section = true → SectionFits SECTION_AR buf header.nar pos'

/-! ## Reads -/

theorem settled_ok (a : α) : Settled (.ok a : Read α) := fun _ h => by cases h

theorem settled_message (m : String) : Settled (.error (.nil (.message m)) : Read α) := by
  intro e h
  cases h
  exact ⟨m, rfl⟩

theorem not_settled_raise : ¬ Settled (.error .raise : Read α) := by
  intro h
  obtain ⟨m, hm⟩ := h _ rfl
  cases hm

theorem not_settled_pos : ¬ Settled (.error (.nil (.pos p)) : Read α) := by
  intro h
  obtain ⟨m, hm⟩ := h _ rfl
  cases hm

theorem settled_bind {x : Read α} {f : α → Read β} :
    Settled (x >>= f) ↔ Settled x ∧ ∀ a, x = .ok a → Settled (f a) := by
  cases x with
  | ok a =>
    constructor
    · intro h
      refine ⟨settled_ok a, fun a' ha' => ?_⟩
      cases ha'
      exact h
    · exact fun h => h.2 a rfl
  | error e =>
    have hsame : Settled (Except.error e >>= f) ↔ Settled (.error e : Read α) := by
      constructor
      · intro h e' he'
        cases he'
        exact h e rfl
      · intro h e' he'
        cases he'
        exact h e rfl
    rw [hsame]
    exact ⟨fun h => ⟨h, fun a ha => by cases ha⟩, fun h => h.1⟩

theorem byte_isSome : (byte buf p).isSome ↔ p - 1 < buf.length := by
  unfold byte
  rw [isSome_map]
  simp

theorem settled_needed : Settled (needed buf p) ↔ p - 1 < buf.length := by
  rw [← byte_isSome]
  unfold needed
  cases byte buf p with
  | none => exact iff_of_false not_settled_raise (by simp)
  | some b => exact iff_of_true (settled_ok b) rfl

theorem needed_ok (h : p - 1 < buf.length) : ∃ b, needed buf p = .ok b := by
  obtain ⟨b, hb⟩ := isSome_iff_exists.mp (byte_isSome.mpr h)
  exact ⟨b, by rw [needed, hb]⟩

theorem u16_ok (h : p < buf.length) : ∃ n, u16 buf p = .ok n := by
  obtain ⟨hi, hhi⟩ := @needed_ok buf p (by omega)
  obtain ⟨lo, hlo⟩ := @needed_ok buf (p + 1) (by omega)
  exact ⟨_, by rw [u16, hhi]; exact (by rw [hlo]; rfl)⟩

/-- A read that ends well when it is settled, and what follows it. -/
theorem settled_then {x : Read α} {f : α → Read β} {P Q : Prop} (hx : Settled x ↔ P) (hok : P → ∃ a, x = .ok a)
    (hf : ∀ a, x = .ok a → (Settled (f a) ↔ Q)) : Settled (x >>= f) ↔ P ∧ Q := by
  rw [settled_bind, hx]
  refine and_congr_right fun hp => ?_
  obtain ⟨a, ha⟩ := hok hp
  constructor
  · exact fun h => (hf a ha).mp (h a ha)
  · exact fun hq a' ha' => (hf a' ha').mpr hq

theorem settled_u16 : Settled (u16 buf p) ↔ p < buf.length := by
  unfold u16
  refine (settled_then settled_needed needed_ok fun _ _ => settled_then settled_needed needed_ok fun _ _ =>
    iff_true_intro (settled_ok _)).trans ?_
  rw [and_true]
  omega

theorem settled_u32 : Settled (u32 buf p) ↔ p + 2 < buf.length := by
  unfold u32
  refine (settled_then settled_needed needed_ok fun _ _ => settled_then settled_needed needed_ok fun _ _ =>
    settled_then settled_needed needed_ok fun _ _ => settled_then settled_needed needed_ok fun _ _ =>
      iff_true_intro (settled_ok _)).trans ?_
  rw [and_true]
  omega

theorem u32_ok (h : p + 2 < buf.length) : ∃ n, u32 buf p = .ok n := by
  obtain ⟨b₁, h₁⟩ := @needed_ok buf p (by omega)
  obtain ⟨b₂, h₂⟩ := @needed_ok buf (p + 1) (by omega)
  obtain ⟨b₃, h₃⟩ := @needed_ok buf (p + 2) (by omega)
  obtain ⟨b₄, h₄⟩ := @needed_ok buf (p + 3) (by omega)
  unfold u32
  rw [h₁, h₂, h₃, h₄]
  exact ⟨_, rfl⟩

theorem settled_named (m : String) : Settled (named buf pos (.message m)) := by
  unfold named
  cases decode_name buf pos with
  | none => exact settled_message m
  | some r => exact settled_ok r

theorem settled_named_pos {q : Nat} : Settled (named buf pos (.pos q)) ↔ (decode_name buf pos).isSome = true := by
  unfold named
  cases decode_name buf pos with
  | none => exact iff_of_false not_settled_pos (by simp)
  | some r => exact iff_of_true (settled_ok r) rfl

theorem named_eq_ok {err : Err} {r : Bytes × Nat} : named buf pos err = .ok r ↔ decode_name buf pos = some r := by
  unfold named
  cases decode_name buf pos with
  | none => simp
  | some r' => simp

/-! ## Data -/

theorem settled_lastName {what : String} {start : Nat} :
    Settled (lastName what buf len pos start) ↔ (decode_name buf start).isSome = true := by
  unfold lastName
  rw [settled_bind, settled_named_pos, and_iff_left]
  intro r _
  dsimp only
  split
  · exact settled_message _
  · exact settled_ok _

theorem settled_textLoop : Settled (textLoop buf last pos) ↔ LengthsFit buf last pos := by
  fun_induction LengthsFit buf last pos with
  | case1 pos hlt hbyte =>
    rw [textLoop, if_pos hlt, needed, hbyte]
    exact iff_of_false not_settled_raise id
  | case2 pos hlt slen hbyte ih =>
    have hnext : pos + (if pos + slen + 1 > last then last - pos - 1 else slen) + 1 = min (pos + slen + 1) last := by
      split <;> omega
    have hneeded : needed buf pos = .ok slen := by rw [needed, hbyte]
    rw [textLoop, if_pos hlt, hneeded, ← ih, ← hnext]
    change Settled (textLoop buf last _ >>= _) ↔ _
    rw [settled_bind]
    exact and_iff_left fun r _ => settled_ok _
  | case3 pos hnot =>
    rw [textLoop, if_neg hnot]
    exact iff_of_true (settled_ok _) trivial

theorem settled_texts : Settled (texts buf len pos) ↔
    ∃ slen, byte buf pos = some slen ∧ LengthsFit buf (pos + len) (pos + min slen len + 1) := by
  unfold texts needed
  cases hbyte : byte buf pos with
  | none => exact iff_of_false not_settled_raise (by simp)
  | some slen =>
    have hmin : (if slen + 1 > len then len else slen) = min slen len := by
      split <;> omega
    change Settled (textLoop buf (pos + len) (pos + (if slen + 1 > len then len else slen) + 1) >>= _) ↔ _
    rw [settled_bind, settled_textLoop, hmin]
    refine (and_iff_left fun r _ => settled_ok _).trans ?_
    simp

/-- A record whose data are a name. -/
theorem settled_nameData {what : String} {f : Bytes × Nat → Read β} (hf : ∀ r, Settled (f r)) :
    Settled (lastName what buf len pos pos >>= f) ↔ (decode_name buf pos).isSome = true := by
  rw [settled_bind, settled_lastName]
  exact and_iff_left fun r _ => hf r

theorem settled_mx : Settled (parseData buf TYPE_MX len pos) ↔ DataFits buf TYPE_MX len pos := by
  change Settled (if len < 3 then _ else _) ↔ (3 ≤ len → _)
  split
  · next hlt => exact iff_of_true (settled_message _) fun hle => absurd hle (Nat.not_le.mpr hlt)
  · next hnot =>
    rw [forall_prop_of_true (Nat.not_lt.mp hnot)]
    refine settled_then settled_u16 u16_ok fun _ _ => ?_
    rw [settled_bind, settled_lastName]
    exact and_iff_left fun r _ => settled_ok _

theorem settled_srv : Settled (parseData buf TYPE_SRV len pos) ↔ DataFits buf TYPE_SRV len pos := by
  change Settled (if len < 7 then _ else _) ↔ (7 ≤ len → _)
  split
  · next hlt => exact iff_of_true (settled_message _) fun hle => absurd hle (Nat.not_le.mpr hlt)
  · next hnot =>
    rw [forall_prop_of_true (Nat.not_lt.mp hnot)]
    have hname : ∀ f : Bytes × Nat → Read (Data × Nat), (∀ r, Settled (f r)) →
        (Settled (lastName "srv" buf len pos (pos + 6) >>= f) ↔ (decode_name buf (pos + 6)).isSome = true) :=
      fun f hf => by rw [settled_bind, settled_lastName]; exact and_iff_left fun r _ => hf r
    refine (settled_then settled_u16 u16_ok fun _ _ => settled_then settled_u16 u16_ok fun _ _ =>
      settled_then settled_u16 u16_ok fun _ _ => hname _ fun r => settled_ok _).trans ?_
    constructor
    · exact fun h => h.2.2
    · exact fun h => ⟨by omega, by omega, h⟩

theorem settled_soa : Settled (parseData buf TYPE_SOA len pos) ↔ DataFits buf TYPE_SOA len pos := by
  have hints : ∀ (q : Nat) (f : Int → Int → Int → Int → Int → Data × Nat),
      Settled (do
          let serial ← u32 buf q
          let refresh ← u32 buf (q + 4)
          let retry ← u32 buf (q + 8)
          let expire ← u32 buf (q + 12)
          let mininum ← u32 buf (q + 16)
          return f serial refresh retry expire mininum) ↔ q + 18 < buf.length := by
    intro q f
    refine (settled_then settled_u32 u32_ok fun _ _ => settled_then settled_u32 u32_ok fun _ _ =>
      settled_then settled_u32 u32_ok fun _ _ => settled_then settled_u32 u32_ok fun _ _ =>
        settled_then settled_u32 u32_ok fun _ _ => iff_true_intro (settled_ok _)).trans ?_
    rw [and_true]
    omega
  change Settled (named buf pos (.pos pos) >>= _) ↔ ∃ mname p, _
  rw [settled_bind, settled_named_pos]
  constructor
  · rintro ⟨hmname, hrest⟩
    obtain ⟨⟨mname, p⟩, hmname⟩ := isSome_iff_exists.mp hmname
    obtain ⟨hrname, hrest⟩ := settled_bind.mp (hrest _ (named_eq_ok.mpr hmname))
    obtain ⟨⟨rname, q⟩, hrname⟩ := isSome_iff_exists.mp (settled_named_pos.mp hrname)
    exact ⟨mname, p, hmname, rname, q, hrname, (hints q _).mp (hrest _ (named_eq_ok.mpr hrname))⟩
  · rintro ⟨mname, p, hmname, rname, q, hrname, hlt⟩
    refine ⟨by rw [hmname]; rfl, fun r hr => ?_⟩
    cases hmname.symm.trans (named_eq_ok.mp hr)
    refine settled_bind.mpr ⟨settled_named_pos.mpr (by rw [hrname]; rfl), fun r hr => ?_⟩
    cases hrname.symm.trans (named_eq_ok.mp hr)
    exact (hints q _).mpr hlt

theorem settled_data (hpos : 0 < pos) (typ : Nat) :
    Settled (parseData buf typ len pos) ↔ DataFits buf typ len pos := by
  by_cases hA : typ = TYPE_A
  · rw [hA]
    change Settled (if len ≠ 4 then _ else _) ↔ True
    split
    · exact iff_of_true (settled_message _) trivial
    · exact iff_of_true (settled_ok _) trivial
  by_cases hCNAME : typ = TYPE_CNAME
  · rw [hCNAME]
    exact settled_nameData fun r => settled_ok _
  by_cases hAAAA : typ = TYPE_AAAA
  · rw [hAAAA]
    change Settled (if len ≠ 16 then _ else _) ↔ (len = 16 → _)
    split
    · next hlen => exact iff_of_true (settled_message _) fun h => absurd h hlen
    · next hlen =>
      have hbytes : (bytesFrom buf pos (pos + 15)).length < 16 ↔ ¬ pos + 14 < buf.length := by
        unfold bytesFrom sub
        rw [length_map, length_take, length_drop]
        omega
      rw [forall_prop_of_true (not_not.mp hlen)]
      split
      · next hshort => exact iff_of_false not_settled_raise (hbytes.mp hshort)
      · next hall => exact iff_of_true (settled_ok _) (not_not.mp fun h => hall (hbytes.mpr h))
  by_cases hMX : typ = TYPE_MX
  · rw [hMX]
    exact settled_mx
  by_cases hSRV : typ = TYPE_SRV
  · rw [hSRV]
    exact settled_srv
  by_cases hNS : typ = TYPE_NS
  · rw [hNS]
    exact settled_nameData fun r => settled_ok _
  by_cases hTXT : typ = TYPE_TXT ∨ typ = TYPE_SPF
  · have hsame : Settled (parseData buf typ len pos) ↔ Settled (texts buf len pos) := by
      rw [parseData, if_neg hA, if_neg hCNAME, if_neg hAAAA, if_neg hMX, if_neg hSRV, if_neg hNS, if_pos hTXT,
        settled_bind]
      exact and_iff_left fun r _ => settled_ok _
    have hnames : ¬ (typ = TYPE_CNAME ∨ typ = TYPE_NS ∨ typ = TYPE_PTR) := by
      rcases hTXT with rfl | rfl <;> decide
    rw [hsame, settled_texts, DataFits, if_neg hA, if_neg hnames, if_neg hAAAA, if_neg hMX, if_neg hSRV, if_pos hTXT]
  by_cases hPTR : typ = TYPE_PTR
  · rw [hPTR]
    exact settled_nameData fun r => settled_ok _
  by_cases hSOA : typ = TYPE_SOA
  · rw [hSOA]
    exact settled_soa
  · have hnames : ¬ (typ = TYPE_CNAME ∨ typ = TYPE_NS ∨ typ = TYPE_PTR) := by
      rintro (h | h | h)
      · exact hCNAME h
      · exact hNS h
      · exact hPTR h
    rw [parseData, if_neg hA, if_neg hCNAME, if_neg hAAAA, if_neg hMX, if_neg hSRV, if_neg hNS, if_neg hTXT,
      if_neg hPTR, if_neg hSOA, DataFits, if_neg hA, if_neg hnames, if_neg hAAAA, if_neg hMX, if_neg hSRV,
      if_neg hTXT, if_neg hSOA]
    exact iff_of_true (settled_ok _) trivial

/-! ## Records and sections -/

/-- **A record is settled if what is read of it is there.** -/
theorem settled_record (s : Nat) (buf : Bytes) (pos : Nat) :
    Settled (parseRecord s buf pos) ↔ RecordFits buf pos := by
  unfold parseRecord RecordFits
  rw [settled_bind, and_iff_right (settled_named _)]
  constructor
  · intro h name p hname
    obtain ⟨htype, h⟩ := settled_bind.mp (h (name, p) (named_eq_ok.mpr hname))
    obtain ⟨typ, htyp⟩ := u16_ok (settled_u16.mp htype)
    obtain ⟨hclass, h⟩ := settled_bind.mp (h typ htyp)
    obtain ⟨_, hcls⟩ := u16_ok (settled_u16.mp hclass)
    obtain ⟨httl, h⟩ := settled_bind.mp (h _ hcls)
    obtain ⟨_, httl⟩ := u32_ok (settled_u32.mp httl)
    obtain ⟨hlen, h⟩ := settled_bind.mp (h _ httl)
    have hlt := settled_u16.mp hlen
    refine ⟨hlt, fun typ' len htyp' hlen => ?_⟩
    obtain ⟨hdata, -⟩ := settled_bind.mp (h len hlen)
    cases htyp.symm.trans htyp'
    exact (settled_data (Nat.succ_pos _) typ).mp hdata
  · rintro h ⟨name, p⟩ hname
    obtain ⟨hlt, hdata⟩ := h name p (named_eq_ok.mp hname)
    refine settled_bind.mpr ⟨settled_u16.mpr (by omega), fun typ htyp => ?_⟩
    refine settled_bind.mpr ⟨settled_u16.mpr (by omega), fun _ _ => ?_⟩
    refine settled_bind.mpr ⟨settled_u32.mpr (by omega), fun _ _ => ?_⟩
    refine settled_bind.mpr ⟨settled_u16.mpr hlt, fun len hlen => ?_⟩
    exact settled_bind.mpr ⟨(settled_data (Nat.succ_pos _) typ).mpr (hdata typ len htyp hlen), fun r _ =>
      settled_ok _⟩

theorem settled_section (s : Nat) (buf : Bytes) (size pos : Nat) :
    Settled (parse_section s buf pos size) ↔ SectionFits s buf size pos := by
  induction size generalizing pos with
  | zero => exact iff_of_true (settled_ok _) trivial
  | succ size ih =>
    rw [parse_section, settled_bind, settled_record, SectionFits]
    refine and_congr_right fun _ => ?_
    constructor
    · exact fun h ans p hans => (ih p).mp (settled_bind.mp (h (ans, p) hans)).1
    · rintro h ⟨ans, p⟩ hans
      exact settled_bind.mpr ⟨(ih p).mpr (h ans p hans), fun r _ => settled_ok _⟩

theorem settled_refuse (c : Prop) [Decidable c] (m : String) : Settled (refuse c m) := by
  unfold refuse
  split
  · exact settled_message m
  · exact settled_ok ()

theorem refuse_eq_ok {c : Prop} [Decidable c] {m : String} {u : Unit} : refuse c m = .ok u ↔ ¬ c := by
  unfold refuse
  split <;> simp [*]

/-- Up to the question all is checked. -/
theorem settled_header (buf : Bytes) (id : Nat) : Settled (parseHeader buf id) := by
  unfold parseHeader
  refine settled_bind.mpr ⟨settled_refuse _ _, fun _ hlong => ?_⟩
  have hlong := refuse_eq_ok.mp hlong
  refine settled_bind.mpr ⟨settled_u16.mpr (by omega), fun _ _ => ?_⟩
  refine settled_bind.mpr ⟨settled_refuse _ _, fun _ _ => ?_⟩
  refine settled_bind.mpr ⟨settled_u16.mpr (by omega), fun _ _ => ?_⟩
  refine settled_bind.mpr ⟨settled_refuse _ _, fun _ _ => ?_⟩
  refine settled_bind.mpr ⟨settled_refuse _ _, fun _ _ => ?_⟩
  refine settled_bind.mpr ⟨settled_u16.mpr (by omega), fun _ _ => ?_⟩
  refine settled_bind.mpr ⟨settled_refuse _ _, fun _ _ => ?_⟩
  refine settled_bind.mpr ⟨settled_u16.mpr (by omega), fun _ _ => ?_⟩
  refine settled_bind.mpr ⟨settled_u16.mpr (by omega), fun _ _ => ?_⟩
  refine settled_bind.mpr ⟨settled_u16.mpr (by omega), fun _ _ => ?_⟩
  refine settled_bind.mpr ⟨settled_named _, fun r _ => ?_⟩
  refine settled_bind.mpr ⟨settled_refuse _ _, fun _ hroom => ?_⟩
  have hroom := refuse_eq_ok.mp hroom
  refine settled_bind.mpr ⟨settled_u16.mpr (by omega), fun _ _ => ?_⟩
  exact settled_bind.mpr ⟨settled_refuse _ _, fun _ _ => settled_ok _⟩

/-- **A response gives answers, or `nil` and a message, exactly if what is read of each record that is
come to is there.** -/
theorem response_settled_iff (buf : Bytes) (id : Nat) (opts : Opts) :
    Settled (parse_response buf id opts) ↔ ResponseFits buf id opts := by
  unfold parse_response ResponseFits
  rw [settled_bind, and_iff_right (settled_header buf id)]
  refine forall₂_congr fun header _ => ?_
  rw [settled_bind, settled_section]
  refine and_congr_right fun _ => ?_
  have hread : (!opts.authority && !opts.additional_section) = true ↔
      ¬ (opts.authority = true ∨ opts.additional_section = true) := by
    rw [Bool.and_eq_true, Bool.not_eq_true', Bool.not_eq_true', not_or, Bool.not_eq_true, Bool.not_eq_true]
  constructor
  · intro h an pos han hwanted
    have h := h (an, pos) han
    dsimp only at h
    rw [if_neg fun hnot => hread.mp hnot hwanted] at h
    obtain ⟨hns, h⟩ := settled_bind.mp h
    refine ⟨(settled_section _ _ _ _).mp hns, fun ns pos' hns hadd => ?_⟩
    have h := h (ns, pos') hns
    dsimp only at h
    rw [hadd, if_neg (by decide)] at h
    exact (settled_section _ _ _ _).mp (settled_bind.mp h).1
  · rintro h ⟨an, pos⟩ han
    dsimp only
    split
    · exact settled_ok _
    · next hnot =>
      obtain ⟨hns, h⟩ := h an pos han (not_not.mp fun hwanted => hnot (hread.mpr hwanted))
      refine settled_bind.mpr ⟨(settled_section _ _ _ _).mpr hns, ?_⟩
      rintro ⟨ns, pos'⟩ hns
      dsimp only
      split
      · exact settled_ok _
      · next hadd =>
        have har := h ns pos' hns (by simpa using hadd)
        exact settled_bind.mpr ⟨(settled_section _ _ _ _).mpr har, fun r _ => settled_ok _⟩

/-- The name of the first record ends where the response does. -/
def cutResponse : Bytes :=
  [0, 1, 0x80, 0, 0, 1, 0, 1, 0, 0, 0, 0] ++ [0, 0, 1, 0, 1] ++ [10, 97, 97, 97, 97, 97, 97, 97, 97, 97, 97, 0]

theorem cut_names : decode_name cutResponse 13 = some ([], 14) ∧
    decode_name cutResponse 18 = some (replicate 10 97, 30) := by
  have hroot : byte cutResponse 13 = some 0 := by decide
  have hlabel : byte cutResponse 18 = some 10 := by decide
  have hend : byte cutResponse 29 = some 0 := by decide
  constructor
  · rw [decode_name, decodeLoop, if_pos (by decide)]
    split
    · next h => rw [hroot] at h; cases h
    · next h => rw [hroot] at h; cases h; rfl
  · rw [decode_name, decodeLoop, if_pos (by decide)]
    split
    · next h => rw [hlabel] at h; cases h
    · next h =>
      rw [hlabel] at h
      cases h
      rw [if_neg (by decide), if_neg (by decide), decodeLoop, if_pos (by decide)]
      split
      · next h => rw [hend] at h; cases h
      · next h => rw [hend] at h; cases h; decide

/-- `lshift` is called without a number. -/
theorem response_not_settled : ¬ ∀ (buf : Bytes) (id : Nat) (opts : Opts), Settled (parse_response buf id opts) := by
  intro h
  have hheader : parseHeader cutResponse 1 = .ok { code := 0, nan := 1, nns := 0, nar := 0, pos := 18 } := by
    have hreads : u16 cutResponse 1 = .ok 1 ∧ u16 cutResponse 3 = .ok 0x8000 ∧ u16 cutResponse 5 = .ok 1 ∧
        u16 cutResponse 7 = .ok 1 ∧ u16 cutResponse 9 = .ok 0 ∧ u16 cutResponse 11 = .ok 0 ∧
        u16 cutResponse 16 = .ok 1 := ⟨rfl, rfl, rfl, rfl, rfl, rfl, rfl⟩
    obtain ⟨h₁, h₃, h₅, h₇, h₉, h₁₁, h₁₆⟩ := hreads
    have hlength : cutResponse.length = 29 := rfl
    simp [parseHeader, named, refuse, cut_names.1, h₁, h₃, h₅, h₇, h₉, h₁₁, h₁₆, hlength, bind, Except.bind,
      pure, Except.pure]
  have hsettled := h cutResponse 1 { qtype := none, authority_section := false, additional_section := false }
  have hsection := (settled_bind.mp ((settled_bind.mp hsettled).2 _ hheader)).1
  have hrecord := ((settled_section _ _ _ _).mp hsection).1
  have hlt := (hrecord _ _ cut_names.2).1
  exact absurd hlt (by decide)

end OpenResty.Resty.DnsResolver
