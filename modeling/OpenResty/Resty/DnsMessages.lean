/-
DNS responses as they are encoded, and what `parse_response` makes of them.
-/
import OpenResty.Resty.DnsErrors

namespace OpenResty.Resty.DnsResolver

open Lib List Nat

/-! ## Names -/

/-- What a name is made of. -/
inductive Item
  | label (s : Bytes)
  | pointer

/-- The name at a position: labels and pointers, up to a zero. -/
inductive NameAt (buf : Bytes) : Nat → List Item → Prop
  | root {p : Nat} (h : byte buf p = some 0) : NameAt buf p []
  | label {p n : Nat} {items : List Item} (h : byte buf p = some n) (hpos : 0 < n) (hsmall : n < 64)
      (hin : p + n ≤ buf.length) (rest : NameAt buf (p + n + 1) items) :
      NameAt buf p (.label (sub buf (p + 1) (p + n)) :: items)
  | pointer {p hi lo : Nat} {items : List Item} (hhi : byte buf p = some hi) (hbits : 192 ≤ hi)
      (hlo : byte buf (p + 1) = some lo) (rest : NameAt buf ((hi - 192) * 2 ^ 8 + lo + 1) items) :
      NameAt buf p (.pointer :: items)

variable {buf : Bytes} {p pos len n : Nat} {items : List Item}

def labels : List Item → List Bytes
  | [] => []
  | .label s :: items => s :: labels items
  | .pointer :: items => labels items

/-- The labels before the `n`-th pointer. -/
def labelsWithin : Nat → List Item → List Bytes
  | 0, _ => []
  | _ + 1, [] => []
  | n + 1, .label s :: items => s :: labelsWithin (n + 1) items
  | n + 1, .pointer :: items => labelsWithin n items

/-- How many bytes a name takes where it stands. -/
def nameSize : List Item → Nat
  | [] => 1
  | .label s :: items => s.length + 1 + nameSize items
  | .pointer :: _ => 2

theorem nameSize_pos (items : List Item) : 0 < nameSize items := by
  unfold nameSize
  split <;> omega

/-- No label is behind the 128th pointer. -/
def Near (items : List Item) : Prop := labelsWithin 128 items = labels items

theorem byte_lt {b : Nat} (h : byte buf p = some b) : b < 256 := by
  obtain ⟨c, -, rfl⟩ := Option.map_eq_some_iff.mp h
  exact c.toNat_lt

theorem length_sub (h : p + n ≤ buf.length) : (sub buf (p + 1) (p + n)).length = n := by
  unfold sub
  rw [length_take, length_drop]
  omega

theorem pointer_bits : ∀ hi < 256, (192 ≤ hi → hi &&& 0xc0 ≠ 0 ∧ hi &&& 0x3f = hi - 192) ∧
    (hi < 64 → hi &&& 0xc0 = 0) := by
  decide +kernel

/-- What is decoded of a name. -/
theorem decodeLoop_name (h : NameAt buf p items) (nptrs : Nat) (hpos : nptrs = 0 → pos = p) (ls : List Bytes) :
    decodeLoop buf nptrs p pos ls =
      some (concat (ls ++ labelsWithin (128 - nptrs) items), if nptrs = 0 then p + nameSize items else pos) := by
  have hdone : ∀ {p pos : Nat} {items : List Item} {ls : List Bytes} {nptrs : Nat}, ¬ nptrs < 128 →
      decodeLoop buf nptrs p pos ls =
        some (concat (ls ++ labelsWithin (128 - nptrs) items), if nptrs = 0 then p + nameSize items else pos) := by
    intro p pos items ls nptrs hnot
    have hzero : 128 - nptrs = 0 := by omega
    rw [decodeLoop, if_neg hnot, if_neg (by omega), hzero, labelsWithin, append_nil]
  induction h generalizing nptrs pos ls with
  | @root p hbyte =>
    by_cases hlt : nptrs < 128
    · obtain ⟨k, hk⟩ : ∃ k, 128 - nptrs = k + 1 := ⟨127 - nptrs, by omega⟩
      rw [decodeLoop, if_pos hlt, hk, labelsWithin, append_nil]
      split
      · next h => cases hbyte.symm.trans h
      · next fst h =>
        cases hbyte.symm.trans h
        rw [if_pos rfl]
        by_cases hzero : nptrs = 0
        · rw [if_pos hzero, if_pos hzero, hpos hzero]
          rfl
        · rw [if_neg hzero, if_neg hzero]
    · exact hdone hlt
  | @label p n items hbyte hn hsmall hin rest ih =>
    by_cases hlt : nptrs < 128
    · obtain ⟨k, hk⟩ : ∃ k, 128 - nptrs = k + 1 := ⟨127 - nptrs, by omega⟩
      rw [decodeLoop, if_pos hlt, hk, labelsWithin]
      split
      · next h => cases hbyte.symm.trans h
      · next fst h =>
        cases hbyte.symm.trans h
        have hbits := (pointer_bits n (by omega)).2 hsmall
        rw [if_neg (Nat.pos_iff_ne_zero.mp hn), if_neg (not_not.mpr hbits),
          ih nptrs (fun hzero => if_pos hzero), hk, append_assoc, singleton_append]
        by_cases hzero : nptrs = 0
        · rw [if_pos hzero, if_pos hzero, nameSize, length_sub hin]
          congr 2
          omega
        · rw [if_neg hzero, if_neg hzero, if_neg hzero]
    · exact hdone hlt
  | @pointer p hi lo items hhi hbits hlo rest ih =>
    by_cases hlt : nptrs < 128
    · obtain ⟨k, hk⟩ : ∃ k, 128 - nptrs = k + 1 := ⟨127 - nptrs, by omega⟩
      rw [decodeLoop, if_pos hlt, hk, labelsWithin]
      split
      · next h => cases hhi.symm.trans h
      · next fst h =>
        cases hhi.symm.trans h
        obtain ⟨hset, hmask⟩ := (pointer_bits hi (byte_lt hhi)).1 hbits
        rw [if_neg (by omega), if_pos hset, hlo]
        dsimp only
        rw [hmask, ih (nptrs + 1) (fun hzero => absurd hzero (succ_ne_zero _)), if_neg (succ_ne_zero _),
          show 128 - (nptrs + 1) = k by omega]
        by_cases hzero : nptrs = 0
        · rw [if_pos hzero, if_pos hzero, hpos hzero, nameSize]
        · rw [if_neg hzero, if_neg hzero]
    · exact hdone hlt

theorem decode_name_at (h : NameAt buf p items) :
    decode_name buf p = some (concat (labelsWithin 128 items), p + nameSize items) :=
  decodeLoop_name h 0 (fun _ => rfl) []

theorem concat_cons (s t : Bytes) (ls : List Bytes) :
    concat (s :: t :: ls) = s ++ '.'.toUInt8 :: concat (t :: ls) := by
  simp [concat, intercalate, intersperse]

/-- A label more is some bytes more. -/
theorem concat_shorter {ls rest : List Bytes} (hrest : rest ≠ []) (hne : ∀ s ∈ ls ++ rest, s ≠ []) :
    (concat ls).length < (concat (ls ++ rest)).length := by
  induction ls with
  | nil =>
    obtain ⟨s, rest, rfl⟩ := exists_cons_of_ne_nil hrest
    have hs := length_pos_iff.mpr (hne s mem_cons_self)
    change 0 < (concat (s :: rest)).length
    cases rest with
    | nil => simpa [concat, intercalate] using hs
    | cons t rest =>
      rw [concat_cons, length_append]
      omega
  | cons s ls ih =>
    have hlt := ih fun t ht => hne t (mem_cons_of_mem _ ht)
    cases ls with
    | nil =>
      obtain ⟨t, rest, rfl⟩ := exists_cons_of_ne_nil hrest
      rw [singleton_append, concat_cons, length_append, length_cons]
      have hone : (concat [s]).length = s.length := by simp [concat, intercalate]
      omega
    | cons t ls =>
      rw [cons_append, cons_append, concat_cons, concat_cons, length_append, length_append,
        length_cons, length_cons]
      rw [cons_append] at hlt
      omega

theorem labelsWithin_prefix (n : Nat) (items : List Item) : ∃ rest, labels items = labelsWithin n items ++ rest := by
  fun_induction labelsWithin n items with
  | case1 items => exact ⟨labels items, rfl⟩
  | case2 => exact ⟨[], rfl⟩
  | case3 n s items ih =>
    obtain ⟨rest, hrest⟩ := ih
    exact ⟨rest, by rw [labels, hrest, cons_append]⟩
  | case4 n items ih => exact ih

theorem labels_ne (h : NameAt buf p items) : ∀ s ∈ labels items, s ≠ [] := by
  induction h with
  | root => exact fun s hs => (not_mem_nil hs).elim
  | @label p n items hbyte hn hsmall hin rest ih =>
    intro s hs hnil
    rcases mem_cons.mp hs with rfl | hs
    · have hlen := length_sub hin
      rw [hnil, length_nil] at hlen
      omega
    · exact ih s hs hnil
  | pointer _ _ _ _ ih => exact ih

/-- The name that is read is the one encoded exactly if it is near. -/
theorem near_iff (h : NameAt buf p items) : concat (labelsWithin 128 items) = concat (labels items) ↔ Near items := by
  obtain ⟨rest, hrest⟩ := labelsWithin_prefix 128 items
  constructor
  · intro heq
    by_contra hfar
    have hne : rest ≠ [] := by
      rintro rfl
      rw [append_nil] at hrest
      exact hfar hrest.symm
    have hlt := @concat_shorter (labelsWithin 128 items) rest hne (hrest ▸ labels_ne h)
    rw [← hrest, heq] at hlt
    exact lt_irrefl _ hlt
  · exact fun hnear => congrArg concat hnear

/-! ## Numbers and texts -/

/-- A number of two bytes. -/
def Word (buf : Bytes) (p n : Nat) : Prop :=
  ∃ hi lo, byte buf p = some hi ∧ byte buf (p + 1) = some lo ∧ n = hi * 2 ^ 8 + lo

/-- A number of four bytes. -/
def Long (buf : Bytes) (p n : Nat) : Prop :=
  ∃ byte_1 byte_2 byte_3 byte_4, byte buf p = some byte_1 ∧ byte buf (p + 1) = some byte_2 ∧
    byte buf (p + 2) = some byte_3 ∧ byte buf (p + 3) = some byte_4 ∧
    n = byte_1 * 2 ^ 24 + byte_2 * 2 ^ 16 + byte_3 * 2 ^ 8 + byte_4

theorem u16_word (h : Word buf p n) : u16 buf p = .ok n := by
  obtain ⟨hi, lo, hhi, hlo, rfl⟩ := h
  simp only [u16, needed, hhi, hlo, bind, Except.bind, pure, Except.pure]

/-- From 2^31 on the number comes out negative. -/
def asSigned (n : Nat) : Int := if n < 2 ^ 31 then n else n - 2 ^ 32

theorem asSigned_iff : asSigned n = n ↔ n < 2 ^ 31 := by
  unfold asSigned
  split <;> omega

theorem u32_long (h : Long buf p n) : u32 buf p = .ok (asSigned n) := by
  obtain ⟨b₁, b₂, b₃, b₄, h₁, h₂, h₃, h₄, rfl⟩ := h
  have hread : u32 buf p = .ok (signed (b₁ * 2 ^ 24) + b₂ * 2 ^ 16 + b₃ * 2 ^ 8 + b₄) := by
    simp only [u32, needed, h₁, h₂, h₃, h₄, bind, Except.bind, pure, Except.pure]
  have hlt₁ := byte_lt h₁
  have hlt₂ := byte_lt h₂
  have hlt₃ := byte_lt h₃
  have hlt₄ := byte_lt h₄
  rw [hread]
  refine congrArg Except.ok ?_
  unfold signed asSigned
  split <;> omega

/-- Strings with their lengths before them, one after the other. -/
def StringsAt (buf : Bytes) : List Bytes → Nat → Prop
  | [], _ => True
  | s :: ss, p => byte buf p = some s.length ∧ sub buf (p + 1) (p + s.length) = s ∧
      StringsAt buf ss (p + s.length + 1)

def stringsSize : List Bytes → Nat
  | [] => 0
  | s :: ss => s.length + 1 + stringsSize ss

theorem textLoop_strings {ss : List Bytes} (h : StringsAt buf ss p) :
    textLoop buf (p + stringsSize ss) p = .ok (ss, p + stringsSize ss) := by
  induction ss generalizing p with
  | nil =>
    rw [textLoop, stringsSize, Nat.add_zero, if_neg (lt_irrefl p)]
  | cons s ss ih =>
    obtain ⟨hlen, hsub, hrest⟩ := h
    have hneeded : needed buf p = .ok s.length := by rw [needed, hlen]
    have hfits : ¬ p + s.length + 1 > p + stringsSize (s :: ss) := by
      rw [stringsSize]
      omega
    have hnext : p + stringsSize (s :: ss) = p + s.length + 1 + stringsSize ss := by
      rw [stringsSize]
      omega
    rw [textLoop, if_pos (by rw [stringsSize]; omega), hneeded]
    change (textLoop buf _ (p + (if p + s.length + 1 > _ then _ else s.length) + 1) >>= _) = _
    rw [if_neg hfits, hnext, ih hrest]
    exact congrArg (fun t => Except.ok (t :: ss, _)) hsub

/-- The first string, and then the others. -/
theorem texts_strings {s : Bytes} {ss : List Bytes} (h : StringsAt buf (s :: ss) p) :
    texts buf (stringsSize (s :: ss)) p = .ok (s :: ss, p + stringsSize (s :: ss)) := by
  obtain ⟨hlen, hsub, hrest⟩ := h
  have hneeded : needed buf p = .ok s.length := by rw [needed, hlen]
  have hfits : ¬ s.length + 1 > stringsSize (s :: ss) := by
    rw [stringsSize]
    omega
  have hlast : p + stringsSize (s :: ss) = p + s.length + 1 + stringsSize ss := by
    rw [stringsSize]
    omega
  unfold texts
  rw [hneeded]
  change (textLoop buf _ (p + (if s.length + 1 > _ then _ else s.length) + 1) >>= _) = _
  rw [if_neg hfits, hlast, textLoop_strings hrest]
  exact congrArg (fun t => Except.ok (t :: ss, _)) hsub

/-! ## Data of records -/

inductive RData
  | a (addr : Bytes)
  | ns (name : List Item)
  | cname (name : List Item)
  | soa (mname rname : List Item) (serial refresh retry expire mininum : Nat)
  | ptr (name : List Item)
  | mx (preference : Nat) (exchange : List Item)
  | txt (strings : List Bytes)
  | aaaa (addr : Bytes)
  | srv (priority weight port : Nat) (target : List Item)
  | spf (strings : List Bytes)
  | other (type : Nat) (rdata : Bytes)

def RData.type : RData → Nat
  | .a _ => TYPE_A
  | .ns _ => TYPE_NS
  | .cname _ => TYPE_CNAME
  | .soa .. => TYPE_SOA
  | .ptr _ => TYPE_PTR
  | .mx .. => TYPE_MX
  | .txt _ => TYPE_TXT
  | .aaaa _ => TYPE_AAAA
  | .srv .. => TYPE_SRV
  | .spf _ => TYPE_SPF
  | .other type _ => type

def knownTypes : List Nat :=
  [TYPE_A, TYPE_NS, TYPE_CNAME, TYPE_SOA, TYPE_PTR, TYPE_MX, TYPE_TXT, TYPE_AAAA, TYPE_SRV, TYPE_SPF]

/-- The data of `len` bytes at a position. -/
def DataAt (buf : Bytes) (pos len : Nat) : RData → Prop
  | .a addr => len = 4 ∧ addr.length = 4 ∧ sub buf pos (pos + 3) = addr
  | .ns name | .cname name | .ptr name => NameAt buf pos name ∧ len = nameSize name
  | .soa mname rname serial refresh retry expire mininum =>
    NameAt buf pos mname ∧ NameAt buf (pos + nameSize mname) rname ∧
      Long buf (pos + nameSize mname + nameSize rname) serial ∧
      Long buf (pos + nameSize mname + nameSize rname + 4) refresh ∧
      Long buf (pos + nameSize mname + nameSize rname + 8) retry ∧
      Long buf (pos + nameSize mname + nameSize rname + 12) expire ∧
      Long buf (pos + nameSize mname + nameSize rname + 16) mininum ∧ len = nameSize mname + nameSize rname + 20
  | .mx preference exchange =>
    Word buf pos preference ∧ NameAt buf (pos + 2) exchange ∧ len = 2 + nameSize exchange
  | .txt strings | .spf strings => strings ≠ [] ∧ StringsAt buf strings pos ∧ len = stringsSize strings
  | .aaaa addr => len = 16 ∧ addr.length = 16 ∧ sub buf pos (pos + 15) = addr
  | .srv priority weight port target =>
    Word buf pos priority ∧ Word buf (pos + 2) weight ∧ Word buf (pos + 4) port ∧ NameAt buf (pos + 6) target ∧
      len = 6 + nameSize target
  | .other type rdata => type ∉ knownTypes ∧ len = rdata.length ∧ sub buf pos (pos + len - 1) = rdata

/-- An address as eight numbers. -/
def groups : List Nat → List String
  | hi :: lo :: rest => hex (hi * 2 ^ 8 + lo) :: groups rest
  | _ => []

/-- The fields for the data, with the names as they are given. -/
def RData.fields (name : List Item → Bytes) : RData → Data
  | .a addr => .address (ipv4 (addr.map UInt8.toNat))
  | .ns items => .nsdname (name items)
  | .cname items => .cname (name items)
  | .soa mname rname serial refresh retry expire mininum =>
    .soa (name mname) (name rname) serial refresh retry expire mininum
  | .ptr items => .ptrdname (name items)
  | .mx preference exchange => .mx preference (name exchange)
  | .txt strings => .txt strings
  | .aaaa addr => .address (":".intercalate (groups (addr.map UInt8.toNat)))
  | .srv priority weight port target => .srv priority weight port (name target)
  | .spf strings => .spf strings
  | .other _ rdata => .rdata rdata

/-- The name that is encoded, and the one that is read. -/
def fullName (items : List Item) : Bytes := concat (labels items)

def readName (items : List Item) : Bytes := concat (labelsWithin 128 items)

def RData.isSoa : RData → Bool
  | .soa .. => true
  | _ => false

/-- The names in the data are near. -/
def RData.AllNear : RData → Prop
  | .ns name | .cname name | .ptr name | .mx _ name | .srv _ _ _ name => Near name
  | .soa mname rname .. => Near mname ∧ Near rname
  | .a _ | .txt _ | .aaaa _ | .spf _ | .other .. => True

variable {id lo : Nat}

theorem hex2_digits (h : lo < 256) : hex2 lo = String.ofList [(lo / 16).digitChar, (lo % 16).digitChar] := by
  unfold hex2
  congr 1
  split
  · next hsmall =>
    rw [toDigits_of_lt_base hsmall, div_eq_of_lt hsmall, mod_eq_of_lt hsmall]
    rfl
  · rw [toDigits_of_base_le (by decide) (by omega), toDigits_of_lt_base (by omega)]
    rfl

theorem hex_group {hi : Nat} (hlo : lo < 256) :
    (if hi = 0 then hex lo else hex hi ++ hex2 lo) = hex (hi * 2 ^ 8 + lo) := by
  split
  · next h => rw [h, Nat.zero_mul, Nat.zero_add]
  · next h =>
    have hlow : (hi * 2 ^ 8 + lo) % 16 = lo % 16 := by omega
    have hhigh : (hi * 2 ^ 8 + lo) / 16 = 16 * hi + lo / 16 := by omega
    have hall : toDigits 16 (hi * 2 ^ 8 + lo) =
        toDigits 16 hi ++ [(lo / 16).digitChar, (lo % 16).digitChar] := by
      rw [toDigits_of_base_le (by decide) (by omega), hlow, hhigh,
        ← toDigits_append_toDigits (by decide) (by omega) (by omega),
        toDigits_of_lt_base (n := lo / 16) (by omega), append_assoc, singleton_append]
    rw [hex2_digits hlo, hex, hex, hall, String.ofList_append]

theorem ipv6Fields_groups {bs : List Nat} (h : ∀ b ∈ bs, b < 256) : ipv6Fields bs = groups bs := by
  fun_induction ipv6Fields bs with
  | case1 hi lo rest ih =>
    rw [groups, hex_group (h lo (by simp)), ih fun b hb => h b (by simp [hb])]
  | case2 bs hnot =>
    rw [groups]
    exact hnot

theorem lastName_at {what : String} {start : Nat} (h : NameAt buf start items)
    (hlen : len = start - pos + nameSize items)
    (hle : pos ≤ start) : lastName what buf len pos start = .ok (readName items, pos + len) := by
  have hp : start + nameSize items - pos = len := by omega
  unfold lastName named
  rw [decode_name_at h]
  change (if start + nameSize items - pos ≠ len then _ else _) = _
  rw [if_neg (not_not.mpr hp), ← hp, Nat.add_sub_cancel' (hle.trans (Nat.le_add_right _ _))]
  rfl

/-- A record whose data are a name. -/
theorem nameData_at {what : String} (h : NameAt buf pos items) (hlen : len = nameSize items) (f : Bytes → Data) :
    (lastName what buf len pos pos >>= fun r => .ok (f r.1, r.2) : Read (Data × Nat)) =
      .ok (f (readName items), pos + len) := by
  rw [lastName_at h (by rw [hlen, Nat.sub_self, Nat.zero_add]) (Nat.le_refl pos)]
  rfl

/-- **The data are read, and the position is behind them**, but for an SOA record. -/
theorem parseData_at {d : RData} (h : DataAt buf pos len d) (hsoa : d.isSoa = false) :
    parseData buf d.type len pos = .ok (d.fields readName, pos + len) := by
  cases d with
  | a addr =>
    obtain ⟨rfl, hlen, hsub⟩ := h
    change Except.ok _ = _
    unfold bytesFrom
    rw [hsub]
    rfl
  | ns name => exact nameData_at h.1 h.2 .nsdname
  | cname name => exact nameData_at h.1 h.2 .cname
  | soa => cases hsoa
  | ptr name => exact nameData_at h.1 h.2 .ptrdname
  | mx preference exchange =>
    obtain ⟨hpreference, hname, hlen⟩ := h
    have hread := @lastName_at buf pos len exchange "cname" (pos + 2) hname (by omega) (by omega)
    change (if len < 3 then _ else _) = _
    rw [if_neg (by have := nameSize_pos exchange; omega), u16_word hpreference]
    change (lastName _ _ _ _ _ >>= _) = _
    rw [hread]
    rfl
  | txt strings =>
    obtain ⟨hne, hstrings, hlen⟩ := h
    obtain ⟨s, ss, rfl⟩ := exists_cons_of_ne_nil hne
    change (texts buf len pos >>= _) = _
    rw [hlen, texts_strings hstrings]
    rfl
  | aaaa addr =>
    obtain ⟨rfl, hlen, hsub⟩ := h
    have hbytes : bytesFrom buf pos (pos + 15) = addr.map UInt8.toNat := by rw [bytesFrom, hsub]
    change (if (bytesFrom buf pos (pos + 15)).length < 16 then _ else _) = _
    rw [hbytes, length_map, hlen, if_neg (lt_irrefl 16), ipv6Fields_groups]
    · rfl
    · intro b hb
      obtain ⟨c, -, rfl⟩ := mem_map.mp hb
      exact c.toNat_lt
  | srv priority weight port target =>
    obtain ⟨hpriority, hweight, hport, hname, hlen⟩ := h
    have hread := @lastName_at buf pos len target "srv" (pos + 6) hname (by omega) (by omega)
    change (if len < 7 then _ else _) = _
    rw [if_neg (by have := nameSize_pos target; omega), u16_word hpriority, u16_word hweight, u16_word hport]
    change (lastName _ _ _ _ _ >>= _) = _
    rw [hread]
    rfl
  | spf strings =>
    obtain ⟨hne, hstrings, hlen⟩ := h
    obtain ⟨s, ss, rfl⟩ := exists_cons_of_ne_nil hne
    change (texts buf len pos >>= _) = _
    rw [hlen, texts_strings hstrings]
    rfl
  | other type rdata =>
    obtain ⟨hother, hlen, hsub⟩ := h
    have hne : ∀ t ∈ knownTypes, type ≠ t := fun t ht h => hother (h ▸ ht)
    have hstrings : ¬ (type = TYPE_TXT ∨ type = TYPE_SPF) := by
      rintro (h | h)
      · exact hne _ (by decide) h
      · exact hne _ (by decide) h
    change parseData buf type len pos = _
    rw [parseData, if_neg (hne _ (by decide)), if_neg (hne _ (by decide)), if_neg (hne _ (by decide)),
      if_neg (hne _ (by decide)), if_neg (hne _ (by decide)), if_neg (hne _ (by decide)), if_neg hstrings,
      if_neg (hne _ (by decide)), if_neg (hne _ (by decide)), hsub]
    rfl

/-- After an SOA record the position is behind the first of its names. -/
theorem parseData_soa {d : RData} (h : DataAt buf pos len d) (hsoa : d.isSoa = true) :
    ∃ r q, parseData buf d.type len pos = .ok (r, q) ∧ q ≠ pos + len := by
  cases d with
  | soa mname rname serial refresh retry expire mininum =>
    obtain ⟨hmname, hrname, h₁, h₂, h₃, h₄, h₅, hlen⟩ := h
    refine ⟨.soa (readName mname) (readName rname) (asSigned serial) (asSigned refresh) (asSigned retry)
      (asSigned expire) (asSigned mininum), pos + nameSize mname, ?_, by omega⟩
    change (named buf pos _ >>= _) = _
    unfold named
    rw [decode_name_at hmname]
    change (named buf (pos + nameSize mname) _ >>= _) = _
    unfold named
    rw [decode_name_at hrname]
    change (u32 buf (pos + nameSize mname + nameSize rname) >>= _) = _
    rw [u32_long h₁, u32_long h₂, u32_long h₃, u32_long h₄, u32_long h₅]
    rfl
  | _ => cases hsoa

/-- The names in the data come out as encoded exactly if they are near. -/
theorem fields_iff {d : RData} (h : DataAt buf pos len d) (hsoa : d.isSoa = false) :
    d.fields readName = d.fields fullName ↔ d.AllNear := by
  cases d with
  | a | txt | aaaa | spf | other => exact iff_of_true rfl trivial
  | soa => cases hsoa
  | ns name => rw [RData.fields, RData.fields, Data.nsdname.injEq]; exact near_iff h.1
  | cname name => rw [RData.fields, RData.fields, Data.cname.injEq]; exact near_iff h.1
  | ptr name => rw [RData.fields, RData.fields, Data.ptrdname.injEq]; exact near_iff h.1
  | mx preference exchange =>
    rw [RData.fields, RData.fields, Data.mx.injEq, and_iff_right rfl]
    exact near_iff h.2.1
  | srv priority weight port target =>
    rw [RData.fields, RData.fields, Data.srv.injEq, and_iff_right rfl, and_iff_right rfl, and_iff_right rfl]
    exact near_iff h.2.2.2.1

/-! ## Records -/

structure Record where
  owner : List Item
  «class» : Nat
  ttl : Nat
  rdlength : Nat
  data : RData

/-- Where the record ends that starts at `pos`. -/
def Record.stop (r : Record) (pos : Nat) : Nat := pos + nameSize r.owner + 10 + r.rdlength

structure RecordAt (buf : Bytes) (pos : Nat) (r : Record) : Prop where
  owner : NameAt buf pos r.owner
  type : Word buf (pos + nameSize r.owner) r.data.type
  «class» : Word buf (pos + nameSize r.owner + 2) r.class
  ttl : Long buf (pos + nameSize r.owner + 4) r.ttl
  rdlength : Word buf (pos + nameSize r.owner + 8) r.rdlength
  data : DataAt buf (pos + nameSize r.owner + 10) r.rdlength r.data

/-- The answer for a record. -/
def Record.answer (s : Nat) (r : Record) : Answer :=
  { «section» := s, name := fullName r.owner, type := r.data.type, «class» := r.class, ttl := r.ttl
    data := r.data.fields fullName }

/-- What is read of one that is not an SOA record. -/
def Record.got (s : Nat) (r : Record) : Answer :=
  { «section» := s, name := readName r.owner, type := r.data.type, «class» := r.class, ttl := asSigned r.ttl
    data := r.data.fields readName }

/-- The TTL is below 2^31, and the names are near. -/
def Record.Plain (r : Record) : Prop := Near r.owner ∧ r.ttl < 2 ^ 31 ∧ r.data.AllNear

variable {r : Record}

theorem parseRecord_data (s : Nat) (h : RecordAt buf pos r) :
    parseRecord s buf pos =
      (parseData buf r.data.type r.rdlength (pos + nameSize r.owner + 10) >>= fun (data, p) =>
        .ok ({ «section» := s, name := readName r.owner, type := r.data.type, «class» := r.class
               ttl := asSigned r.ttl, data }, p)) := by
  unfold parseRecord named
  rw [decode_name_at h.owner]
  change (u16 buf (pos + nameSize r.owner) >>= _) = _
  rw [u16_word h.type, u16_word h.class, u32_long h.ttl, u16_word h.rdlength]
  rfl

/-- A record is read to its end exactly if it is no SOA record. -/
theorem parseRecord_at (s : Nat) (h : RecordAt buf pos r) (hsoa : r.data.isSoa = false) :
    parseRecord s buf pos = .ok (r.got s, r.stop pos) := by
  rw [parseRecord_data s h, parseData_at h.data hsoa]
  rfl

theorem parseRecord_soa (s : Nat) (h : RecordAt buf pos r) (hsoa : r.data.isSoa = true) (ans : Answer) :
    parseRecord s buf pos ≠ .ok (ans, r.stop pos) := by
  obtain ⟨d, q, hread, hne⟩ := parseData_soa h.data hsoa
  rw [parseRecord_data s h, hread]
  intro heq
  exact hne (congrArg Prod.snd (Except.ok.inj heq))

/-- What is read is the answer exactly if the record is plain. -/
theorem got_iff (s : Nat) (h : RecordAt buf pos r) (hsoa : r.data.isSoa = false) :
    r.got s = r.answer s ↔ r.Plain := by
  unfold Record.got Record.answer Record.Plain
  rw [Answer.mk.injEq, and_iff_right rfl, and_iff_right rfl, and_iff_right rfl, asSigned_iff, fields_iff h.data hsoa]
  exact and_congr_left fun _ => near_iff h.owner

/-! ## Sections -/

/-- Records one after the other. -/
def RecordsAt (buf : Bytes) : List Record → Nat → Prop
  | [], _ => True
  | r :: rs, pos => RecordAt buf pos r ∧ RecordsAt buf rs (r.stop pos)

def stops (rs : List Record) (pos : Nat) : Nat := rs.foldl (fun pos r => r.stop pos) pos

/-- Each record is read to its end. -/
def Advances (s : Nat) (buf : Bytes) : List Record → Nat → Prop
  | [], _ => True
  | r :: rs, pos => (∃ ans, parseRecord s buf pos = .ok (ans, r.stop pos)) ∧ Advances s buf rs (r.stop pos)

variable {s : Nat} {rs : List Record}

theorem advances_iff (h : RecordsAt buf rs pos) : Advances s buf rs pos ↔ ∀ r ∈ rs, r.data.isSoa = false := by
  induction rs generalizing pos with
  | nil => exact iff_of_true trivial fun r hr => (not_mem_nil hr).elim
  | cons r rs ih =>
    obtain ⟨hr, hrs⟩ := h
    rw [Advances, ih hrs, forall_mem_cons]
    refine and_congr_left fun _ => ?_
    constructor
    · rintro ⟨ans, hread⟩
      by_contra hsoa
      exact parseRecord_soa s hr (eq_true_of_ne_false hsoa) ans hread
    · exact fun hsoa => ⟨r.got s, parseRecord_at s hr hsoa⟩

/-- **A section without SOA records is read to its end.** -/
theorem parse_section_at (h : RecordsAt buf rs pos) (hsoa : ∀ r ∈ rs, r.data.isSoa = false) :
    parse_section s buf pos rs.length = .ok (rs.map (Record.got s), stops rs pos) := by
  induction rs generalizing pos with
  | nil => rfl
  | cons r rs ih =>
    obtain ⟨hr, hrs⟩ := h
    obtain ⟨hfirst, hrest⟩ := forall_mem_cons.mp hsoa
    rw [length_cons, parse_section, parseRecord_at s hr hfirst]
    change (parse_section s buf (r.stop pos) rs.length >>= _) = _
    rw [ih hrs hrest]
    rfl

theorem map_got_iff (h : RecordsAt buf rs pos) (hsoa : ∀ r ∈ rs, r.data.isSoa = false) :
    rs.map (Record.got s) = rs.map (Record.answer s) ↔ ∀ r ∈ rs, r.Plain := by
  induction rs generalizing pos with
  | nil => exact iff_of_true rfl fun r hr => (not_mem_nil hr).elim
  | cons r rs ih =>
    obtain ⟨hr, hrs⟩ := h
    obtain ⟨hfirst, hrest⟩ := forall_mem_cons.mp hsoa
    rw [map_cons, map_cons, List.cons.injEq, got_iff s hr hfirst, ih hrs hrest, forall_mem_cons]

/-! ## Messages -/

structure Message where
  code : Nat
  qname : List Item
  an : List Record
  ns : List Record
  ar : List Record

/-- Where the answers start. -/
def Message.start (m : Message) : Nat := 13 + nameSize m.qname + 4

/-- A response to the query of an id, in a message that is whole, with its question of class IN. -/
structure MessageAt (buf : Bytes) (id : Nat) (m : Message) : Prop where
  id : Word buf 1 id
  flags : ∃ flags, Word buf 3 flags ∧ flags &&& 0x8000 ≠ 0 ∧ flags &&& 0x200 = 0 ∧ flags &&& 0xf = m.code
  nqs : Word buf 5 1
  nan : Word buf 7 m.an.length
  nns : Word buf 9 m.ns.length
  nar : Word buf 11 m.ar.length
  qname : NameAt buf 13 m.qname
  qclass : Word buf (13 + nameSize m.qname + 2) 1
  an : RecordsAt buf m.an m.start
  ns : RecordsAt buf m.ns (stops m.an m.start)
  ar : RecordsAt buf m.ar (stops m.ns (stops m.an m.start))

/-- The answers of the sections that are asked for. -/
def Message.answers (opts : Opts) (answer : Nat → Record → Answer) (m : Message) : List Answer :=
  m.an.map (answer SECTION_AN) ++ (if opts.authority then m.ns.map (answer SECTION_NS) else []) ++
    if opts.additional_section then m.ar.map (answer SECTION_AR) else []

/-- The answers are those of the message, and each record is read to its end. -/
structure MessageRight (buf : Bytes) (id : Nat) (opts : Opts) (m : Message) : Prop where
  response : parse_response buf id opts = .ok { answers := m.answers opts Record.answer, err := errOf m.code }
  an : Advances SECTION_AN buf m.an m.start
  ns : opts.authority = true ∨ opts.additional_section = true →
    Advances SECTION_NS buf m.ns (stops m.an m.start)
  ar : opts.additional_section = true → Advances SECTION_AR buf m.ar (stops m.ns (stops m.an m.start))

/-- There are twelve bytes for each answer, no record that is read is an SOA record, and those that are
asked for are plain. -/
structure MessageFits (buf : Bytes) (opts : Opts) (m : Message) : Prop where
  room : 13 + nameSize m.qname + 3 + m.an.length * 12 ≤ buf.length
  an : ∀ r ∈ m.an, r.data.isSoa = false ∧ r.Plain
  ns : opts.authority = true ∨ opts.additional_section = true →
    ∀ r ∈ m.ns, r.data.isSoa = false ∧ (opts.authority = true → r.Plain)
  ar : opts.additional_section = true → ∀ r ∈ m.ar, r.data.isSoa = false ∧ r.Plain

theorem word_lt (h : Word buf p n) : p < buf.length := by
  obtain ⟨-, lo, -, hlo, -⟩ := h
  have hin := byte_isSome.mp (Option.isSome_of_eq_some hlo)
  omega

/-- What is read up to the answers. -/
theorem parseHeader_at {m : Message} (h : MessageAt buf id m) :
    parseHeader buf id =
      if 13 + nameSize m.qname + 3 + m.an.length * 12 ≤ buf.length then
        .ok { code := m.code, nan := m.an.length, nns := m.ns.length, nar := m.ar.length, pos := m.start }
      else .error (.nil (.message "truncated")) := by
  obtain ⟨flags, hflags, hqr, htc, hcode⟩ := h.flags
  have hlong : ¬ buf.length < 12 := by
    have hlast := word_lt h.nar
    omega
  have hroom : 13 + nameSize m.qname + 3 + m.an.length * 12 > buf.length ↔
      ¬ 13 + nameSize m.qname + 3 + m.an.length * 12 ≤ buf.length := Nat.not_le.symm
  simp only [parseHeader, named, refuse, u16_word h.id, u16_word hflags, u16_word h.nqs, u16_word h.nan,
    u16_word h.nns, u16_word h.nar, u16_word h.qclass, decode_name_at h.qname, hqr, htc, hcode, hlong, hroom, ne_eq,
    not_true_eq_false, if_false, ite_not, bind, Except.bind, pure, Except.pure]
  by_cases hfits : 13 + nameSize m.qname + 3 + m.an.length * 12 ≤ buf.length
  · rw [if_pos hfits, if_pos hfits]
    rfl
  · rw [if_neg hfits, if_neg hfits]

/-- No record that is read is an SOA record. -/
structure NoSoa (opts : Opts) (m : Message) : Prop where
  an : ∀ r ∈ m.an, r.data.isSoa = false
  ns : opts.authority = true ∨ opts.additional_section = true → ∀ r ∈ m.ns, r.data.isSoa = false
  ar : opts.additional_section = true → ∀ r ∈ m.ar, r.data.isSoa = false

/-- **Without SOA records all sections that are asked for are read.** -/
theorem parse_response_at {opts : Opts} {m : Message} (h : MessageAt buf id m) (hsoa : NoSoa opts m)
    (hroom : 13 + nameSize m.qname + 3 + m.an.length * 12 ≤ buf.length) :
    parse_response buf id opts = .ok { answers := m.answers opts Record.got, err := errOf m.code } := by
  have hheader := parseHeader_at h
  rw [if_pos hroom] at hheader
  have han := @parse_section_at buf _ SECTION_AN _ h.an hsoa.an
  unfold parse_response Message.answers
  rw [hheader]
  change (parse_section SECTION_AN buf m.start m.an.length >>= _) = _
  rw [han]
  by_cases hwanted : opts.authority = true ∨ opts.additional_section = true
  · have hns := @parse_section_at buf _ SECTION_NS _ h.ns (hsoa.ns hwanted)
    have hread : ¬ (!opts.authority && !opts.additional_section) = true := by
      rcases hwanted with hwanted | hwanted <;> simp [hwanted]
    change (if (!opts.authority && !opts.additional_section) = true then _ else _) = _
    rw [if_neg hread]
    change (parse_section SECTION_NS buf (stops m.an m.start) m.ns.length >>= _) = _
    rw [hns]
    change (if (!opts.additional_section) = true then _ else _) = _
    cases hadd : opts.additional_section with
    | false =>
      rw [Bool.not_false, if_pos rfl]
      cases opts.authority <;> simp [pure, Except.pure]
    | true =>
      have har := @parse_section_at buf _ SECTION_AR _ h.ar (hsoa.ar hadd)
      rw [Bool.not_true, if_neg Bool.false_ne_true]
      change (parse_section SECTION_AR buf (stops m.ns (stops m.an m.start)) m.ar.length >>= _) = _
      rw [har]
      cases opts.authority <;> simp [bind, Except.bind, pure, Except.pure]
  · rw [not_or, Bool.not_eq_true, Bool.not_eq_true] at hwanted
    rw [hwanted.1, hwanted.2]
    simp [bind, Except.bind, pure, Except.pure]

/-- What is read are the answers exactly if the records that are asked for are plain. -/
theorem answers_iff {opts : Opts} {m : Message} (h : MessageAt buf id m) (hsoa : NoSoa opts m) :
    m.answers opts Record.got = m.answers opts Record.answer ↔
      (∀ r ∈ m.an, r.Plain) ∧ (opts.authority = true → ∀ r ∈ m.ns, r.Plain) ∧
        (opts.additional_section = true → ∀ r ∈ m.ar, r.Plain) := by
  have hsplit : m.answers opts Record.got = m.answers opts Record.answer ↔
      m.an.map (Record.got SECTION_AN) = m.an.map (Record.answer SECTION_AN) ∧
        (opts.authority = true → m.ns.map (Record.got SECTION_NS) = m.ns.map (Record.answer SECTION_NS)) ∧
          (opts.additional_section = true →
            m.ar.map (Record.got SECTION_AR) = m.ar.map (Record.answer SECTION_AR)) := by
    have hif : ∀ (c : Bool) (as as' : List Answer),
        (if c then as else []) = (if c then as' else []) ↔ (c = true → as = as') :=
      fun c as as' => by cases c <;> simp
    have hlength : ∀ (c : Bool) (s : Nat) (rs : List Record),
        (if c then rs.map (Record.got s) else []).length = (if c then rs.map (Record.answer s) else []).length :=
      fun c s rs => by cases c <;> simp
    have hfirst : (m.an.map (Record.got SECTION_AN)).length = (m.an.map (Record.answer SECTION_AN)).length := by
      rw [length_map, length_map]
    unfold Message.answers
    rw [← hif, ← hif]
    constructor
    · intro heq
      obtain ⟨hleft, har⟩ := append_inj heq (by rw [length_append, length_append, hfirst, hlength])
      obtain ⟨han, hns⟩ := append_inj hleft hfirst
      exact ⟨han, hns, har⟩
    · rintro ⟨han, hns, har⟩
      rw [han, hns, har]
  rw [hsplit, map_got_iff h.an hsoa.an]
  refine and_congr_right fun _ => and_congr ?_ ?_
  · exact forall_congr' fun hauth => map_got_iff h.ns (hsoa.ns (.inl hauth))
  · exact forall_congr' fun hadd => map_got_iff h.ar (hsoa.ar hadd)

/-- **A message is right exactly if there are twelve bytes for each answer, no record that is read is an
SOA record, and those that are asked for have a TTL below 2^31 and no label behind the 128th pointer of
a name.** -/
theorem message_right_iff {id : Nat} {opts : Opts} {m : Message} (h : MessageAt buf id m) :
    MessageRight buf id opts m ↔ MessageFits buf opts m := by
  constructor
  · intro hright
    have hsoa : NoSoa opts m :=
      ⟨(advances_iff h.an).mp hright.an, fun hwanted => (advances_iff h.ns).mp (hright.ns hwanted),
        fun hadd => (advances_iff h.ar).mp (hright.ar hadd)⟩
    have hresponse := hright.response
    have hroom : 13 + nameSize m.qname + 3 + m.an.length * 12 ≤ buf.length := by
      by_contra hnot
      have hheader := parseHeader_at h
      rw [if_neg hnot] at hheader
      rw [parse_response, hheader] at hresponse
      cases hresponse
    rw [parse_response_at h hsoa hroom] at hresponse
    have hanswers := congrArg Answers.answers (Except.ok.inj hresponse)
    obtain ⟨han, hns, har⟩ := (answers_iff h hsoa).mp hanswers
    exact ⟨hroom, fun r hr => ⟨hsoa.an r hr, han r hr⟩,
      fun hwanted r hr => ⟨hsoa.ns hwanted r hr, fun hauth => hns hauth r hr⟩,
      fun hadd r hr => ⟨hsoa.ar hadd r hr, har hadd r hr⟩⟩
  · intro hfits
    have hsoa : NoSoa opts m :=
      ⟨fun r hr => (hfits.an r hr).1, fun hwanted r hr => (hfits.ns hwanted r hr).1,
        fun hadd r hr => (hfits.ar hadd r hr).1⟩
    have hanswers := (answers_iff h hsoa).mpr ⟨fun r hr => (hfits.an r hr).2,
      fun hauth r hr => (hfits.ns (.inl hauth) r hr).2 hauth, fun hadd r hr => (hfits.ar hadd r hr).2⟩
    refine ⟨?_, (advances_iff h.an).mpr hsoa.an, fun hwanted => (advances_iff h.ns).mpr (hsoa.ns hwanted),
      fun hadd => (advances_iff h.ar).mpr (hsoa.ar hadd)⟩
    rw [parse_response_at h hsoa hfits.room, hanswers]

/-! ## One address -/

/-- A response with the address 1.2.3.4 of `a`, a pointer for the name, and a TTL that starts with a byte. -/
def oneAddress (b : UInt8) : Bytes :=
  [0, 1, 0x80, 0, 0, 1, 0, 1, 0, 0, 0, 0] ++ [1, 97, 0, 0, 1, 0, 1] ++
    [0xc0, 0x0c, 0, 1, 0, 1, b, 0, 0, 0, 0, 4, 1, 2, 3, 4]

def addressRecord (b : UInt8) : Record :=
  { owner := [.pointer, .label [97]], «class» := 1, ttl := b.toNat * 2 ^ 24, rdlength := 4, data := .a [1, 2, 3, 4] }

def addressMessage (b : UInt8) : Message :=
  { code := 0, qname := [.label [97]], an := [addressRecord b], ns := [], ar := [] }

def noOpts : Opts := { qtype := none, authority_section := false, additional_section := false }

theorem oneAddress_at (b : UInt8) : MessageAt (oneAddress b) 1 (addressMessage b) := by
  have hname : NameAt (oneAddress b) 13 [.label [97]] :=
    NameAt.label (n := 1) rfl (by decide) (by decide) (by simp [oneAddress]) (.root rfl)
  have howner : NameAt (oneAddress b) 20 [.pointer, .label [97]] :=
    @NameAt.pointer (oneAddress b) 20 0xc0 0x0c [.label [97]] rfl (by decide) rfl hname
  have hrecord : RecordAt (oneAddress b) 20 (addressRecord b) :=
    { owner := howner
      type := ⟨0, 1, rfl, rfl, rfl⟩
      «class» := ⟨0, 1, rfl, rfl, rfl⟩
      ttl := ⟨b.toNat, 0, 0, 0, rfl, rfl, rfl, rfl, by simp only [addressRecord, Nat.zero_mul, Nat.add_zero]⟩
      rdlength := ⟨0, 4, rfl, rfl, rfl⟩
      data := ⟨rfl, rfl, rfl⟩ }
  exact
    { id := ⟨0, 1, rfl, rfl, rfl⟩
      flags := ⟨0x8000, ⟨0x80, 0, rfl, rfl, rfl⟩, by decide, by decide, rfl⟩
      nqs := ⟨0, 1, rfl, rfl, rfl⟩
      nan := ⟨0, 1, rfl, rfl, rfl⟩
      nns := ⟨0, 0, rfl, rfl, rfl⟩
      nar := ⟨0, 0, rfl, rfl, rfl⟩
      qname := hname
      qclass := ⟨0, 1, rfl, rfl, rfl⟩
      an := ⟨hrecord, trivial⟩
      ns := trivial
      ar := trivial }

theorem message_right_short : MessageRight (oneAddress 0) 1 noOpts (addressMessage 0) := by
  refine (message_right_iff (oneAddress_at 0)).mpr ⟨by decide, fun r hr => ?_, fun h => ?_, fun h => by cases h⟩
  · rw [mem_singleton.mp hr]
    exact ⟨rfl, rfl, by decide, trivial⟩
  · rcases h with h | h <;> cases h

/-- From 2^31 on the TTL is negative. -/
theorem message_not_right : ¬ ∀ (buf : Bytes) (id : Nat) (opts : Opts) (m : Message), MessageAt buf id m →
    MessageRight buf id opts m := by
  intro h
  have hat := oneAddress_at 0x80
  have hright := h _ 1 noOpts _ hat
  have hsoa : NoSoa noOpts (addressMessage 0x80) :=
    ⟨fun r hr => (by rw [mem_singleton.mp hr]; rfl), fun _ r hr => (by cases hr),
      fun _ r hr => (by cases hr)⟩
  have hresponse := hright.response
  rw [parse_response_at hat hsoa (by decide)] at hresponse
  have hanswers := congrArg Answers.answers (Except.ok.inj hresponse)
  have hplain := ((answers_iff hat hsoa).mp hanswers).1 _ (mem_singleton.mpr rfl)
  exact absurd hplain.2.1 (by decide)

end OpenResty.Resty.DnsResolver
