/-
The requests of `resty.dns.resolver`: how `_build_request` encodes a name, and
which names `_decode_name` gives back.

The pattern replaces runs of other bytes than dots: a dot that follows another
one stays in the name as it is, where its code is read as a length, and a run
of 64 bytes or more gets a length whose high bits mean something else.
-/
import Mathlib.Data.List.TakeWhile
import OpenResty.Resty.DnsNames

namespace OpenResty.Resty.DnsResolver

open Lib List Nat

def DOT_CHAR : UInt8 := '.'.toUInt8

/-- `char(n)`: an error is raised above 255. -/
def char (n : Nat) : Read Bytes := if n < 256 then .ok [n.toUInt8] else .error .raise

/-- `_encode_name` -/
def encode_name (s : Bytes) : Read Bytes := do
  let size ← char s.length
  return size ++ s

/-- `gsub(qname, "([^.]+)%.?", _encode_name)`: a run of other bytes than dots
is replaced, with the dot behind it. -/
def gsubName : Bytes → Read Bytes
  | [] => .ok []
  | c :: rest =>
    if c = DOT_CHAR then do
      let done ← gsubName rest
      return c :: done
    else do
      let name ← encode_name ((c :: rest).takeWhile (· ≠ DOT_CHAR))
      let done ← gsubName (((c :: rest).dropWhile (· ≠ DOT_CHAR)).drop 1)
      return name ++ done
termination_by s => s.length
decreasing_by
  · exact lt_succ_self _
  · next hc =>
    have hlen := (dropWhile_sublist (· ≠ DOT_CHAR) (l := rest)).length_le
    rw [dropWhile_cons_of_pos (by simpa using hc), length_drop, length_cons]
    omega

/-- The strings that are sent, one after the other -/
structure Request where
  ident_hi : Bytes
  ident_lo : Bytes
  flags : Bytes
  nqs : Bytes
  nan : Bytes
  nns : Bytes
  nar : Bytes
  name : Bytes
  typ : Bytes
  «class» : Bytes

def Request.header (r : Request) : Bytes :=
  r.ident_hi ++ r.ident_lo ++ r.flags ++ r.nqs ++ r.nan ++ r.nns ++ r.nar

def Request.bytes (r : Request) : Bytes := r.header ++ (r.name ++ (r.typ ++ r.«class»))

/-- `_build_request`; `id` has two bytes. -/
def build_request (qname : Bytes) (id : UInt16) (no_recurse : Bool) (qtype : Option Nat) : Read Request := do
  let ident_hi ← char (id.toNat >>> 8)
  let ident_lo ← char (id.toNat &&& 0xff)
  let type ← char (qtype.getD TYPE_A)
  if byte qname 1 = some DOT_CHAR.toNat then throw (.nil (.message "bad name"))
  let name ← gsubName qname
  return {
    ident_hi, ident_lo
    flags := if no_recurse then [0, 0] else [1, 0]
    nqs := [0, 1]
    nan := [0, 0]
    nns := [0, 0]
    nar := [0, 0]
    name := name ++ [0]
    typ := 0 :: type
    «class» := [0, 1] }

/-! ## Names that have an encoding -/

/-- Labels of 1 to 63 bytes -/
def Labels (ls : List Bytes) : Prop := ∀ l ∈ ls, 0 < l.length ∧ l.length ≤ 63 ∧ DOT_CHAR ∉ l

/-- The labels, with a dot at the end or not -/
def Spells (ls : List Bytes) (qname : Bytes) : Prop := qname = concat ls ∨ qname = concat ls ++ [DOT_CHAR]

def wire (ls : List Bytes) : Bytes := ls.flatMap fun l => l.length.toUInt8 :: l

/-- The name that is sent is one of labels, it is the query name, and it is
decoded as that, with the position of the type behind it. -/
def Request.Right (qname : Bytes) (r : Request) : Prop :=
  ∃ ls, Labels ls ∧ Spells ls qname ∧ NameAt r.bytes (r.header.length + 1) (ls.map .label) ∧
    decode_name r.bytes (r.header.length + 1) = some (concat ls, r.header.length + r.name.length + 1)

variable {qname s t : Bytes} {ls : List Bytes} {id : UInt16} {no_recurse : Bool} {qtype : Option Nat} {r : Request}

theorem encode_name_ok (h : s.length < 256) : encode_name s = .ok (s.length.toUInt8 :: s) := by
  rw [encode_name, char, if_pos h]
  rfl

theorem gsubName_nil : gsubName [] = .ok [] := by rw [gsubName]

/-- A run, with what is behind it up to the next run -/
theorem gsubName_eq {c : UInt8} (hc : c ≠ DOT_CHAR) (rest : Bytes) :
    gsubName (c :: rest) = (do
      let name ← encode_name ((c :: rest).takeWhile (· ≠ DOT_CHAR))
      let done ← gsubName (((c :: rest).dropWhile (· ≠ DOT_CHAR)).drop 1)
      return name ++ done) := by
  rw [gsubName, if_neg hc]

theorem run_of_notMem (hdot : DOT_CHAR ∉ s) : ∀ c ∈ s, decide (c ≠ DOT_CHAR) = true := fun _ hc =>
  decide_eq_true (ne_of_mem_of_not_mem hc hdot)

/-- A run is encoded, up to the end or a dot. -/
theorem gsubName_last (hne : s ≠ []) (hdot : DOT_CHAR ∉ s) (hlen : s.length < 256) :
    gsubName s = .ok (s.length.toUInt8 :: s) := by
  obtain ⟨c, s, rfl⟩ := exists_cons_of_ne_nil hne
  have hall := run_of_notMem hdot
  rw [gsubName_eq (ne_of_mem_of_not_mem mem_cons_self hdot), takeWhile_eq_self_iff.mpr hall,
    dropWhile_eq_nil_iff.mpr hall, encode_name_ok hlen]
  change (gsubName [] >>= _) = _
  rw [gsubName_nil]
  exact congrArg Except.ok (append_nil _)

theorem gsubName_label (hne : s ≠ []) (hdot : DOT_CHAR ∉ s) (hlen : s.length < 256) (t : Bytes) :
    gsubName (s ++ DOT_CHAR :: t) = (do
      let done ← gsubName t
      return (s.length.toUInt8 :: s) ++ done) := by
  obtain ⟨c, s, rfl⟩ := exists_cons_of_ne_nil hne
  have hall := run_of_notMem hdot
  have htake : (c :: (s ++ DOT_CHAR :: t)).takeWhile (· ≠ DOT_CHAR) = c :: s := by
    rw [← cons_append, takeWhile_append_of_pos hall, takeWhile_cons_of_neg (by simp), append_nil]
  have hdrop : (c :: (s ++ DOT_CHAR :: t)).dropWhile (· ≠ DOT_CHAR) = DOT_CHAR :: t := by
    rw [← cons_append, dropWhile_append_of_pos hall, dropWhile_cons_of_neg (by simp)]
  rw [cons_append, gsubName_eq (ne_of_mem_of_not_mem mem_cons_self hdot), htake, hdrop, encode_name_ok hlen]
  rfl

/-- An error is raised exactly at a run of 256 bytes or more. -/
theorem gsubName_ok_iff (s : Bytes) :
    (∃ name, gsubName s = .ok name) ↔ ∀ l ∈ s.splitOn DOT_CHAR, l.length < 256 := by
  have hbind {x : Read Bytes} {f : Bytes → Bytes} :
      (∃ name, (do let done ← x; return f done) = .ok name) ↔ ∃ name, x = .ok name := by
    cases x with
    | error e => exact iff_of_false (fun ⟨_, h⟩ => by cases h) (fun ⟨_, h⟩ => by cases h)
    | ok b => exact iff_of_true ⟨_, rfl⟩ ⟨_, rfl⟩
  fun_induction gsubName s with
  | case1 => exact iff_of_true ⟨_, rfl⟩ (by simp)
  | case2 rest ih =>
    refine hbind.trans (ih.trans ?_)
    rw [← nil_append (DOT_CHAR :: rest), splitOn_append_cons_self_of_not_mem not_mem_nil,
      forall_mem_cons]
    exact (and_iff_right (by decide)).symm
  | case3 c rest hc ih =>
    have hrun : DOT_CHAR ∉ (c :: rest).takeWhile (· ≠ DOT_CHAR) := fun hmem => by
      simpa using mem_takeWhile_imp hmem
    have hencode {x : Read Bytes} : (∃ name, (do
          let name ← encode_name ((c :: rest).takeWhile (· ≠ DOT_CHAR))
          let done ← x
          return name ++ done) = .ok name) ↔
        ((c :: rest).takeWhile (· ≠ DOT_CHAR)).length < 256 ∧ ∃ name, x = .ok name := by
      by_cases hlen : ((c :: rest).takeWhile (· ≠ DOT_CHAR)).length < 256
      · rw [encode_name_ok hlen, and_iff_right hlen]
        exact hbind
      · rw [encode_name, char, if_neg hlen]
        exact iff_of_false (fun ⟨_, h⟩ => by cases h) fun h => hlen h.1
    refine hencode.trans ((and_congr_right fun _ => ih).trans ?_)
    have hsplit := takeWhile_append_dropWhile (p := (· ≠ DOT_CHAR)) (l := c :: rest)
    cases hafter : (c :: rest).dropWhile (· ≠ DOT_CHAR) with
    | nil =>
      rw [hafter, append_nil] at hsplit
      rw [hsplit] at hrun ⊢
      rw [splitOn_eq_singleton hrun]
      simp
    | cons d t =>
      have hd : d = DOT_CHAR := by
        have hhead := @head_dropWhile_not _ (· ≠ DOT_CHAR) (c :: rest)
          (by rw [hafter]; exact cons_ne_nil _ _)
        simp only [hafter, head_cons] at hhead
        simpa using hhead
      rw [hafter, hd] at hsplit
      rw [← hsplit, splitOn_append_cons_self_of_not_mem hrun, forall_mem_cons, hsplit]
      rfl

theorem concat_dot (l m : Bytes) (ls : List Bytes) :
    concat (l :: m :: ls) = l ++ DOT_CHAR :: concat (m :: ls) := concat_cons l m ls

theorem wire_cons (l : Bytes) (ls : List Bytes) : wire (l :: ls) = (l.length.toUInt8 :: l) ++ wire ls := by
  rw [wire, flatMap_cons, wire]

theorem Labels.tail {l : Bytes} (h : Labels (l :: ls)) : Labels ls := fun l' hl' => h l' (mem_cons_of_mem _ hl')

/-- Labels are encoded as they are, also with a dot behind the last one. -/
theorem gsubName_wire (h : Labels ls) :
    gsubName (concat ls) = .ok (wire ls) ∧ (ls ≠ [] → gsubName (concat ls ++ [DOT_CHAR]) = .ok (wire ls)) := by
  induction ls with
  | nil => exact ⟨gsubName_nil, fun hne => absurd rfl hne⟩
  | cons l ls ih =>
    obtain ⟨hpos, hsmall, hdot⟩ := h l mem_cons_self
    have hne : l ≠ [] := length_pos_iff.mp hpos
    have hlen : l.length < 256 := by omega
    cases ls with
    | nil =>
      have hone : concat [l] = l := intercalate_singleton ..
      rw [hone, wire_cons]
      refine ⟨(gsubName_last hne hdot hlen).trans (congrArg Except.ok (append_nil _).symm), fun _ => ?_⟩
      rw [gsubName_label hne hdot hlen, gsubName_nil]
      rfl
    | cons m ls =>
      obtain ⟨hplain, hdotted⟩ := ih h.tail
      constructor
      · rw [concat_dot, gsubName_label hne hdot hlen, hplain, wire_cons]
        rfl
      · intro _
        rw [concat_dot, append_assoc, cons_append, gsubName_label hne hdot hlen,
          hdotted (cons_ne_nil _ _), wire_cons]
        rfl

/-! ## The name in the request -/

theorem byte_append (pre post : Bytes) (b : UInt8) : byte (pre ++ b :: post) (pre.length + 1) = some b.toNat := by
  rw [byte, Nat.add_sub_cancel, getElem?_append_right (Nat.le_refl _), Nat.sub_self]
  rfl

theorem sub_append (pre s post : Bytes) :
    sub (pre ++ (s ++ post)) (pre.length + 1) (pre.length + s.length) = s := by
  rw [sub, Nat.add_sub_cancel, drop_left, Nat.add_sub_add_right, Nat.add_sub_cancel_left, take_left]

theorem nameAt_wire (h : Labels ls) (pre post : Bytes) :
    NameAt (pre ++ (wire ls ++ (0 :: post))) (pre.length + 1) (ls.map .label) := by
  induction ls generalizing pre with
  | nil => exact .root (byte_append pre post 0)
  | cons l ls ih =>
    obtain ⟨hpos, hsmall, -⟩ := h l mem_cons_self
    have hsize : l.length.toUInt8.toNat = l.length := by
      rw [toUInt8_eq, UInt8.toNat_ofNat']
      exact mod_eq_of_lt (by omega)
    have hbuf : pre ++ (wire (l :: ls) ++ (0 :: post)) =
        (pre ++ [l.length.toUInt8]) ++ (l ++ (wire ls ++ (0 :: post))) := by
      rw [wire_cons]
      simp
    have hlength : (pre ++ [l.length.toUInt8]).length = pre.length + 1 := length_append
    have hfirst : byte (pre ++ (wire (l :: ls) ++ (0 :: post))) (pre.length + 1) = some l.length := by
      rw [hbuf, append_assoc, singleton_append, byte_append, hsize]
    have hlabel : sub (pre ++ (wire (l :: ls) ++ (0 :: post))) (pre.length + 1 + 1) (pre.length + 1 +
      l.length) = l := by
      rw [hbuf, ← hlength, sub_append]
    have hrest := ih h.tail (pre ++ [l.length.toUInt8] ++ l)
    have hin : pre.length + 1 + l.length ≤ (pre ++ (wire (l :: ls) ++ (0 :: post))).length := by
      rw [hbuf, length_append, hlength, length_append]
      omega
    rw [append_assoc, ← hbuf, length_append, hlength] at hrest
    have hname := NameAt.label hfirst hpos (by omega) hin hrest
    rwa [hlabel] at hname

theorem labelsWithin_labels (n : Nat) (ls : List Bytes) : labelsWithin (n + 1) (ls.map .label) = ls := by
  induction ls with
  | nil => rfl
  | cons l ls ih => exact congrArg (l :: ·) ih

theorem nameSize_labels (ls : List Bytes) : nameSize (ls.map .label) = (wire ls).length + 1 := by
  induction ls with
  | nil => rfl
  | cons l ls ih =>
    rw [map_cons, nameSize, ih, wire_cons, length_append, length_cons]
    omega

/-! ## Requests -/

theorem char_ok {n : Nat} (h : n < 256) : char n = .ok [n.toUInt8] := if_pos h

theorem byte_first (qname : Bytes) : byte qname 1 = some DOT_CHAR.toNat ↔ qname.head? = some DOT_CHAR := by
  cases qname with
  | nil => exact iff_of_false (fun h => by cases h) fun h => by cases h
  | cons c rest =>
    rw [head?_cons, Option.some.injEq]
    exact ⟨fun h => UInt8.toNat_inj.mp (Option.some.inj h), fun h => by rw [h]; rfl⟩

/-- The request for an encoded name -/
def requestFor (id : UInt16) (no_recurse : Bool) (qtype : Option Nat) (name : Bytes) : Request where
  ident_hi := [(id.toNat >>> 8).toUInt8]
  ident_lo := [(id.toNat &&& 0xff).toUInt8]
  flags := if no_recurse then [0, 0] else [1, 0]
  nqs := [0, 1]
  nan := [0, 0]
  nns := [0, 0]
  nar := [0, 0]
  name := name ++ [0]
  typ := [0, (qtype.getD TYPE_A).toUInt8]
  «class» := [0, 1]

/-- `_build_request` from its checks. -/
theorem build_request_cases (qname : Bytes) (id : UInt16) (no_recurse : Bool) (qtype : Option Nat) :
    (256 ≤ qtype.getD TYPE_A ∧ build_request qname id no_recurse qtype = .error .raise) ∨
      (qname.head? = some DOT_CHAR ∧
        build_request qname id no_recurse qtype = .error (.nil (.message "bad name"))) ∨
      qtype.getD TYPE_A < 256 ∧ qname.head? ≠ some DOT_CHAR ∧
        build_request qname id no_recurse qtype = (gsubName qname).map (requestFor id no_recurse qtype) := by
  have hhi : id.toNat >>> 8 < 256 := by
    have hid : id.toNat < 65536 := id.toNat_lt
    rw [shiftRight_eq_div_pow]
    omega
  have hlo : id.toNat &&& 0xff < 256 := lt_succ_of_le and_le_right
  rw [build_request, char_ok hhi, char_ok hlo]
  by_cases htype : qtype.getD TYPE_A < 256
  · rw [char_ok htype]
    by_cases hdot : qname.head? = some DOT_CHAR
    · refine .inr (.inl ⟨hdot, ?_⟩)
      simp only [bind, Except.bind, if_pos ((byte_first qname).mpr hdot)]
      rfl
    · refine .inr (.inr ⟨htype, hdot, ?_⟩)
      simp only [bind, Except.bind, if_neg (mt (byte_first qname).mp hdot)]
      cases gsubName qname <;> rfl
  · exact .inl ⟨Nat.le_of_not_lt htype, by rw [char, if_neg htype]; rfl⟩

/-- A request for labels is right. -/
theorem right_of_labels (hls : Labels ls) (hspells : Spells ls qname) (hname : r.name = wire ls ++ [0]) :
    r.Right qname := by
  have hbytes : r.bytes = r.header ++ (wire ls ++ (0 :: (r.typ ++ r.«class»))) := by
    rw [Request.bytes, hname, append_assoc, singleton_append]
  have hat := nameAt_wire hls r.header (r.typ ++ r.«class»)
  rw [← hbytes] at hat
  refine ⟨ls, hls, hspells, hat, ?_⟩
  rw [decode_name_at hat, labelsWithin_labels, nameSize_labels, hname, length_append, length_singleton]
  congr 2
  omega

/-- **Every request that is built is right exactly where none is built, or the
name is a list of labels.** -/
theorem build_request_iff (qname : Bytes) (id : UInt16) (no_recurse : Bool) (qtype : Option Nat) :
    (∀ r, build_request qname id no_recurse qtype = .ok r → r.Right qname) ↔
      256 ≤ qtype.getD TYPE_A ∨ qname.head? = some DOT_CHAR ∨ (∃ l ∈ qname.splitOn DOT_CHAR, 256 ≤ l.length) ∨
        ∃ ls, Labels ls ∧ Spells ls qname := by
  rcases build_request_cases qname id no_recurse qtype with ⟨htype, hraise⟩ | ⟨hdot, hrefused⟩ |
    ⟨htype, hdot, hbuilt⟩
  · exact iff_of_true (fun r hr => by cases hraise.symm.trans hr) (.inl htype)
  · exact iff_of_true (fun r hr => by cases hrefused.symm.trans hr) (.inr (.inl hdot))
  · rw [hbuilt]
    cases hname : gsubName qname with
    | error e =>
      refine iff_of_true (fun r hr => by cases hr) (.inr (.inr (.inl ?_)))
      by_contra hshort
      push Not at hshort
      obtain ⟨name, hname'⟩ := (gsubName_ok_iff qname).mpr hshort
      cases hname.symm.trans hname'
    | ok name =>
      constructor
      · intro h
        obtain ⟨ls, hls, hspells, -⟩ := h _ rfl
        exact .inr (.inr (.inr ⟨ls, hls, hspells⟩))
      · rintro (htype' | hfirst | ⟨l, hl, hlong⟩ | ⟨ls, hls, hspells⟩) r hr
        · omega
        · exact absurd hfirst hdot
        · have hshort := (gsubName_ok_iff qname).mp ⟨name, hname⟩ l hl
          omega
        · cases hr
          obtain ⟨hplain, hdotted⟩ := gsubName_wire hls
          refine right_of_labels hls hspells (congrArg (· ++ [0]) (Except.ok.inj (hname.symm.trans ?_)))
          rcases hspells with rfl | rfl
          · exact hplain
          · -- a dot alone is refused
            exact hdotted fun hnil => hdot (by rw [hnil]; rfl)

/-- The second dot of a..b is sent as a length of 46. -/
theorem build_request_emptyLabel :
    ¬ ∀ r, build_request [0x61, 0x2e, 0x2e, 0x62] 7 true none = .ok r → r.Right [0x61, 0x2e, 0x2e, 0x62] := by
  have hname : gsubName [0x61, 0x2e, 0x2e, 0x62] = .ok [1, 0x61, 0x2e, 1, 0x62] := by
    have hlast : gsubName [0x62] = .ok [1, 0x62] := gsubName_last (by decide) (by decide) (by decide)
    have hdot : gsubName [0x2e, 0x62] = .ok [0x2e, 1, 0x62] := by
      rw [gsubName, if_pos (by decide), hlast]
      rfl
    have hfirst := @gsubName_label [0x61] (by decide) (by decide) (by decide) [0x2e, 0x62]
    rw [hdot] at hfirst
    exact hfirst
  have hbuilt : build_request [0x61, 0x2e, 0x2e, 0x62] 7 true none =
      .ok (requestFor 7 true none [1, 0x61, 0x2e, 1, 0x62]) := by
    rcases build_request_cases [0x61, 0x2e, 0x2e, 0x62] 7 true none with ⟨htype, -⟩ | ⟨hdot, -⟩ | ⟨-, -, hbuilt⟩
    · exact absurd htype (by decide)
    · exact absurd hdot (by decide)
    · rw [hbuilt, hname]
      rfl
  intro h
  obtain ⟨ls, -, -, -, hdecoded⟩ := h _ hbuilt
  -- the label of 46 bytes has no end
  have hoff : RunsOff (requestFor 7 true none [1, 0x61, 0x2e, 1, 0x62]).bytes 0 13 :=
    .label (by decide) rfl (by decide) (by decide) (.label (by decide) rfl (by decide) (by decide)
      (.first (by decide) rfl))
  cases hdecoded.symm.trans (decodeLoop_of_runsOff hoff 13 [])

end OpenResty.Resty.DnsResolver
