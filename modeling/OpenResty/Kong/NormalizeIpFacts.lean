/-
`normalize_ip` on two texts: what it returns for an address, and that it reads back what
`format_host` writes.
-/
import Mathlib.Data.List.Forall2
import OpenResty.Kong.NormalizeIpGroups
import OpenResty.Lib.Memory

namespace OpenResty.Kong.NormalizeIp

open Lib.Backtrack List Nat
open Lib (forall_byte)
open Option hiding map_map
open Lib.Resp (decimal digit decimal_induction decimal_of_lt decimal_of_le decimal_ne_nil mem_decimal)
open Resty.DnsAddr

variable {t u a b : Bytes} {c d : UInt8} {gs gs' : List Group} {n : Nat} {port : Option Nat}

/-! ## Hosts -/

def hexDigit (n : Nat) : UInt8 := if n < 10 then UInt8.ofNat (48 + n) else UInt8.ofNat (87 + n)

/-- A number in four digits. -/
def hex4 (n : Nat) : Bytes :=
  [hexDigit (n / 4096 % 16), hexDigit (n / 256 % 16), hexDigit (n / 16 % 16), hexDigit (n % 16)]

/-- The host that stands for an address. -/
def Address.host : Address → Bytes
  | .ipv4 ns => [DOT_CHAR].intercalate (ns.map decimal)
  | .ipv6 ns => [COLON_CHAR].intercalate (ns.map hex4)

/-- The value of a digit. -/
def valueOf (d : UInt8) : Nat := (digitValue d).getD 0

theorem hex_spec : ∀ d, isHex d = true → valueOf d < 16 ∧ lower d = hexDigit (valueOf d) ∧ d ≠ LEFT_BRACKET ∧
    d ≠ RIGHT_BRACKET := forall_byte (by decide +kernel)

theorem hexDigit_spec (hn : n < 16) :
    valueOf (hexDigit n) = n ∧ isHex (hexDigit n) = true ∧ lower (hexDigit n) = hexDigit n := by
  revert n
  decide

theorem foldl_zeros (k : Nat) (t : Bytes) :
    (replicate k ZERO_CHAR ++ t).foldl (fun v d => 16 * v + valueOf d) 0 = t.foldl
      (fun v d => 16 * v + valueOf d) 0 := by
  induction k with
  | zero => rfl
  | succ k ih => exact ih

/-- A group is padded to the four digits of its value. -/
theorem padded_eq (g : Group) : padded g.text = hex4 g.value ∧ g.value < 65536 := by
  have hzeros := foldl_zeros (4 - g.text.length) g.text
  have hvalue : g.text.foldl (fun v d => 16 * v + valueOf d) 0 = g.value := rfl
  have hhex : ∀ d ∈ replicate (4 - g.text.length) ZERO_CHAR ++ g.text, isHex d = true := by
    intro d hd
    rcases mem_append.mp hd with hzero | hd
    · rw [eq_of_mem_replicate hzero]
      decide
    · exact g.digits d hd
  have hlength : (replicate (4 - g.text.length) ZERO_CHAR ++ g.text).length = 4 := by
    have := g.length.2
    simp only [length_append, length_replicate]
    omega
  rw [hvalue] at hzeros
  rw [padded]
  generalize replicate (4 - g.text.length) ZERO_CHAR ++ g.text = t at *
  obtain ⟨a, b, c, d, rfl⟩ : ∃ a b c d, t = [a, b, c, d] := by
    match t, hlength with
    | [a, b, c, d], _ => exact ⟨a, b, c, d, rfl⟩
  obtain ⟨ha, hla, -⟩ := hex_spec a (hhex a (by simp))
  obtain ⟨hb, hlb, -⟩ := hex_spec b (hhex b (by simp))
  obtain ⟨hc, hlc, -⟩ := hex_spec c (hhex c (by simp))
  obtain ⟨hd, hld, -⟩ := hex_spec d (hhex d (by simp))
  simp only [foldl_cons, foldl_nil] at hzeros
  rw [← hzeros, hex4, map_cons, map_cons, map_cons, map_cons, map_nil, hla, hlb, hlc, hld]
  have hdigits : ∀ n, n = 16 * (16 * (16 * (16 * 0 + valueOf a) + valueOf b) + valueOf c) + valueOf d →
      n / 4096 % 16 = valueOf a ∧ n / 256 % 16 = valueOf b ∧ n / 16 % 16 = valueOf c ∧ n % 16 = valueOf d := by
    rintro n rfl
    omega
  obtain ⟨hfirst, hsecond, hthird, hfourth⟩ := hdigits _ rfl
  rw [hfirst, hsecond, hthird, hfourth]
  exact ⟨rfl, by omega⟩

theorem host_groups (gs : List Group) :
    [COLON_CHAR].intercalate ((gs.map Group.text).map padded) = (Address.ipv6 (gs.map Group.value)).host := by
  rw [Address.host, map_map, map_map]
  congr 1
  exact map_congr_left fun g _ => (padded_eq g).1

/-- The digits of a number, as a group. -/
def hexGroup (n : Nat) : Group where
  text := hex4 n
  length := ⟨succ_pos _, Nat.le_refl 4⟩
  digits := by
    intro d hd
    have hspec : ∀ k, isHex (hexDigit (k % 16)) = true := fun k => (hexDigit_spec (mod_lt k (by decide))).2.1
    have hspec' : isHex (hexDigit (n / 4096 % 16)) = true := hspec (n / 4096)
    rw [hex4] at hd
    simp only [mem_cons, not_mem_nil, or_false] at hd
    rcases hd with rfl | rfl | rfl | rfl
    · exact hspec _
    · exact hspec _
    · exact hspec _
    · exact hspec _

theorem value_hexGroup (hn : n < 65536) : (hexGroup n).value = n := by
  have hspec : ∀ k, valueOf (hexDigit (k % 16)) = k % 16 := fun k => (hexDigit_spec (mod_lt k (by decide))).1
  have hvalue : (hexGroup n).value = (hex4 n).foldl (fun v d => 16 * v + valueOf d) 0 := rfl
  rw [hvalue, hex4]
  simp only [foldl_cons, foldl_nil, hspec]
  omega

theorem tonumber_decimal (n : Nat) : tonumber (decimal n) = some n := by
  rw [tonumber, if_neg (decimal_ne_nil n)]
  congr 1
  have hdigit : ∀ d < 10, (digit d).toNat - 48 = d := by decide
  induction n using decimal_induction with
  | digit n hn =>
    rw [decimal_of_lt hn, foldl_cons, foldl_nil, hdigit n hn]
    omega
  | append n hn ih =>
    rw [decimal_of_le hn, foldl_append, ih, foldl_cons, foldl_nil, hdigit _ (mod_lt n (by decide))]
    omega

theorem isDigit_of_mem_decimal {n : Nat} (h : d ∈ decimal n) : isDigit d = true := by
  obtain ⟨k, hk, rfl⟩ := mem_decimal h
  have hall : ∀ k < 10, isDigit (digit k) = true := by decide
  exact hall k hk

theorem all_decimal (n : Nat) : (decimal n).all isDigit = true :=
  all_eq_true.mpr fun _ hd => isDigit_of_mem_decimal hd

theorem notMem_decimal (hc : isDigit c = false) (n : Nat) : c ∉ decimal n := by
  intro h
  rw [isDigit_of_mem_decimal h] at hc
  cases hc

theorem byte_decimal (hn : n ≤ 255) : Byte (decimal n) n := by
  refine ⟨length_pos_of_ne_nil (decimal_ne_nil n), ?_, all_decimal n, tonumber_decimal n, hn⟩
  rcases Nat.lt_or_ge n 10 with h | h
  · simp [decimal_of_lt h]
  · rw [decimal_of_le h, length_append, length_singleton]
    rcases Nat.lt_or_ge (n / 10) 10 with h' | h'
    · simp [decimal_of_lt h']
    · rw [decimal_of_le h', decimal_of_lt (by omega)]
      exact Nat.le_refl 3

theorem portText_decimal (hport : n ≤ 65535) : PortText (COLON_CHAR :: decimal n) (some n) :=
  .some (all_decimal n) (tonumber_decimal n) hport

variable {fields : List Bytes}

theorem intercalate_injective {fields' : List Bytes} (h : [c].intercalate fields = [c].intercalate fields')
    (hnot : ∀ field ∈ fields, c ∉ field) (hnot' : ∀ field ∈ fields', c ∉ field) (hne : fields ≠ [])
    (hne' : fields' ≠ []) :
    fields = fields' := by
  rw [← splitOn_intercalate c hnot hne, h, splitOn_intercalate c hnot' hne']

theorem notMem_intercalate (hc : c ≠ d) (hnot : ∀ field ∈ fields, c ∉ field) : c ∉ [d].intercalate fields := by
  induction fields with
  | nil => simp [intercalate]
  | cons field fields ih =>
    have hrest := ih fun f hf => hnot f (mem_cons_of_mem field hf)
    have hfield := hnot field (.head _)
    cases fields with
    | nil => simpa [intercalate] using hfield
    | cons field' fields =>
      rw [intercalate_cons_cons]
      simp only [mem_append, mem_singleton, not_or]
      exact ⟨⟨hfield, hc⟩, hrest⟩

/-- As many numbers as an address has, each of its size. -/
def Address.Plain : Address → Prop
  | .ipv4 ns => ns.length = 4 ∧ ∀ n ∈ ns, n ≤ 255
  | .ipv6 ns => ns.length = 8 ∧ ∀ n ∈ ns, n < 65536

theorem hex4_injective {m n : Nat} (hm : m < 65536) (hn : n < 65536) (h : hex4 m = hex4 n) : m = n := by
  rw [← value_hexGroup hm, ← value_hexGroup hn]
  exact congrArg Group.value (Resty.DnsAddr.Group.ext h)

theorem notMem_hex4 (hc : isHex c = false) (n : Nat) : c ∉ hex4 n := by
  intro h
  have := (hexGroup n).digits c h
  rw [show (digitValue c).isSome = isHex c from rfl, hc] at this
  cases this

theorem map_injective_of {α β : Type} {f : α → β} {l l' : List α} (h : ∀ x ∈ l, ∀ y ∈ l', f x = f y → x = y)
    (hmap : l.map f = l'.map f) : l = l' := by
  induction l generalizing l' with
  | nil => simpa using hmap.symm
  | cons x l ih =>
    cases l' with
    | nil => simp at hmap
    | cons y l' =>
      obtain ⟨hxy, hrest⟩ := List.cons.inj hmap
      rw [h x (.head _) y (.head _) hxy,
        ih (fun x hx y hy => h x (mem_cons_of_mem _ hx) y (mem_cons_of_mem _ hy)) hrest]

variable {ns : List Nat}

theorem colon_mem_host (h : ns.length = 8) : COLON_CHAR ∈ (Address.ipv6 ns).host := by
  obtain ⟨m, n, ns, rfl⟩ : ∃ m n rest, ns = m :: n :: rest := by
    match ns, h with
    | m :: n :: ns, _ => exact ⟨m, n, ns, rfl⟩
  rw [Address.host, map_cons, map_cons, intercalate_cons_cons]
  simp

theorem colon_notMem_host (ns : List Nat) : COLON_CHAR ∉ (Address.ipv4 ns).host := by
  refine notMem_intercalate (by decide) fun field hfield => ?_
  obtain ⟨n, -, rfl⟩ := mem_map.mp hfield
  exact notMem_decimal (by decide) n

/-- A host stands for one address. -/
theorem host_injective {x y : Address} (hx : x.Plain) (hy : y.Plain) (h : x.host = y.host) : x = y := by
  have hne : ∀ {ns : List Nat} {k : Nat} (f : Nat → Bytes), ns.length = k → 0 < k → ns.map f ≠ [] := by
    rintro ns k f rfl hk hnil
    rw [map_eq_nil_iff] at hnil
    subst hnil
    cases hk
  cases x with
  | ipv4 ms =>
    cases y with
    | ipv4 ns =>
      have hdot : ∀ ns : List Nat, ∀ field ∈ ns.map decimal, DOT_CHAR ∉ field := by
        intro ns field hfield
        obtain ⟨n, -, rfl⟩ := mem_map.mp hfield
        exact notMem_decimal (by decide) n
      have hfields := intercalate_injective h (hdot ms) (hdot ns) (hne _ hx.1 (by decide)) (hne _ hy.1 (by decide))
      congr 1
      refine map_injective_of (fun m _ n _ hmn => ?_) hfields
      exact some.inj ((tonumber_decimal m).symm.trans ((congrArg tonumber hmn).trans (tonumber_decimal n)))
    | ipv6 ns => exact absurd (h ▸ colon_mem_host hy.1) (colon_notMem_host ms)
  | ipv6 ms =>
    cases y with
    | ipv4 ns => exact absurd (h ▸ colon_mem_host hx.1) (colon_notMem_host ns)
    | ipv6 ns =>
      have hcolon : ∀ ns : List Nat, ∀ field ∈ ns.map hex4, COLON_CHAR ∉ field := by
        intro ns field hfield
        obtain ⟨n, -, rfl⟩ := mem_map.mp hfield
        exact notMem_hex4 (by decide) n
      have hfields := intercalate_injective h (hcolon ms) (hcolon ns)
        (hne _ hx.1 (by decide)) (hne _ hy.1 (by decide))
      congr 1
      exact map_injective_of (fun m hm n hn hmn => hex4_injective (hx.2 m hm) (hy.2 n hn) hmn) hfields

/-! ## IPv6 -/

theorem Reads.two_colons (h : Reads t gs) : 1 < t.count COLON_CHAR := by
  cases h with
  | full first last gs hlength =>
    have hedge : ∀ b, (edge b).count COLON_CHAR = b.toNat := by decide
    have hle := Bool.toNat_le first
    have hle' := Bool.toNat_le last
    rw [List.count_append, List.count_append, hedge, hedge, count_text]
    omega
  | pair first last pre rest hpre hrest hlength =>
    have htwo : [COLON_CHAR, COLON_CHAR].count COLON_CHAR = 2 := rfl
    simp only [List.count_append, htwo]
    omega

theorem hostname_type_ipv6 (h : 1 < a.count COLON_CHAR) : hostname_type a = .ipv6 := if_pos h

theorem Reads.notMem (h : Reads t gs) : LEFT_BRACKET ∉ t ∧ RIGHT_BRACKET ∉ t := by
  have hbracket : ∀ c, c ≠ COLON_CHAR → isHex c = false → c ∉ t := by
    intro c hcolon hc
    have htext : ∀ gs : List Group, c ∉ text gs := by
      intro gs
      rw [← intercalate_text]
      refine notMem_intercalate hcolon fun field hfield hmem => ?_
      obtain ⟨g, -, rfl⟩ := mem_map.mp hfield
      rw [show isHex c = (digitValue c).isSome from rfl, g.digits c hmem] at hc
      cases hc
    have hedge : ∀ b, c ∉ edge b := by
      intro b
      cases b <;> simp [edge, hcolon]
    cases h with
    | full first last gs hlength => simp [htext, hedge]
    | pair first last pre rest hpre hrest hlength => simp [htext, hedge, hcolon]
  exact ⟨hbracket _ (by decide) (by decide), hbracket _ (by decide) (by decide)⟩

theorem closing_cons (depth : Nat) (c : UInt8) (t : Bytes) :
    closing depth (c :: t) =
      if c = RIGHT_BRACKET then
        match depth with
        | 0 => some ([], t)
        | depth + 1 => (closing depth t).map fun (check, rest) => (c :: check, rest)
      else
        (closing (if c = LEFT_BRACKET then depth + 1 else depth) t).map fun (check, rest) => (c :: check, rest) := by
  cases depth <;> rfl

theorem closing_append (hleft : LEFT_BRACKET ∉ t) (hright : RIGHT_BRACKET ∉ t) (u : Bytes) :
    closing 0 (t ++ RIGHT_BRACKET :: u) = some (t, u) := by
  induction t with
  | nil => rfl
  | cons c t ih =>
    rw [mem_cons, not_or] at hleft hright
    rw [cons_append, closing_cons, if_neg (Ne.symm hright.1), if_neg (Ne.symm hleft.1), ih hleft.2 hright.2]
    rfl

theorem closing_eq {depth : Nat} (h : closing depth a = some (t, u)) : a = t ++ RIGHT_BRACKET :: u := by
  induction a generalizing depth t with
  | nil => cases h
  | cons c a ih =>
    rw [closing_cons] at h
    split at h
    · next hc =>
      split at h
      · cases h
        rw [hc]
        rfl
      · obtain ⟨⟨check, rest⟩, hclosing, hcons⟩ := map_eq_some_iff.mp h
        cases hcons
        rw [ih hclosing]
        rfl
    · obtain ⟨⟨check, rest⟩, hclosing, hcons⟩ := map_eq_some_iff.mp h
      cases hcons
      rw [ih hclosing]
      rfl

theorem brackets_append (h : Reads t gs) (u : Bytes) :
    brackets (LEFT_BRACKET :: t ++ RIGHT_BRACKET :: u) = some (t, u) := closing_append h.notMem.1 h.notMem.2 u

theorem brackets_eq (h : brackets a = some (t, u)) : a = LEFT_BRACKET :: t ++ RIGHT_BRACKET :: u := by
  cases a with
  | nil => cases h
  | cons c a =>
    rw [brackets] at h
    split at h
    · next hc => rw [hc, closing_eq h, cons_append]
    · cases h

theorem brackets_of_notMem (h : LEFT_BRACKET ∉ a) : brackets a = none := by
  cases a with
  | nil => rfl
  | cons c a =>
    have hc : c ≠ LEFT_BRACKET := fun hc => h (hc ▸ .head a)
    exact if_neg hc

/-- The eight groups of a text in brackets or alone. -/
inductive ReadsWrapped : Bytes → List Group → Option Nat → Prop
  | plain {t : Bytes} {gs : List Group} (h : Reads t gs) : ReadsWrapped t gs none
  | bracketed {t suffix : Bytes} {gs : List Group} {port : Option Nat} (h : Reads t gs)
      (hport : PortText suffix port) :
      ReadsWrapped (LEFT_BRACKET :: t ++ RIGHT_BRACKET :: suffix) gs port

variable {host name suffix : Bytes}

theorem normalizeGroups_iff {p : Option Nat} : normalizeGroups a t port = .returns (host, p) ↔
    p = port ∧ ∃ gs, Reads t gs ∧ host = (Address.ipv6 (gs.map Group.value)).host := by
  rw [normalizeGroups]
  constructor
  · intro h
    split at h
    · next fields hfields =>
      obtain ⟨gs, hreads, rfl⟩ := captures_expand.mp hfields
      cases h
      exact ⟨rfl, gs, hreads, host_groups gs⟩
    · cases h
  · rintro ⟨rfl, gs, hreads, rfl⟩
    rw [captures_expand.mpr ⟨gs, hreads, rfl⟩]
    dsimp only
    rw [host_groups]

variable {message : String}

theorem normalizeGroups_total : normalizeGroups a t port ≠ .raises message := by
  rw [normalizeGroups]
  intro h
  split at h
  · cases h
  · cases h

/-- What `normalize_ipv6` accepts. -/
theorem normalize_ipv6_iff : normalize_ipv6 a = .returns (host, port) ↔
    ∃ gs, ReadsWrapped a gs port ∧ host = (Address.ipv6 (gs.map Group.value)).host := by
  constructor
  · intro h
    rw [normalize_ipv6] at h
    split at h
    · obtain ⟨rfl, gs, hreads, rfl⟩ := normalizeGroups_iff.mp h
      exact ⟨gs, .plain hreads, rfl⟩
    · next check hbrackets =>
      obtain ⟨rfl, gs, hreads, rfl⟩ := normalizeGroups_iff.mp h
      exact ⟨gs, brackets_eq hbrackets ▸ .bracketed hreads .none, rfl⟩
    · next check c ds hbrackets =>
      split at h
      · next hport =>
        split at h
        · cases h
        · next number hnumber =>
          split at h
          · cases h
          · next hle =>
            obtain ⟨rfl, gs, hreads, rfl⟩ := normalizeGroups_iff.mp h
            refine ⟨gs, brackets_eq hbrackets ▸ .bracketed hreads ?_, rfl⟩
            rw [hport.1]
            exact .some hport.2 hnumber (Nat.le_of_not_lt hle)
      · cases h
  · rintro ⟨gs, hreads, rfl⟩
    cases hreads with
    | plain hreads =>
      rw [normalize_ipv6, brackets_of_notMem hreads.notMem.1]
      exact normalizeGroups_iff.mpr ⟨rfl, gs, hreads, rfl⟩
    | bracketed hreads hport =>
      rw [normalize_ipv6, brackets_append hreads]
      cases hport with
      | none => exact normalizeGroups_iff.mpr ⟨rfl, gs, hreads, rfl⟩
      | some hdigits hnumber hle =>
        dsimp only
        rw [if_pos ⟨rfl, hdigits⟩, hnumber]
        dsimp only
        rw [if_neg (Nat.not_lt.mpr hle)]
        exact normalizeGroups_iff.mpr ⟨rfl, gs, hreads, rfl⟩

/-- What `normalize_ipv6` raises on: a colon without a port. -/
theorem normalize_ipv6_raises : (∃ message, normalize_ipv6 a = .raises message) ↔
    ∃ check, brackets a = some (check, [COLON_CHAR]) := by
  constructor
  · rintro ⟨message, h⟩
    rw [normalize_ipv6] at h
    split at h
    · exact absurd h normalizeGroups_total
    · exact absurd h normalizeGroups_total
    · next check c ds hbrackets =>
      split at h
      · next hport =>
        split at h
        · next hnumber =>
          have hnil : ds = [] := by
            by_contra hne
            rw [tonumber, if_neg hne] at hnumber
            cases hnumber
          subst hnil
          exact ⟨check, by rw [hbrackets, hport.1]⟩
        · split at h
          · cases h
          · exact absurd h normalizeGroups_total
      · cases h
  · rintro ⟨check, hbrackets⟩
    refine ⟨"attempt to compare number with nil", ?_⟩
    rw [normalize_ipv6, hbrackets]
    rfl

/-! ## IPv4 -/

theorem notMem_digits (hc : isDigit c = false) (h : t.all isDigit = true) : c ∉ t := by
  intro hmem
  rw [all_eq_true.mp h c hmem] at hc
  cases hc

theorem PortText.count (h : PortText suffix port) : suffix.count COLON_CHAR ≤ 1 := by
  cases h with
  | none => exact Nat.zero_le 1
  | some hdigits hport hle =>
    rw [count_cons_self, count_eq_zero.mpr (notMem_digits (by decide) hdigits)]

theorem PortText.le (h : PortText suffix port) : ¬ 65535 < port.getD 0 := by
  cases h with
  | none => decide
  | some hdigits hport hle => exact Nat.not_lt.mpr hle

theorem bytes_of_fields
    (h : ∀ field ∈ fields, 0 < field.length ∧ field.length ≤ 3 ∧ field.all isDigit = true)
    (hle : ¬ ∃ n ∈ fields.filterMap tonumber, 255 < n) : Forall₂ Byte fields (fields.filterMap tonumber) := by
  induction fields with
  | nil => exact .nil
  | cons field fields ih =>
    obtain ⟨hpos, hlength, hdigits⟩ := h field (.head _)
    obtain ⟨n, hn⟩ : ∃ n, tonumber field = some n := by
      rw [tonumber, if_neg (ne_nil_of_length_pos hpos)]
      exact ⟨_, rfl⟩
    rw [filterMap_cons_some hn] at hle ⊢
    refine .cons ⟨hpos, hlength, hdigits, hn, ?_⟩ (ih (fun f hf => h f (mem_cons_of_mem _ hf)) ?_)
    · exact Nat.le_of_not_lt fun hlt => hle ⟨n, .head _, hlt⟩
    · rintro ⟨m, hm, hlt⟩
      exact hle ⟨m, mem_cons_of_mem _ hm, hlt⟩

theorem fields_of_bytes (h : Forall₂ Byte fields ns) :
    (∀ field ∈ fields, 0 < field.length ∧ field.length ≤ 3 ∧ field.all isDigit = true) ∧
      fields.filterMap tonumber = ns ∧ ∀ n ∈ ns, n ≤ 255 := by
  induction h with
  | nil => simp
  | cons hbyte _ ih =>
    obtain ⟨hpos, hlength, hdigits, hnumber, hle⟩ := hbyte
    obtain ⟨hfields, hmap, hall⟩ := ih
    rw [filterMap_cons_some hnumber, hmap]
    exact ⟨forall_mem_cons.mpr ⟨⟨hpos, hlength, hdigits⟩, hfields⟩, rfl, forall_mem_cons.mpr ⟨hle, hall⟩⟩

/-- Four numbers, with a port or without one. -/
inductive Quad : Bytes → List Nat → Option Nat → Prop
  | intro {fields : List Bytes} {ns : List Nat} {suffix : Bytes} {port : Option Nat} (hlength : fields.length = 4)
      (hfields : Forall₂ Byte fields ns) (h : PortText suffix port) :
      Quad ([DOT_CHAR].intercalate fields ++ suffix) ns port

theorem Quad.colon_notMem (h : Forall₂ Byte fields ns) : COLON_CHAR ∉ [DOT_CHAR].intercalate fields :=
  notMem_intercalate (by decide) fun field hfield => notMem_digits (by decide) ((fields_of_bytes h).1 field hfield).2.2

theorem takeWhile_colon (h : COLON_CHAR ∉ t) (u : Bytes) : (t ++ COLON_CHAR :: u).takeWhile (· ≠ COLON_CHAR) = t := by
  have hall : ∀ c ∈ t, decide (c ≠ COLON_CHAR) = true := fun c hc => decide_eq_true fun heq => h (heq ▸ hc)
  rw [takeWhile_append_of_pos hall, takeWhile_cons_of_neg (by simp), append_nil]

theorem dropWhile_colon (h : COLON_CHAR ∉ t) (u : Bytes) :
    ((t ++ COLON_CHAR :: u).dropWhile (· ≠ COLON_CHAR)).drop 1 = u := by
  have hall : ∀ c ∈ t, decide (c ≠ COLON_CHAR) = true := fun c hc => decide_eq_true fun heq => h (heq ▸ hc)
  rw [dropWhile_append_of_pos hall, dropWhile_cons_of_neg (by simp)]
  rfl

theorem normalize_ipv4_of_quad (h : Quad a ns port) : normalize_ipv4 a = .returns ((Address.ipv4 ns).host, port) := by
  obtain ⟨hlength, hfields, hport⟩ := h
  next fields suffix =>
  obtain ⟨hdigits, hmap, hall⟩ := fields_of_bytes hfields
  have hnot := Quad.colon_notMem hfields
  have hcaptures : captures isDigit 3 DOT_CHAR 4 ([DOT_CHAR].intercalate fields) = some fields :=
    (captures_iff (by decide) (by decide)).mpr ⟨rfl, hlength, hdigits⟩
  have hbytes : ¬ ∃ n ∈ ns, 255 < n := by
    rintro ⟨n, hn, hlt⟩
    exact absurd (hall n hn) (Nat.not_le.mpr hlt)
  rw [normalize_ipv4]
  cases hport with
  | none =>
    rw [append_nil, if_neg hnot, hcaptures, map_some, hmap]
    dsimp only
    rw [if_neg hbytes]
    rfl
  | some hds hnumber hle =>
    next ds n =>
    have hne : ds ≠ [] := by
      rintro rfl
      cases hnumber
    rw [if_pos (by simp), takeWhile_colon hnot, dropWhile_colon hnot, if_pos ⟨hne, hds⟩, hcaptures, map_some, hmap, hnumber]
    dsimp only
    rw [if_neg hbytes, if_neg (show ¬ 65535 < (some n).getD 0 from Nat.not_lt.mpr hle)]
    rfl

theorem quad_of_normalize_ipv4 (h : normalize_ipv4 a = .returns (host, port)) :
    ∃ ns, Quad a ns port ∧ host = (Address.ipv4 ns).host := by
  have hquad : ∀ {t suffix : Bytes} {fields : List Bytes}, captures isDigit 3 DOT_CHAR 4 t = some fields →
      PortText suffix port → (¬ ∃ n ∈ fields.filterMap tonumber, 255 < n) → a = t ++ suffix →
      Quad a (fields.filterMap tonumber) port := by
    rintro t suffix fields hcaptures hport hle rfl
    obtain ⟨rfl, hlength, hfields⟩ := (captures_iff (by decide) (by decide)).mp hcaptures
    exact .intro hlength (bytes_of_fields hfields hle) hport
  rw [normalize_ipv4] at h
  split at h
  · next quad p hmatched =>
    split at h
    · cases h
    · next hbytes =>
      split at h
      · cases h
      · next hle =>
        cases h
        by_cases hcolon : COLON_CHAR ∈ a
        · obtain ⟨before, behind, rfl, hnot⟩ := eq_append_cons_of_mem hcolon
          rw [if_pos hcolon, takeWhile_colon hnot, dropWhile_colon hnot] at hmatched
          dsimp only at hmatched
          split at hmatched
          · next hport =>
            obtain ⟨fields, hcaptures, heq⟩ := map_eq_some_iff.mp hmatched
            obtain ⟨n, hn⟩ : ∃ n, tonumber behind = some n := by
              rw [tonumber, if_neg hport.1]
              exact ⟨_, rfl⟩
            rw [hn] at heq
            cases heq
            exact ⟨_, hquad hcaptures (.some hport.2 hn (Nat.le_of_not_lt hle)) hbytes rfl, rfl⟩
          · cases hmatched
        · rw [if_neg hcolon] at hmatched
          obtain ⟨fields, hcaptures, heq⟩ := map_eq_some_iff.mp hmatched
          cases heq
          exact ⟨_, hquad hcaptures .none hbytes (append_nil a).symm, rfl⟩
  · cases h

theorem normalize_ipv4_total : normalize_ipv4 a ≠ .raises message := by
  intro h
  rw [normalize_ipv4] at h
  split at h
  · split at h
    · cases h
    · split at h <;> cases h
  · cases h

theorem hostname_type_quad (h : Quad a ns port) : hostname_type a = .ipv4 := by
  obtain ⟨hlength, hfields, hport⟩ := h
  next fields suffix =>
  have hnot := Quad.colon_notMem hfields
  have hcount : ¬ 1 < ([DOT_CHAR].intercalate fields ++ suffix).count COLON_CHAR := by
    have := hport.count
    rw [List.count_append, count_eq_zero.mpr hnot]
    omega
  have hdigit : ∀ c ∈ [DOT_CHAR].intercalate fields, (isDigit c || decide (c = DOT_CHAR)) = true := by
    intro c hc
    by_cases hdot : c = DOT_CHAR
    · simp [hdot]
    · by_cases hisDigit : isDigit c = true
      · simp [hisDigit]
      · rw [Bool.not_eq_true] at hisDigit
        exact absurd hc (notMem_intercalate hdot fun field hfield =>
          notMem_digits hisDigit ((fields_of_bytes hfields).1 field hfield).2.2)
  have hne : fields ≠ [] := ne_nil_of_length_pos (by omega)
  obtain ⟨field, fields, rfl⟩ := exists_cons_of_ne_nil hne
  obtain ⟨c, hc⟩ := exists_mem_of_length_pos ((fields_of_bytes hfields).1 field (.head _)).1
  have hmem : c ∈ [DOT_CHAR].intercalate (field :: fields) := by
    cases fields with
    | nil => simpa [intercalate] using hc
    | cons field' fields =>
      rw [intercalate_cons_cons]
      simp [hc]
  have hcolon : c ≠ COLON_CHAR := fun heq => hnot (heq ▸ hmem)
  rw [hostname_type, if_neg hcount]
  refine if_pos ⟨ne_nil_of_mem (mem_filter.mpr ⟨mem_append_left _ hmem, by simpa using hcolon⟩), ?_⟩
  refine all_eq_true.mpr fun c hc => ?_
  obtain ⟨hc, hcolon⟩ := mem_filter.mp hc
  rcases mem_append.mp hc with hc | hc
  · exact hdigit c hc
  · cases hport with
    | none => cases hc
    | some hdigits hnumber hle =>
      rcases mem_cons.mp hc with rfl | hc
      · simp at hcolon
      · simp [all_eq_true.mp hdigits c hc]

/-! ## Names -/

variable {split : Bytes → Bytes → List Bytes}

theorem portSuffix_iff : portSuffix a = some u ↔ ∃ name, a = name ++ COLON_CHAR :: u ∧ u ≠ [] ∧
    u.all isDigit = true := by
  have hlast : ∀ {name u : Bytes}, COLON_CHAR ∉ u →
      ((name ++ COLON_CHAR :: u).reverse.takeWhile (· ≠ COLON_CHAR)).reverse = u := by
    intro name u hu
    rw [reverse_append, reverse_cons, append_assoc, singleton_append,
      takeWhile_colon (mt mem_reverse.mp hu), reverse_reverse]
  rw [portSuffix]
  constructor
  · intro h
    split at h
    · next hsuffix =>
      cases h
      obtain ⟨rest, name, hreverse, hnot⟩ := eq_append_cons_of_mem (mem_reverse.mpr hsuffix.1)
      refine ⟨name.reverse, ?_, hsuffix.2⟩
      rw [hreverse, takeWhile_colon hnot, ← reverse_reverse a, hreverse]
      simp
    · cases h
  · rintro ⟨name, rfl, hne, hdigits⟩
    rw [hlast (notMem_digits (by decide) hdigits)]
    exact if_pos ⟨by simp, hne, hdigits⟩

/-- A text that may be a name. -/
def plainName (name : Bytes) : Prop :=
  name ≠ [] ∧ name.all (fun c => isDigit c || isAlpha c || c = MINUS_CHAR || c = DOT_CHAR || c =
    UNDERSCORE_CHAR) = true

/-- What `check_hostname` accepts: a name and what follows it. -/
theorem check_hostname_iff : check_hostname split a = .returns (name, port) ↔
    (¬ ∃ segment ∈ split name [DOT_CHAR], segment = [] ∨ segment.getLast? = some MINUS_CHAR ∨
        segment.head? = some DOT_CHAR ∨ segment.getLast? = some DOT_CHAR) ∧
      plainName name ∧ ∃ suffix, PortText suffix port ∧ a = name ++ suffix := by
  have hclass : ∀ {name : Bytes}, (¬(name = [] ∨ name.all (fun c => isDigit c || isAlpha c || c = MINUS_CHAR ||
      c = DOT_CHAR || c = UNDERSCORE_CHAR) = false)) ↔ plainName name := by
    intro name
    rw [not_or, Bool.not_eq_false]
    rfl
  constructor
  · intro h
    rw [check_hostname] at h
    split at h
    · cases h
    · next hle =>
      split at h
      · cases h
      · next hplain =>
        split at h
        · cases h
        · next hsegments =>
          cases h
          refine ⟨hsegments, hclass.mp hplain, ?_⟩
          cases hport : portSuffix a with
          | none => exact ⟨[], .none, (append_nil a).symm⟩
          | some ds =>
            obtain ⟨name, rfl, hne, hdigits⟩ := portSuffix_iff.mp hport
            obtain ⟨n, hn⟩ : ∃ n, tonumber ds = some n := by
              rw [tonumber, if_neg hne]
              exact ⟨_, rfl⟩
            have hdrop : (name ++ COLON_CHAR :: ds).length - (ds.length + 1) = name.length := by simp
            rw [hport, bind_some, hn] at hle
            refine ⟨COLON_CHAR :: ds, ?_, ?_⟩
            · rw [bind_some, hn]
              exact .some hdigits hn (Nat.le_of_not_lt hle)
            · rw [elim_some, hdrop, take_left]
  · rintro ⟨hsegments, hplain, suffix, hport, rfl⟩
    have hfinish : ∀ p : Option Bytes, portSuffix (name ++ suffix) = p →
        (p.elim (name ++ suffix) fun port => (name ++ suffix).take
          ((name ++ suffix).length - (port.length + 1))) = name →
        p.bind tonumber = port → check_hostname split (name ++ suffix) = .returns (name, port) := by
      intro p hp hname hnumber
      rw [check_hostname, hp, hname, hnumber]
      rw [if_neg hport.le, if_neg (hclass.mpr hplain), if_neg hsegments]
    cases hport with
    | none =>
      rw [append_nil] at *
      refine hfinish none ?_ rfl rfl
      cases hsuffix : portSuffix name with
      | none => rfl
      | some ds =>
        obtain ⟨t, rfl, -⟩ := portSuffix_iff.mp hsuffix
        have hcolon := all_eq_true.mp hplain.2 COLON_CHAR (by simp)
        exact absurd hcolon (by decide)
    | some hdigits hnumber hle =>
      next ds n =>
      have hne : ds ≠ [] := by
        rintro rfl
        cases hnumber
      have hdrop : (name ++ COLON_CHAR :: ds).length - (ds.length + 1) = name.length := by simp
      refine hfinish (some ds) (portSuffix_iff.mpr ⟨name, rfl, hne, hdigits⟩) ?_ hnumber
      rw [elim_some, hdrop, take_left]

theorem check_hostname_total : check_hostname split a ≠ .raises message := by
  intro h
  rw [check_hostname] at h
  split at h
  · cases h
  · split at h
    · cases h
    · split at h <;> cases h

theorem hostname_type_name (hplain : plainName name) (hport : PortText suffix port) :
    hostname_type (name ++ suffix) = .name ↔ ¬ name.all (fun c => isDigit c || c = DOT_CHAR) = true := by
  have hcolon : COLON_CHAR ∉ name := by
    intro hmem
    exact absurd (all_eq_true.mp hplain.2 COLON_CHAR hmem) (by decide)
  have hcount : ¬ 1 < (name ++ suffix).count COLON_CHAR := by
    have := hport.count
    rw [List.count_append, count_eq_zero.mpr hcolon]
    omega
  have hname : name.filter (· ≠ COLON_CHAR) = name := by
    refine filter_eq_self.mpr fun c hc => ?_
    rw [decide_eq_true_eq]
    rintro rfl
    exact hcolon hc
  have hrest : (suffix.filter (· ≠ COLON_CHAR)).all (fun c => isDigit c || c = DOT_CHAR) = true := by
    cases hport with
    | none => rfl
    | some hdigits hnumber hle =>
      refine all_eq_true.mpr fun c hc => ?_
      obtain ⟨hc, hne⟩ := mem_filter.mp hc
      rcases mem_cons.mp hc with rfl | hc
      · simp at hne
      · simp [all_eq_true.mp hdigits c hc]
  rw [hostname_type, if_neg hcount]
  simp only [filter_append, hname, all_append, hrest, Bool.and_true, ne_eq, append_eq_nil_iff,
    hplain.1,
    false_and, not_false_eq_true, true_and]
  split
  · next h => simp [h]
  · next h => simp [h]

/-! ## Results -/

theorem ReadsWrapped.two_colons (h : ReadsWrapped a gs port) : 1 < a.count COLON_CHAR := by
  cases h with
  | plain h => exact h.two_colons
  | bracketed h hport =>
    have := h.two_colons
    rw [cons_append, count_cons_of_ne (by decide), List.count_append]
    omega

theorem returns_iff {ip : Ip} : normalize_ip split a = .returns ip ↔
    ip.type = hostname_type a ∧ verify_types split (hostname_type a) a = .returns (ip.host, ip.port) := by
  rw [normalize_ip]
  cases verify_types split (hostname_type a) a with
  | returns value =>
    constructor
    · intro h
      cases h
      exact ⟨rfl, rfl⟩
    · rintro ⟨htype, h⟩
      cases h
      rw [← htype]
  | fails err => exact ⟨fun h => (by cases h), fun h => (by cases h.2)⟩
  | raises message => exact ⟨fun h => (by cases h), fun h => (by cases h.2)⟩

theorem returns_ipv4 (h : Quad a ns port) :
    normalize_ip split a = .returns ⟨.ipv4, (Address.ipv4 ns).host, port⟩ := by
  have htype := hostname_type_quad h
  rw [returns_iff, htype]
  exact ⟨rfl, normalize_ipv4_of_quad h⟩

theorem returns_ipv6 (split : Bytes → Bytes → List Bytes) (h : ReadsWrapped a gs port) :
    normalize_ip split a = .returns ⟨.ipv6, (Address.ipv6 (gs.map Group.value)).host, port⟩ := by
  have htype := hostname_type_ipv6 h.two_colons
  rw [returns_iff, htype]
  exact ⟨rfl, normalize_ipv6_iff.mpr ⟨gs, h, rfl⟩⟩

/-- What is returned, by its type. -/
theorem returns_cases {ip : Ip} (h : normalize_ip split a = .returns ip) :
    (∃ ns, Quad a ns ip.port ∧ ip = ⟨.ipv4, (Address.ipv4 ns).host, ip.port⟩) ∨
      (∃ gs, ReadsWrapped a gs ip.port ∧ ip = ⟨.ipv6, (Address.ipv6 (gs.map Group.value)).host, ip.port⟩) ∨
      hostname_type a = .name ∧ ip.type = .name ∧ check_hostname split a = .returns (ip.host, ip.port) := by
  obtain ⟨htype, h⟩ := returns_iff.mp h
  obtain ⟨type, host, port⟩ := ip
  cases hname : hostname_type a with
  | ipv4 =>
    rw [hname] at htype h
    obtain ⟨ns, hquad, rfl⟩ := quad_of_normalize_ipv4 h
    cases htype
    exact .inl ⟨ns, hquad, rfl⟩
  | ipv6 =>
    rw [hname] at htype h
    obtain ⟨gs, hreads, rfl⟩ := normalize_ipv6_iff.mp h
    cases htype
    exact .inr (.inl ⟨gs, hreads, rfl⟩)
  | name =>
    rw [hname] at htype h
    exact .inr (.inr ⟨rfl, htype, h⟩)

theorem raises_iff : (∃ message, normalize_ip split a = .raises message) ↔
    hostname_type a = .ipv6 ∧ ∃ check, brackets a = some (check, [COLON_CHAR]) := by
  rw [← normalize_ipv6_raises]
  have hraises : ∀ message, normalize_ip split a = .raises message ↔
      verify_types split (hostname_type a) a = .raises message := by
    intro message
    rw [normalize_ip]
    cases verify_types split (hostname_type a) a with
    | returns value => exact ⟨fun h => (by cases h), fun h => (by cases h)⟩
    | fails err => exact ⟨fun h => (by cases h), fun h => (by cases h)⟩
    | raises message' => exact ⟨fun h => (by cases h; rfl), fun h => (by cases h; rfl)⟩
  constructor
  · rintro ⟨message, h⟩
    have hverify := (hraises message).mp h
    cases hname : hostname_type a with
    | ipv4 =>
      rw [hname] at hverify
      exact absurd hverify normalize_ipv4_total
    | ipv6 =>
      rw [hname] at hverify
      exact ⟨rfl, message, hverify⟩
    | name =>
      rw [hname] at hverify
      exact absurd hverify check_hostname_total
  · rintro ⟨htype, message, h⟩
    refine ⟨message, (hraises message).mpr ?_⟩
    rw [htype]
    exact h

theorem quad_of_denotes (h : Denotes a (.ipv4 ns)) : ∃ port, Quad a ns port := by
  cases h with
  | ipv4 hlength hfields hport => exact ⟨_, .intro hlength hfields hport⟩

theorem Quad.denotes (h : Quad a ns port) : Denotes a (.ipv4 ns) := by
  obtain ⟨hlength, hfields, hport⟩ := h
  exact .ipv4 hlength hfields hport

theorem Quad.plain (h : Quad a ns port) : (Address.ipv4 ns).Plain := by
  obtain ⟨hlength, hfields, -⟩ := h
  exact ⟨hfields.length_eq ▸ hlength, (fields_of_bytes hfields).2.2⟩

theorem readsWrapped_of {t : Bytes} (h : Wrapped a t) (hreads : Reads t gs) : ∃ port, ReadsWrapped a gs port := by
  cases h with
  | plain => exact ⟨none, .plain hreads⟩
  | bracketed t hport => exact ⟨_, .bracketed hreads hport⟩

theorem ReadsWrapped.wrapped (h : ReadsWrapped a gs port) : ∃ t, Wrapped a t ∧ Reads t gs := by
  cases h with
  | plain h => exact ⟨_, .plain _, h⟩
  | bracketed h hport => exact ⟨_, .bracketed _ hport, h⟩

theorem ReadsWrapped.plain_address (h : ReadsWrapped a gs port) : (Address.ipv6 (gs.map Group.value)).Plain := by
  obtain ⟨t, -, hreads⟩ := h.wrapped
  refine ⟨by rw [length_map, hreads.length], fun n hn => ?_⟩
  obtain ⟨g, -, rfl⟩ := mem_map.mp hn
  exact (padded_eq g).2

theorem Wrapped.unique (h : Wrapped a t) (h' : Wrapped a u) (hreads : Reads t gs) (hreads' : Reads u gs') :
    t = u := by
  cases h with
  | plain =>
    cases h' with
    | plain => rfl
    | bracketed _ hport => exact absurd (.head _) hreads.notMem.1
  | bracketed _ hport =>
    generalize ha : LEFT_BRACKET :: t ++ RIGHT_BRACKET :: _ = a at h'
    cases h' with
    | plain => exact absurd (ha ▸ .head _) hreads'.notMem.1
    | bracketed _ hport' =>
      have hbrackets := congrArg brackets ha
      rw [brackets_append hreads, brackets_append hreads'] at hbrackets
      exact congrArg Prod.fst (some.inj hbrackets)

/-- A text that denotes an address is read as its host. -/
theorem returns_of_denotes (split : Bytes → Bytes → List Bytes) {x : Address} (h : Denotes a x) :
    ∃ ip, normalize_ip split a = .returns ip ∧ ip.host = x.host ∧
      (ip.type = match x with | .ipv4 _ => .ipv4 | .ipv6 _ => .ipv6) := by
  cases x with
  | ipv4 ns =>
    obtain ⟨port, hquad⟩ := quad_of_denotes h
    exact ⟨_, returns_ipv4 hquad, rfl, rfl⟩
  | ipv6 ns =>
    cases h with
    | ipv6 hwrapped hspells =>
      obtain ⟨gs, hreads, rfl⟩ := reads_of_spells hspells
      obtain ⟨port, hreads⟩ := readsWrapped_of hwrapped hreads
      exact ⟨_, returns_ipv6 split hreads, rfl, rfl⟩

/-- Where no slip is read, what is read denotes its address. -/
theorem ReadsWrapped.denotes (h : ReadsWrapped a gs port) (hcareful : Careful a) :
    Denotes a (.ipv6 (gs.map Group.value)) := by
  obtain ⟨t, hwrapped, hreads⟩ := h.wrapped
  exact .ipv6 hwrapped (hreads.spells_or_slip.resolve_right (hcareful.groups t hwrapped))

theorem denotes_of_returns {ip : Ip} (hcareful : Careful a) (h : normalize_ip split a = .returns ip)
    (htype : ip.type ≠ .name) : ∃ x, Denotes a x ∧ x.Plain ∧ ip.host = x.host := by
  rcases returns_cases h with ⟨ns, hquad, heq⟩ | ⟨gs, hreads, heq⟩ | ⟨-, hname, -⟩
  · exact ⟨_, hquad.denotes, hquad.plain, congrArg Ip.host heq⟩
  · exact ⟨_, hreads.denotes hcareful, hreads.plain_address, congrArg Ip.host heq⟩
  · exact absurd hname htype

/-! ## What is formatted -/

def suffixOf (port : Option Nat) : Bytes := port.elim [] fun port => COLON_CHAR :: decimal port

theorem PortText.again (h : PortText suffix port) : PortText (suffixOf port) port := by
  cases h with
  | none => exact .none
  | some hdigits hnumber hle => exact portText_decimal hle

theorem forall₂_decimal (h : ∀ n ∈ ns, n ≤ 255) : Forall₂ Byte (ns.map decimal) ns := by
  induction ns with
  | nil => exact .nil
  | cons n ns ih =>
    exact .cons (byte_decimal (h n (.head _))) (ih fun m hm => h m (mem_cons_of_mem _ hm))

theorem reads_host (h : (Address.ipv6 ns).Plain) :
    ∃ gs, Reads (Address.ipv6 ns).host gs ∧ gs.map Group.value = ns := by
  have htext : (Address.ipv6 ns).host = text (ns.map hexGroup) := by
    rw [Address.host, ← intercalate_text, map_map]
    rfl
  have hreads := Reads.full false false (ns.map hexGroup) (by simpa using h.1)
  rw [zeroIf, if_neg (by decide), nil_append, append_nil, edge, if_neg (by decide), nil_append,
    append_nil, ← htext] at hreads
  refine ⟨_, hreads, ?_⟩
  rw [map_map]
  exact (map_congr_left fun n hn => value_hexGroup (h.2 n hn)).trans (map_id ns)

theorem format_host_formattable (ip : Ip) : format_host ip.formattable none =
    .returns (if ip.type = .ipv6 ∧ LEFT_BRACKET ∉ ip.host then LEFT_BRACKET :: ip.host ++ [RIGHT_BRACKET] ++
      suffixOf ip.port
      else ip.host ++ suffixOf ip.port) := by
  cases ip with
  | mk type host port => cases port <;> rfl

/-- What is returned is formatted to a text that is read the same. -/
theorem returns_format {ip : Ip} (h : normalize_ip split a = .returns ip) :
    ∃ u, format_host ip.formattable none = .returns u ∧ normalize_ip split u = .returns ip := by
  refine ⟨_, format_host_formattable ip, ?_⟩
  obtain ⟨type, host, port⟩ := ip
  rcases returns_cases h with ⟨ns, hquad, heq⟩ | ⟨gs, hreads, heq⟩ | ⟨hname, htype, hcheck⟩
  · cases heq
    obtain ⟨hlength, hall⟩ := hquad.plain
    have hport : PortText (suffixOf port) port := by
      obtain ⟨-, -, hport⟩ := hquad
      exact hport.again
    rw [if_neg (by simp)]
    exact returns_ipv4 (.intro (by rw [length_map, hlength]) (forall₂_decimal hall) hport)
  · cases heq
    obtain ⟨gs', hreads', hvalue⟩ := reads_host hreads.plain_address
    have hport : PortText (suffixOf port) port := by
      cases hreads with
      | plain => exact .none
      | bracketed _ hport => exact hport.again
    rw [if_pos ⟨rfl, hreads'.notMem.1⟩, append_assoc, singleton_append]
    have hreturns := returns_ipv6 split (.bracketed hreads' hport)
    rwa [hvalue] at hreturns
  · cases htype
    obtain ⟨hsegments, hplain, suffix, hport, rfl⟩ := check_hostname_iff.mp hcheck
    have hname' := (hostname_type_name hplain hport.again).mpr ((hostname_type_name hplain hport).mp hname)
    rw [if_neg (by simp)]
    refine returns_iff.mpr ?_
    rw [hname']
    exact ⟨rfl, check_hostname_iff.mpr ⟨hsegments, hplain, _, hport.again, rfl⟩⟩

/-- **Two texts are read right if and only if neither is a slip or ends in a colon without a port.** -/
theorem normalize_ip_right_iff (split : Bytes → Bytes → List Bytes) (a b : Bytes) : Right split a b ↔ Careful a ∧ Careful b := by
  constructor
  · intro h
    have hcareful : ∀ t ∈ [a, b], Careful t := by
      intro t ht
      refine ⟨fun htype check hbrackets => ?_, fun u hwrapped hslip => ?_⟩
      · obtain ⟨message, hraises⟩ := raises_iff.mpr ⟨htype, check, hbrackets⟩
        exact h.total t ht message hraises
      · obtain ⟨gs, hreads⟩ := reads_of_slip hslip
        obtain ⟨port, hread⟩ := readsWrapped_of hwrapped hreads
        obtain ⟨ns, hdenotes⟩ := (h.valid t ht).mp ⟨_, returns_ipv6 split hread, rfl⟩
        cases hdenotes with
        | ipv6 hwrapped' hspells =>
          obtain ⟨gs', hreads', -⟩ := reads_of_spells hspells
          obtain rfl := hwrapped.unique hwrapped' hreads hreads'
          exact not_spells_of_slip hslip hspells
    exact ⟨hcareful a (by simp), hcareful b (by simp)⟩
  · rintro ⟨ha, hb⟩
    have hcareful : ∀ t ∈ [a, b], Careful t := by
      intro t ht
      simp only [mem_cons, not_mem_nil, or_false] at ht
      rcases ht with rfl | rfl
      · exact ha
      · exact hb
    refine ⟨fun t ht message hraises => ?_, fun t ht => ⟨?_, ?_⟩, ?_, fun t _ ip h => returns_format h⟩
    · obtain ⟨htype, check, hbrackets⟩ := raises_iff.mp ⟨message, hraises⟩
      exact (hcareful t ht).port htype check hbrackets
    · rintro ⟨ip, h, htype⟩
      rcases returns_cases h with ⟨ns, -, heq⟩ | ⟨gs, hreads, -⟩ | ⟨-, hname, -⟩
      · rw [heq] at htype
        cases htype
      · exact ⟨_, hreads.denotes (hcareful t ht)⟩
      · rw [hname] at htype
        cases htype
    · rintro ⟨ns, hdenotes⟩
      obtain ⟨ip, h, -, htype⟩ := returns_of_denotes split hdenotes
      exact ⟨ip, h, htype⟩
    · intro ip ip' h h' htype htype'
      obtain ⟨x, hx, hplain, hhost⟩ := denotes_of_returns ha h htype
      obtain ⟨y, hy, hplain', hhost'⟩ := denotes_of_returns hb h' htype'
      constructor
      · intro heq
        obtain rfl := host_injective hplain hplain' (by rw [← hhost, ← hhost', heq])
        exact ⟨x, hx, hy⟩
      · rintro ⟨z, hz, hz'⟩
        obtain ⟨ip₁, h₁, hhost₁, -⟩ := returns_of_denotes split hz
        obtain ⟨ip₂, h₂, hhost₂, -⟩ := returns_of_denotes split hz'
        rw [h] at h₁
        rw [h'] at h₂
        cases h₁
        cases h₂
        rw [hhost₁, hhost₂]

/-- penlight's `split` at one byte. -/
def splitAt (t separator : Bytes) : List Bytes := t.splitOn (separator.headD 0)

/-- `[::]:` is raised on. -/
theorem not_right_without_port : ¬ Right splitAt (lit "[::]:") (lit "::") := by
  intro h
  exact h.total (lit "[::]:") (.head _) "attempt to compare number with nil" (by decide)

end OpenResty.Kong.NormalizeIp
