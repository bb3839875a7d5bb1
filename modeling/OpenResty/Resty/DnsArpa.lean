/-
`arpa_str` of `resty.dns.resolver`: the name for a reverse lookup.

The nibbles are written into one table of the module, at every other place from 1
on. Nothing stops at the 32nd: a group of more than four characters, or a ninth
group, writes over `ip6.arpa`, and what is left there comes with every later name.
-/
import OpenResty.Resty.DnsIpv6

namespace OpenResty.Resty.DnsAddr

open Lib.Backtrack List Option Nat Function

/-- `ip6.arpa` -/
def IP6_ARPA : Bytes := [105, 112, 54, 46, 97, 114, 112, 97]

/-- A table of bytes, by index from 1. -/
abbrev Template := Nat → Option UInt8

/-- `arpa_tmpl`, as the module makes it. -/
def arpa_tmpl : Template := fun k =>
  if 64 < k then IP6_ARPA[k - 65]?
  else if 2 ≤ k ∧ k % 2 = 0 then some DOT_CHAR
  else none

/-- Bytes written at every other place from `idx` on. -/
def putEvery (t : Template) (idx : Nat) : Bytes → Template
  | [] => t
  | b :: bs => putEvery (update t idx (some b)) (idx + 2) bs

/-- The loop of `arpa_str` over the bytes from the last one, to index 0, where there is none. -/
def fillLoop : Bytes → Nat → Nat → Template → Template
  | [], idx, hidx, t => putEvery t idx (replicate (5 - hidx) ZERO_CHAR)
  | s :: rest, idx, hidx, t =>
    if s = COLON_CHAR then
      fillLoop rest (idx + 2 * (5 - hidx)) 1 (putEvery t idx (replicate (5 - hidx) ZERO_CHAR))
    else fillLoop rest (idx + 2) (hidx + 1) (putEvery t idx [s])

/-- `char(unpack(t))` for the entries from `i` on; an error is raised where one is `nil`. -/
def chars (t : Template) : Nat → Nat → Option Bytes
  | _, 0 => some []
  | i, n + 1 =>
    match t i, chars t (i + 1) n with
    | some b, some bs => some (b :: bs)
    | _, _ => none

/-- A length that `#t` may have. -/
def Border (t : Template) (n : Nat) : Prop := (n = 0 ∨ t n ≠ none) ∧ t (n + 1) = none

/-- `(\d{1,3})` at the beginning. A shorter match of it never helps, since no digit is a dot. -/
def octet (s : Bytes) : Option (Bytes × Bytes) :=
  let ds := (s.takeWhile fun d => 48 ≤ d.toNat ∧ d.toNat ≤ 57).take 3
  if ds = [] then none else some (ds, s.drop ds.length)

def octetDot (s : Bytes) : Option (Bytes × Bytes) :=
  match octet s with
  | some (ds, c :: rest) => if c = DOT_CHAR then some (ds, rest) else none
  | _ => none

/-- `$4.$3.$2.$1.in-addr.arpa` for the four numbers at the beginning. -/
def reverseOctets (addr : Bytes) : Option Bytes := do
  let (first, rest) ← octetDot addr
  let (second, rest) ← octetDot rest
  let (third, rest) ← octetDot rest
  let (fourth, rest) ← octet rest
  return [DOT_CHAR].intercalate [fourth, third, second, first, "in-addr".toUTF8.toList, "arpa".toUTF8.toList] ++ rest

/-- The table behind a call. -/
def fill (t : Template) (addr : Bytes) : Template :=
  if COLON_CHAR ∈ addr then fillLoop (expand_ipv6_addr addr).reverse 1 1 t else t

/-- What a call returns, where `n` is the length of the table; `none` for an error. -/
def arpa_str (n : Nat) (t : Template) (addr : Bytes) : Option Bytes :=
  if COLON_CHAR ∈ addr then chars (fill t addr) 1 n else some ((reverseOctets addr).getD addr)

/-- The table behind some calls, whatever their addresses. -/
def after (calls : List Bytes) : Template := calls.foldl fill arpa_tmpl

/-! ## The names -/

/-- The four nibbles of each group -/
def nibbles (ns : List Nat) : List Nat := ns.flatMap fun n => [n / 4096, n / 256 % 16, n / 16 % 16, n % 16]

def dotted (ds : Bytes) : Bytes := ds.flatMap fun d => [d, DOT_CHAR]

/-- Hex digits for the nibbles, the last one first, with a dot behind each, and `ip6.arpa`. -/
def ArpaName (name : Bytes) (ns : List Nat) : Prop :=
  ∃ ds : Bytes, ds.map digitValue = (nibbles ns).reverse.map some ∧ name = dotted ds ++ IP6_ARPA

/-- The compressed text denotes the address when it is expanded, and the name of a
spelling is the one of the address. -/
structure Right (n : Nat) (t : Template) (addr spelling : Bytes) (ns : List Nat) : Prop where
  denotes : Full (expand_ipv6_addr (compress_ipv6_addr addr)) ns
  name : ∃ name, arpa_str n t spelling = some name ∧ ArpaName name ns

/-- Behind the places of the 32 nibbles the table is as the module made it. -/
def Intact (t : Template) : Prop := ∀ k, 64 < k → t k = arpa_tmpl k

variable {g : Group} {gs : List Group} {ns : List Nat} {addr spelling name ws ds : Bytes} {t : Template}
  {i j k n : Nat}

/-! ## What is written -/

/-- The bytes that the loop writes, one after the other. -/
def written : Bytes → Nat → Bytes
  | [], hidx => replicate (5 - hidx) ZERO_CHAR
  | s :: rest, hidx =>
    if s = COLON_CHAR then replicate (5 - hidx) ZERO_CHAR ++ written rest 1 else s :: written rest (hidx + 1)

theorem putEvery_cons (t : Template) (i : Nat) (b : UInt8) (bs : Bytes) :
    putEvery t i (b :: bs) = putEvery (update t i (some b)) (i + 2) bs := rfl

theorem putEvery_append (t : Template) (i : Nat) (a b : Bytes) :
    putEvery t i (a ++ b) = putEvery (putEvery t i a) (i + 2 * a.length) b := by
  induction a generalizing t i with
  | nil => rfl
  | cons c a ih =>
    rw [cons_append, putEvery_cons, ih, putEvery_cons, length_cons, Nat.mul_add, Nat.add_assoc, Nat.add_comm 2]

theorem fillLoop_eq (s : Bytes) (i hidx : Nat) (t : Template) :
    fillLoop s i hidx t = putEvery t i (written s hidx) := by
  induction s generalizing i hidx t with
  | nil => rfl
  | cons c s ih =>
    rw [fillLoop, written]
    split
    · rw [ih, putEvery_append, length_replicate]
    · rw [ih]
      rfl

theorem putEvery_of_lt (h : k < i) (ws : Bytes) : putEvery t i ws k = t k := by
  induction ws generalizing t i with
  | nil => rfl
  | cons b ws ih => rw [putEvery_cons, ih (by omega), update_of_ne h.ne]

/-- The places between the ones that are written are left. -/
theorem putEvery_between (h : k % 2 ≠ i % 2) (ws : Bytes) : putEvery t i ws k = t k := by
  induction ws generalizing t i with
  | nil => rfl
  | cons b ws ih =>
    have hne : k ≠ i := fun heq => h (by rw [heq])
    rw [putEvery_cons, ih (by omega), update_of_ne hne]

theorem putEvery_get (t : Template) (i : Nat) (ws : Bytes) (j : Nat) :
    putEvery t i ws (i + 2 * j) = ws[j]?.or (t (i + 2 * j)) := by
  induction ws generalizing t i j with
  | nil => rfl
  | cons b ws ih =>
    rw [putEvery_cons]
    cases j with
    | zero =>
      have hlt : i < i + 2 := Nat.lt_add_of_pos_right Nat.two_pos
      exact (putEvery_of_lt hlt ws).trans (update_self i (some b) t)
    | succ j =>
      rw [show i + 2 * (j + 1) = i + 2 + 2 * j by omega, ih, getElem?_cons_succ, update_of_ne (by omega)]

theorem fill_even (h : k % 2 = 0) (t : Template) (addr : Bytes) : fill t addr k = t k := by
  rw [fill]
  split
  · rw [fillLoop_eq, putEvery_between (by omega)]
  · rfl

theorem fill_odd (h : COLON_CHAR ∈ addr) (t : Template) (j : Nat) :
    fill t addr (2 * j + 1) = (written (expand_ipv6_addr addr).reverse 1)[j]?.or (t (2 * j + 1)) := by
  rw [fill, if_pos h, fillLoop_eq, Nat.add_comm, putEvery_get]

/-! ## The table after some calls -/

/-- The even places are never written, the odd ones without a gap, and no place is emptied. -/
structure Inv (t : Template) : Prop where
  even : ∀ k, k % 2 = 0 → t k = arpa_tmpl k
  held : ∀ j, 32 ≤ j → j ≤ 35 → t (2 * j + 1) ≠ none
  closed : ∀ j, 32 ≤ j → t (2 * (j + 1) + 1) ≠ none → t (2 * j + 1) ≠ none

theorem or_ne_none {a b : Option UInt8} : a.or b ≠ none ↔ a ≠ none ∨ b ≠ none := by
  cases a <;> simp

theorem Inv.fill (h : Inv t) (addr : Bytes) : Inv (fill t addr) := by
  by_cases hcolon : COLON_CHAR ∈ addr
  · refine ⟨fun k hk => by rw [fill_even hk, h.even k hk], fun j hj hj' => ?_, fun j hj hnext => ?_⟩
    · rw [fill_odd hcolon]
      exact or_ne_none.mpr (.inr (h.held j hj hj'))
    · rw [fill_odd hcolon] at hnext ⊢
      rcases or_ne_none.mp hnext with hwritten | hleft
      · refine or_ne_none.mpr (.inl ?_)
        rw [ne_eq, getElem?_eq_none_iff] at hwritten ⊢
        omega
      · exact or_ne_none.mpr (.inr (h.closed j hj hleft))
  · rwa [DnsAddr.fill, if_neg hcolon]

theorem arpa_tmpl_of_gt (h : 72 < k) : arpa_tmpl k = none := by
  rw [arpa_tmpl, if_pos (by omega), getElem?_eq_none_iff, IP6_ARPA]
  simp only [length_cons, length_nil]
  omega

theorem inv_arpa_tmpl : Inv arpa_tmpl := by
  have hfour : ∀ j < 36, 32 ≤ j → arpa_tmpl (2 * j + 1) ≠ none := by decide
  refine ⟨fun k _ => rfl, fun j hj hj' => hfour j (by omega) hj, fun j hj hnext => ?_⟩
  by_cases hlast : j < 36
  · exact hfour j hlast hj
  · exact absurd (arpa_tmpl_of_gt (by omega)) hnext

theorem inv_after (calls : List Bytes) : Inv (after calls) := by
  have hrun : ∀ t, Inv t → Inv (calls.foldl fill t) := by
    induction calls with
    | nil => exact fun t h => h
    | cons addr calls ih => exact fun t h => ih _ (h.fill addr)
  exact hrun _ inv_arpa_tmpl

/-- A call that writes no more than the 32 nibbles leaves the rest of the table. -/
theorem Intact.fill (h : Intact t)
    (hshort : COLON_CHAR ∈ addr → (written (expand_ipv6_addr addr).reverse 1).length ≤ 32) :
    Intact (fill t addr) := by
  intro k hk
  by_cases hcolon : COLON_CHAR ∈ addr
  · rcases even_or_odd' k with ⟨j, rfl | rfl⟩
    · rw [fill_even (by omega), h _ hk]
    · have hnone := getElem?_eq_none_iff.mpr ((hshort hcolon).trans (show 32 ≤ j by omega))
      rw [fill_odd hcolon, hnone, none_or, h _ hk]
  · rw [DnsAddr.fill, if_neg hcolon, h k hk]

/-- Calls that write no more than 32 places leave the table intact. -/
theorem intact_after {calls : List Bytes}
    (h : ∀ addr ∈ calls, COLON_CHAR ∈ addr → (written (expand_ipv6_addr addr).reverse 1).length ≤ 32) :
    Intact (after calls) := by
  have hrun : ∀ t, Intact t → Intact (calls.foldl fill t) := by
    induction calls with
    | nil => exact fun t ht => ht
    | cons addr calls ih =>
      intro t ht
      exact ih (fun addr' hmem => h addr' (.tail addr hmem)) _ (ht.fill (h addr (.head calls)))
  exact hrun _ fun k _ => rfl

/-! ## The digits of an address -/

/-- The digits of a group, with zeros before them up to four. -/
def Group.padded (g : Group) : Bytes := replicate (4 - g.text.length) ZERO_CHAR ++ g.text

theorem written_digits (hds : COLON_CHAR ∉ ds) (rest : Bytes) (hidx : Nat) :
    written (ds ++ rest) hidx = ds ++ written rest (hidx + ds.length) := by
  induction ds generalizing hidx with
  | nil => rfl
  | cons d ds ih =>
    obtain ⟨hd, hds⟩ := not_or.mp (mt mem_cons.mpr hds)
    rw [cons_append, written, if_neg (Ne.symm hd), ih hds, length_cons, cons_append,
      Nat.add_right_comm,
      Nat.add_assoc]

theorem written_group (g : Group) (rest : Bytes) :
    written (g.text.reverse ++ rest) 1 = g.text.reverse ++ written rest (1 + g.text.length) := by
  rw [written_digits (fun h => g.ne_colon (mem_reverse.mp h) rfl), length_reverse]

theorem reverse_padded (g : Group) :
    g.padded.reverse = g.text.reverse ++ replicate (5 - (1 + g.text.length)) ZERO_CHAR := by
  rw [Group.padded, reverse_append, reverse_replicate,
    show 5 - (1 + g.text.length) = 4 - g.text.length by omega]

/-- The groups are written from the last one on, each with zeros up to four. -/
theorem written_text (hne : gs ≠ []) : written (text gs).reverse 1 = (gs.flatMap Group.padded).reverse := by
  induction gs using reverseRecOn with
  | nil => exact absurd rfl hne
  | append_singleton gs g ih =>
    rw [flatMap_append, flatMap_singleton, reverse_append, reverse_padded]
    by_cases hgs : gs = []
    · subst hgs
      have hwritten := written_group g []
      rw [append_nil, written] at hwritten
      rw [nil_append, text, tail, flatMap_nil, append_nil, hwritten, flatMap_nil,
        reverse_nil,
        append_nil]
    · have htail : tail [g] = COLON_CHAR :: g.text := by rw [tail_cons, tail, flatMap_nil, append_nil]
      rw [text_append hgs, htail, reverse_append, reverse_cons, append_assoc, append_assoc,
        written_group, singleton_append, written, if_pos rfl, ih hgs]

theorem digitValue_lt {d : UInt8} {x : Nat} (h : digitValue d = some x) : x < 16 := by
  unfold digitValue at h
  split at h
  · cases h; omega
  · split at h
    · cases h; omega
    · split at h
      · cases h; omega
      · cases h

theorem value_padded (g : Group) : g.padded.foldl (fun v d => 16 * v + (digitValue d).getD 0) 0 = g.value := by
  rw [Group.padded, foldl_append, Group.value]
  congr 1
  generalize 4 - g.text.length = k
  induction k with
  | zero => rfl
  | succ k ih => exact ih

theorem length_padded (g : Group) : g.padded.length = 4 := by
  have := g.length
  rw [Group.padded, length_append, length_replicate]
  omega

/-- The digits of a group are the four nibbles of its value. -/
theorem map_padded (g : Group) :
    g.padded.map digitValue = [g.value / 4096, g.value / 256 % 16, g.value / 16 % 16, g.value % 16].map some := by
  have hdigits : ∀ d ∈ g.padded, ∃ x, digitValue d = some x ∧ x < 16 := by
    intro d hd
    have hsome : (digitValue d).isSome := by
      rcases mem_append.mp hd with hzero | hdigit
      · rw [(mem_replicate.mp hzero).2]
        rfl
      · exact g.digits d hdigit
    obtain ⟨x, hx⟩ := isSome_iff_exists.mp hsome
    exact ⟨x, hx, digitValue_lt hx⟩
  rw [← value_padded]
  obtain ⟨a, b, c, d, hpadded⟩ := length_eq_four.mp (length_padded g)
  rw [hpadded] at hdigits ⊢
  obtain ⟨w, hw, hw'⟩ := hdigits a (by simp)
  obtain ⟨x, hx, hx'⟩ := hdigits b (by simp)
  obtain ⟨y, hy, hy'⟩ := hdigits c (by simp)
  obtain ⟨z, hz, hz'⟩ := hdigits d (by simp)
  simp only [map_cons, map_nil, foldl_cons, foldl_nil, hw, hx, hy, hz, getD_some,
    List.cons.injEq, some.injEq, and_true]
  omega

theorem map_flatMap_padded (gs : List Group) :
    (gs.flatMap Group.padded).map digitValue = (nibbles (gs.map Group.value)).map some := by
  induction gs with
  | nil => rfl
  | cons g gs ih =>
    rw [flatMap_cons, map_append, ih, map_padded]
    rfl

theorem length_nibbles (ns : List Nat) : (nibbles ns).length = 4 * ns.length := by
  induction ns with
  | nil => rfl
  | cons n ns ih => rw [nibbles, flatMap_cons, length_append, ← nibbles, ih, length_cons]; simp; omega

/-- What a spelling writes: the digits of the 32 nibbles, the last one first. -/
theorem written_spells (h : Spells spelling ns) :
    (written (expand_ipv6_addr spelling).reverse 1).map digitValue = (nibbles ns).reverse.map some ∧
      (written (expand_ipv6_addr spelling).reverse 1).length = 32 ∧ ns.length = 8 := by
  obtain ⟨gs, hlength, hexpand, rfl⟩ := full_expand h
  have hne : gs ≠ [] := by
    rintro rfl
    cases hlength
  have hmap : ((gs.flatMap Group.padded).reverse).map digitValue = (nibbles (gs.map Group.value)).reverse.map
    some := by
    rw [map_reverse, map_flatMap_padded, map_reverse]
  have hnibbles : ((nibbles (gs.map Group.value)).reverse.map some).length = 32 := by
    rw [length_map, length_reverse, length_nibbles, length_map, hlength]
  have hcount := (congrArg List.length hmap).trans hnibbles
  rw [length_map] at hcount
  rw [hexpand, written_text hne]
  exact ⟨hmap, hcount, by rw [length_map, hlength]⟩

theorem colon_mem (h : Spells spelling ns) : COLON_CHAR ∈ spelling := by
  cases h with
  | full gs h =>
    refine count_pos_iff.mp ?_
    rw [count_text, h]
    decide
  | compressed pre rest h => simp

/-! ## What is read out of the table -/

theorem chars_eq_some : chars t i n = some name ↔ name.length = n ∧ ∀ j < n, t (i + j) = name[j]? := by
  induction n generalizing i name with
  | zero =>
    rw [chars]
    constructor
    · rintro h
      cases h
      exact ⟨rfl, fun j hj => absurd hj (Nat.not_lt_zero j)⟩
    · rintro ⟨h, -⟩
      rw [eq_nil_of_length_eq_zero h]
  | succ n ih =>
    rw [chars]
    constructor
    · intro h
      split at h
      · next b bs hb hbs =>
        cases h
        obtain ⟨hlength, hget⟩ := ih.mp hbs
        refine ⟨by rw [length_cons, hlength], fun j hj => ?_⟩
        cases j with
        | zero => exact hb
        | succ j => rw [getElem?_cons_succ, ← hget j (by omega), Nat.add_right_comm, Nat.add_assoc]
      · cases h
    · rintro ⟨hlength, hget⟩
      obtain ⟨b, bs, rfl⟩ := exists_cons_of_length_eq_add_one hlength
      have hb := hget 0 (succ_pos n)
      have hbs : chars t (i + 1) n = some bs := by
        refine ih.mpr ⟨succ.inj hlength, fun j hj => ?_⟩
        have := hget (j + 1) (by omega)
        rwa [getElem?_cons_succ, ← Nat.add_assoc, Nat.add_right_comm] at this
      rw [Nat.add_zero] at hb
      rw [hb, hbs]
      rfl

theorem length_dotted (ds : Bytes) : (dotted ds).length = 2 * ds.length := by
  induction ds with
  | nil => rfl
  | cons d ds ih => rw [dotted, flatMap_cons, length_append, ← dotted, ih, length_cons]; simp; omega

theorem dotted_even (ds : Bytes) (j : Nat) : (dotted ds)[2 * j]? = ds[j]? := by
  induction ds generalizing j with
  | nil => rfl
  | cons d ds ih =>
    cases j with
    | zero => rfl
    | succ j => exact ih j

theorem dotted_odd (h : j < ds.length) : (dotted ds)[2 * j + 1]? = some DOT_CHAR := by
  induction ds generalizing j with
  | nil => exact absurd h (Nat.not_lt_zero j)
  | cons d ds ih =>
    cases j with
    | zero => rfl
    | succ j => exact ih (lt_of_succ_lt_succ h)

/-! ## The name -/

/-- The places of the table that a spelling leaves. -/
theorem fill_spells (h : Spells spelling ns) (hk : 64 < k) : fill t spelling k = t k := by
  obtain ⟨-, hlength, -⟩ := written_spells h
  rcases even_or_odd' k with ⟨j, rfl | rfl⟩
  · rw [fill_even (by omega)]
  · rw [fill_odd (colon_mem h), getElem?_eq_none (by omega), none_or]

/-- The table has no gap up to the end of the name. -/
theorem fill_ne_none (hinv : Inv t) (h : Spells spelling ns) (hk : 0 < k) (hk' : k ≤ 72) :
    fill t spelling k ≠ none := by
  obtain ⟨-, hlength, -⟩ := written_spells h
  rcases even_or_odd' k with ⟨j, rfl | rfl⟩
  · have heven : ∀ j < 37, 0 < j → arpa_tmpl (2 * j) ≠ none := by decide
    rw [fill_even (by omega), hinv.even _ (by omega)]
    exact heven j (by omega) (by omega)
  · rw [fill_odd (colon_mem h)]
    refine or_ne_none.mpr ?_
    by_cases hj : j < 32
    · exact .inl (by rw [ne_eq, getElem?_eq_none_iff]; omega)
    · exact .inr (hinv.held j (by omega) (by omega))

theorem border_ge (hinv : Inv t) (h : Spells spelling ns) (hn : Border (fill t spelling) n) : 72 ≤ n := by
  by_contra hlt
  exact fill_ne_none hinv h (succ_pos n) (by omega) hn.2

theorem length_of_arpaName (h : ArpaName name ns) (hns : ns.length = 8) :
    name.length = 72 ∧ ∀ k, 64 < k → k ≤ 72 → name[k - 1]? = arpa_tmpl k := by
  obtain ⟨ds, hds, rfl⟩ := h
  have hcount := congrArg List.length hds
  rw [length_map, length_map, length_reverse, length_nibbles, hns] at hcount
  have hdotted := length_dotted ds
  refine ⟨by rw [length_append, hdotted, hcount]; rfl, fun k hk hk' => ?_⟩
  rw [getElem?_append_right (by omega), arpa_tmpl, if_pos hk, show k - 1 - (dotted ds).length = k - 65 by omega]

/-- Behind an empty place there is nothing. -/
theorem Inv.none_behind (hinv : Inv t) (h : t 73 = none) (hk : 72 < k) : t k = none := by
  rcases even_or_odd' k with ⟨j, rfl | rfl⟩
  · rw [hinv.even _ (by omega), arpa_tmpl_of_gt hk]
  · have hodd : ∀ j, 36 ≤ j → t (2 * j + 1) = none := by
      intro j hj
      induction j, hj using le_induction with
      | base => exact h
      | succ j hj ih =>
        by_contra hne
        exact hinv.closed j (by omega) hne ih
    exact hodd j (by omega)

/-- A name that is right shows that nothing else is in the table. -/
theorem intact_of_name (hinv : Inv t) (h : Spells spelling ns) (hn : Border (fill t spelling) n)
    (hname : ∃ name, arpa_str n t spelling = some name ∧ ArpaName name ns) : Intact t := by
  obtain ⟨name, harpa, hname⟩ := hname
  obtain ⟨hlength, htail⟩ := length_of_arpaName hname (written_spells h).2.2
  rw [arpa_str, if_pos (colon_mem h)] at harpa
  obtain ⟨hlength', hget⟩ := chars_eq_some.mp harpa
  obtain rfl : n = 72 := hlength'.symm.trans hlength
  intro k hk
  by_cases hlast : k ≤ 72
  · have hplace := hget (k - 1) (by omega)
    rw [show 1 + (k - 1) = k by omega, fill_spells h hk] at hplace
    rw [hplace, htail k hk hlast]
  · have hend := hn.2
    rw [fill_spells h (by decide)] at hend
    rw [hinv.none_behind hend (by omega), arpa_tmpl_of_gt (by omega)]

theorem name_of_intact (hinv : Inv t) (h : Spells spelling ns) (hn : Border (fill t spelling) n)
    (hintact : Intact t) :
    ∃ name, arpa_str n t spelling = some name ∧ ArpaName name ns := by
  obtain ⟨hmap, hlength, -⟩ := written_spells h
  generalize hds : written (expand_ipv6_addr spelling).reverse 1 = ds at hmap hlength
  have hge := border_ge hinv h hn
  obtain rfl : n = 72 := by
    by_contra hne
    refine hn.1.elim (by omega) fun hsome => hsome ?_
    rw [fill_spells h (by omega), hintact n (by omega), arpa_tmpl_of_gt (by omega)]
  refine ⟨dotted ds ++ IP6_ARPA, ?_, ds, hmap, rfl⟩
  have hdotted := length_dotted ds
  rw [arpa_str, if_pos (colon_mem h)]
  refine chars_eq_some.mpr ⟨by rw [length_append, hdotted, hlength]; rfl, fun i hi => ?_⟩
  by_cases hnibble : i < 64
  · rw [getElem?_append_left (by omega)]
    rcases even_or_odd' i with ⟨j, rfl | rfl⟩
    · rw [Nat.add_comm, fill_odd (colon_mem h), hds, dotted_even, getElem?_eq_getElem (by omega), some_or]
    · have hdot : ∀ j < 32, arpa_tmpl (1 + (2 * j + 1)) = some DOT_CHAR := by decide
      rw [fill_even (by omega), hinv.even _ (by omega), dotted_odd (by omega), hdot j (by omega)]
  · rw [getElem?_append_right (by omega), fill_spells h (by omega), hintact _ (by omega), arpa_tmpl,
      if_pos (by omega), show 1 + i - 65 = i - (dotted ds).length by omega]

/-- **Compressing and expanding keeps every address, and its spellings have its name
exactly as long as no earlier call has written behind the 32 nibbles.** -/
theorem ipv6_text_iff (calls : List Bytes) (haddr : Full addr ns) (h : Spells spelling ns)
    (hn : Border (fill (after calls) spelling) n) :
    Right n (after calls) addr spelling ns ↔ Intact (after calls) := by
  have hinv := inv_after calls
  constructor
  · exact fun hright => intact_of_name hinv h hn hright.name
  · exact fun hintact => ⟨full_expand (spells_compress haddr), name_of_intact hinv h hn hintact⟩

/-- Calls for well-formed IPv6 addresses, and those without a colon, leave it so. -/
theorem intact_of_spells {calls : List Bytes} (h : ∀ addr ∈ calls, COLON_CHAR ∈ addr → ∃ ns, Spells addr ns) :
    Intact (after calls) := by
  refine intact_after fun addr hmem hcolon => ?_
  obtain ⟨ns, hspells⟩ := h addr hmem hcolon
  exact (written_spells hspells).2.1.le

def ff01 : Group := ⟨[70, 70, 48, 49], by decide, by simp [digitValue]⟩

def group101 : Group := ⟨[49, 48, 49], by decide, by simp [digitValue]⟩

/-- `FF01::101` -/
def multicast : Bytes := text [ff01] ++ [COLON_CHAR, COLON_CHAR] ++ text [group101]

/-- `FF01:0:0:0:0:0:0:101` -/
def multicastGroups : List Group := ff01 :: replicate 6 zero ++ [group101]

theorem spells_multicast : Spells multicast (multicastGroups.map Group.value) := .compressed [ff01] [group101]
    (by decide)

/-- The first name that is asked for. -/
theorem intact_multicast : Intact (after [multicast]) :=
  intact_of_spells fun _ h _ => ⟨_, mem_singleton.mp h ▸ spells_multicast⟩

theorem ipv6_text_multicast :
    Right 72 (after []) (text multicastGroups) multicast (multicastGroups.map Group.value) ↔ Intact (after []) :=
  ipv6_text_iff [] ⟨multicastGroups, rfl, rfl, rfl⟩ spells_multicast ⟨.inr (by decide), by decide⟩

/-- `::ffff:1.2.3.4` -/
def mapped : Bytes := [58, 58, 102, 102, 102, 102, 58, 49, 46, 50, 46, 51, 46, 52]

/-- A name that is asked for behind the one of an IPv4-mapped address. -/
theorem not_right_mapped :
    ∃ n, Border (fill (after [mapped]) multicast) n ∧
      ¬ Right n (after [mapped]) (text multicastGroups) multicast (multicastGroups.map Group.value) := by
  have hborder : Border (fill (after [mapped]) multicast) 72 := ⟨.inr (by decide), by decide⟩
  refine ⟨72, hborder, fun h => ?_⟩
  have hintact := intact_of_name (inv_after [mapped]) spells_multicast hborder h.name
  exact absurd (hintact 65 (by decide)) (by decide)

end OpenResty.Resty.DnsAddr
