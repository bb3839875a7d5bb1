/-
What `normalize_ipv6` takes as eight groups: the spellings of an address, and the slips.
-/
import OpenResty.Kong.NormalizeIp

namespace OpenResty.Kong.NormalizeIp

open Lib.Backtrack
open Lib.Resp (decimal)
open List hiding tail tail_cons
open Resty.DnsAddr

variable {cls : UInt8 → Bool} {separator : UInt8} {most count : Nat} {t u c : Bytes} {fields : List Bytes}
  {g : Group} {gs pre rest : List Group} {first last : Bool}

/-! ## Fields -/

theorem captures_iff (hseparator : cls separator = false) (hcount : 0 < count) :
    captures cls most separator count t = some fields ↔
      t = [separator].intercalate fields ∧ fields.length = count ∧
        ∀ field ∈ fields, 0 < field.length ∧ field.length ≤ most ∧ field.all cls = true := by
  rw [captures]
  constructor
  · intro h
    split at h
    · next hfields =>
      cases h
      exact ⟨(intercalate_splitOn separator).symm, hfields⟩
    · cases h
  · rintro ⟨rfl, hlength, hfields⟩
    have hnot : ∀ field ∈ fields, separator ∉ field := by
      intro field hfield hmem
      have := all_eq_true.mp (hfields field hfield).2.2 separator hmem
      rw [hseparator] at this
      cases this
    have hne : fields ≠ [] := ne_nil_of_length_pos (by omega)
    rw [splitOn_intercalate separator hnot hne, if_pos ⟨hlength, hfields⟩]

theorem intercalate_text (gs : List Group) : [COLON_CHAR].intercalate (gs.map Group.text) = text gs := by
  cases gs with
  | nil => rfl
  | cons g gs =>
    have htail : ∀ gs : List Group, ∀ t, [COLON_CHAR].intercalate (t :: gs.map Group.text) = t ++ tail gs := by
      intro gs
      induction gs with
      | nil => exact fun t => by simp [tail]
      | cons g gs ih =>
        intro t
        rw [map_cons, intercalate_cons_cons, ih, tail_cons]
        simp
    exact htail gs g.text

theorem exists_groups (h : ∀ field ∈ fields, 0 < field.length ∧ field.length ≤ 4 ∧ field.all isHex = true) :
    ∃ gs : List Group, fields = gs.map Group.text := by
  induction fields with
  | nil => exact ⟨[], rfl⟩
  | cons field fields ih =>
    obtain ⟨gs, rfl⟩ := ih fun f hf => h f (mem_cons_of_mem field hf)
    obtain ⟨hpos, hle, hhex⟩ := h field (.head _)
    exact ⟨⟨field, ⟨hpos, hle⟩, all_eq_true.mp hhex⟩ :: gs, rfl⟩

theorem captures_groups : captures isHex 4 COLON_CHAR 8 t = some fields ↔
    ∃ gs : List Group, gs.length = 8 ∧ t = text gs ∧ fields = gs.map Group.text := by
  rw [captures_iff (by decide) (by decide)]
  constructor
  · rintro ⟨rfl, hlength, hfields⟩
    obtain ⟨gs, rfl⟩ := exists_groups hfields
    exact ⟨gs, by simpa using hlength, intercalate_text gs, rfl⟩
  · rintro ⟨gs, hlength, rfl, rfl⟩
    refine ⟨(intercalate_text gs).symm, by simpa using hlength, fun field hfield => ?_⟩
    obtain ⟨g, -, rfl⟩ := mem_map.mp hfield
    exact ⟨g.length.1, g.length.2, all_eq_true.mpr g.digits⟩

/-! ## A zero at the ends -/

def zeroIf (b : Bool) : List Group := if b then [zero] else []

def patchFirst (check : Bytes) : Bytes := if check.head? = some COLON_CHAR then ZERO_CHAR :: check else check

def patchLast (check : Bytes) : Bytes := if check.getLast? = some COLON_CHAR then check ++ [ZERO_CHAR] else check

/-- The zeros for a pair of colons. -/
def fill (check : Bytes) : Bytes :=
  if [COLON_CHAR, COLON_CHAR] <:+: check then
    sub (.lit [COLON_CHAR, COLON_CHAR]) check
      (COLON_CHAR :: times (8 - check.count COLON_CHAR) [ZERO_CHAR, COLON_CHAR])
  else check

theorem expand_eq (check : Bytes) : expand check = fill (patchLast (patchFirst check)) := rfl

theorem orZero_of_ne_nil (hne : gs ≠ []) : orZero gs = gs := by
  obtain ⟨g, gs, rfl⟩ := exists_cons_of_ne_nil hne
  rfl

/-- A first colon, which is not one of a pair, is that of an added zero. -/
theorem patchFirst_text (hfirst : first → pre ≠ []) (h : pre ≠ [] ∨ u.head? = some COLON_CHAR) :
    patchFirst (edge first ++ text pre ++ u) = text (zeroIf first ++ orZero pre) ++ u := by
  by_cases hne : pre = []
  · subst hne
    cases first with
    | true => exact absurd rfl (hfirst rfl)
    | false =>
      obtain ⟨u, rfl⟩ : ∃ u', u = COLON_CHAR :: u' := by
        cases u with
        | nil => simp at h
        | cons d u => exact ⟨u, by simpa using h⟩
      rfl
  · rw [orZero_of_ne_nil hne]
    cases first with
    | true =>
      have htext : text (zeroIf true ++ pre) = ZERO_CHAR :: COLON_CHAR :: text pre := by
        rw [← tail_of_ne_nil hne]
        rfl
      rw [htext]
      rfl
    | false =>
      have hhead : (text pre ++ u).head? ≠ some COLON_CHAR := by
        rw [head?_append_of_ne_nil _ (ne_nil_of_length_pos (length_text_pos hne))]
        exact head?_text_ne hne
      exact if_neg hhead

theorem of_patchFirst (hne : gs ≠ []) (h : patchFirst c = text gs ++ u) :
    ∃ (first : Bool) (pre : List Group), (first → pre ≠ []) ∧ gs = zeroIf first ++ orZero pre ∧
      c = edge first ++ text pre ++ u ∧
      (pre ≠ [] ∨ u.head? = some COLON_CHAR) := by
  rw [patchFirst] at h
  split at h
  · next hcolon =>
    obtain ⟨c, rfl⟩ : ∃ c', c = COLON_CHAR :: c' := by
      cases c with
      | nil => cases hcolon
      | cons d c => exact ⟨c, by simpa using hcolon⟩
    obtain ⟨g, gs, rfl⟩ := exists_cons_of_ne_nil hne
    obtain ⟨d, ds, hds, -⟩ := g.exists_cons
    rw [text, hds] at h
    obtain ⟨hd, hc⟩ := List.cons.inj h
    have hnil : ds = [] := by
      cases ds with
      | nil => rfl
      | cons e ds => exact absurd (List.cons.inj hc).1.symm (g.ne_colon (hds ▸ .tail _ (.head _)))
    subst hnil
    have hg : g = zero := Resty.DnsAddr.Group.ext (by rw [hds, ← hd]; rfl)
    have hc : COLON_CHAR :: c = tail gs ++ u := hc
    by_cases hgs : gs = []
    · subst hgs
      have hc : COLON_CHAR :: c = u := hc
      exact ⟨false, [], by simp, by rw [hg]; rfl, hc, .inr (hc ▸ rfl)⟩
    · refine ⟨true, gs, fun _ => hgs, by rw [hg, orZero_of_ne_nil hgs]; rfl, ?_, .inl hgs⟩
      rw [hc, tail_of_ne_nil hgs]
      rfl
  · exact ⟨false, gs, by simp, by rw [orZero_of_ne_nil hne]; rfl, h, .inl hne⟩

theorem text_concat (hne : gs ≠ []) (g : Group) : text (gs ++ [g]) = text gs ++ COLON_CHAR :: g.text := by
  rw [text_append hne, tail_cons, tail, flatMap_nil, append_nil]

theorem patchLast_text (hlast : last → rest ≠ []) (h : rest ≠ [] ∨ u.getLast? = some COLON_CHAR) :
    patchLast (u ++ text rest ++ edge last) = u ++ text (orZero rest ++ zeroIf last) := by
  by_cases hne : rest = []
  · subst hne
    cases last with
    | true => exact absurd rfl (hlast rfl)
    | false =>
      have hcolon : u.getLast? = some COLON_CHAR := by simpa using h
      rw [text, edge, if_neg (by decide), append_nil, append_nil, patchLast, if_pos hcolon]
      rfl
  · rw [orZero_of_ne_nil hne]
    cases last with
    | true =>
      rw [patchLast, edge, if_pos rfl, if_pos getLast?_concat, zeroIf, if_pos rfl, text_concat hne]
      simp [zero]
    | false =>
      have hend : (u ++ text rest).getLast? ≠ some COLON_CHAR := by
        rw [getLast?_append_of_ne_nil _ (ne_nil_of_length_pos (length_text_pos hne))]
        exact getLast?_text_ne rest
      rw [edge, if_neg (by decide), append_nil, zeroIf, if_neg (by decide), append_nil]
      exact if_neg hend

/-- A zero behind a colon is a group. -/
theorem zero_of_concat (h : c ++ [COLON_CHAR] ++ [ZERO_CHAR] = u ++ g.text) : g = zero ∧ c ++ [COLON_CHAR] = u := by
  obtain ⟨ds, d, hds⟩ := (eq_nil_or_concat g.text).resolve_left (ne_nil_of_length_pos g.length.1)
  rw [concat_eq_append] at hds
  rw [hds, ← append_assoc] at h
  obtain ⟨hc, hd⟩ := append_singleton_inj.mp h
  have hnil : ds = [] := by
    rcases eq_nil_or_concat ds with hnil | ⟨es, e, rfl⟩
    · exact hnil
    · rw [concat_eq_append, ← append_assoc] at hc
      obtain ⟨-, he⟩ := append_singleton_inj.mp hc
      exact absurd he.symm (g.ne_colon (hds ▸ by simp))
  subst hnil
  exact ⟨Resty.DnsAddr.Group.ext (by rw [hds, ← hd]; rfl), by rw [hc, append_nil]⟩

theorem of_patchLast (hne : gs ≠ []) (h : patchLast c = u ++ text gs) :
    ∃ (last : Bool) (rest : List Group), (last → rest ≠ []) ∧ gs = orZero rest ++ zeroIf last ∧
      c = u ++ text rest ++ edge last ∧
      (rest ≠ [] ∨ u.getLast? = some COLON_CHAR) := by
  rw [patchLast] at h
  split at h
  · next hcolon =>
    obtain ⟨c, rfl⟩ : ∃ c', c = c' ++ [COLON_CHAR] := getLast?_eq_some_iff.mp hcolon
    obtain ⟨gs, g, rfl⟩ := (eq_nil_or_concat gs).resolve_left hne
    rw [concat_eq_append] at h ⊢
    by_cases hgs : gs = []
    · subst hgs
      obtain ⟨rfl, hc⟩ := zero_of_concat (g := g) (u := u) (by rw [h]; simp [text, tail])
      exact ⟨false, [], by simp, rfl, by rw [hc]; simp [text, edge], .inr (hc ▸ getLast?_concat)⟩
    · obtain ⟨rfl, hc⟩ := zero_of_concat (g := g) (u := u ++ text gs ++ [COLON_CHAR]) (by
        rw [h, text_concat hgs]
        simp)
      exact ⟨true, gs, fun _ => hgs, by rw [orZero_of_ne_nil hgs]; rfl, hc, .inl hgs⟩
  · exact ⟨false, gs, by simp, by rw [orZero_of_ne_nil hne]; simp [zeroIf], by rw [h]; simp [edge], .inl hne⟩

/-! ## The pair -/

/-- A text is cut at a colon between its groups. -/
theorem text_eq_append (h : text gs = u ++ COLON_CHAR :: t) :
    ∃ pre rest, gs = pre ++ rest ∧ pre ≠ [] ∧ rest ≠ [] ∧ u = text pre ∧ t = text rest := by
  induction gs generalizing u with
  | nil => simp [text] at h
  | cons g gs ih =>
    rw [text] at h
    obtain ⟨u', rfl, hrest⟩ : ∃ u', u = g.text ++ u' ∧ tail gs = u' ++ COLON_CHAR :: t := by
      rcases append_eq_append_iff.mp h with ⟨u', hu, hrest⟩ | ⟨u', hg, hrest⟩
      · exact ⟨u', hu, hrest⟩
      · cases u' with
        | nil => exact ⟨[], by simpa using hg.symm, by simpa using hrest.symm⟩
        | cons d u' =>
          have hd : d = COLON_CHAR := (List.cons.inj hrest).1.symm
          exact absurd hd (g.ne_colon (hg ▸ by simp))
    have hgs : gs ≠ [] := by
      rintro rfl
      simp [tail] at hrest
    rw [tail_of_ne_nil hgs] at hrest
    cases u' with
    | nil => exact ⟨[g], gs, rfl, cons_ne_nil _ _, hgs, by simp [text, tail], (List.cons.inj hrest).2.symm⟩
    | cons d u' =>
      obtain ⟨rfl, hcut⟩ := List.cons.inj hrest
      obtain ⟨pre, rest, rfl, hpre, hne, rfl, rfl⟩ := ih hcut
      exact ⟨g :: pre, rest, rfl, cons_ne_nil _ _, hne, by rw [text, tail_of_ne_nil hpre], rfl⟩

theorem text_eq_zeros {k : Nat} (hne : gs ≠ []) (h : text gs = times k [ZERO_CHAR, COLON_CHAR] ++ t) :
    ∃ rest, gs = replicate k zero ++ rest ∧ rest ≠ [] ∧ t = text rest := by
  induction k generalizing gs with
  | zero => exact ⟨gs, rfl, hne, h.symm⟩
  | succ k ih =>
    have hcut : text gs = [ZERO_CHAR] ++ COLON_CHAR :: (times k [ZERO_CHAR, COLON_CHAR] ++ t) := h
    obtain ⟨pre, rest, rfl, hpre, hrest, hzero, htext⟩ := text_eq_append hcut
    obtain ⟨g, pre, rfl⟩ := exists_cons_of_ne_nil hpre
    have hbegins : [ZERO_CHAR, COLON_CHAR] <+: text (g :: (pre ++ rest)) := h ▸ ⟨times k [ZERO_CHAR, COLON_CHAR] ++ t, rfl⟩
    have hg : g = zero := eq_zero_of_begins hbegins
    have hnil : pre = [] := by
      by_contra hne
      have hlength := congrArg List.length hzero
      have hpos := length_text_pos hne
      rw [text, tail_of_ne_nil hne, length_append, length_cons] at hlength
      simp at hlength
      omega
    subst hnil
    obtain ⟨rest, rfl, hne', rfl⟩ := ih hrest htext.symm
    exact ⟨rest, by rw [hg]; rfl, hne', rfl⟩

theorem count_pair (hpre : pre ≠ []) (hrest : rest ≠ []) :
    (text pre ++ [COLON_CHAR, COLON_CHAR] ++ text rest).count COLON_CHAR = pre.length + rest.length := by
  have hpos := length_pos_of_ne_nil hpre
  have hpos' := length_pos_of_ne_nil hrest
  have htwo : [COLON_CHAR, COLON_CHAR].count COLON_CHAR = 2 := rfl
  rw [List.count_append, List.count_append, count_text, count_text]
  omega

theorem fill_text (gs : List Group) : fill (text gs) = text gs := if_neg (not_infix_text gs)

theorem fill_pair (hpre : pre ≠ []) (hrest : rest ≠ []) :
    fill (text pre ++ [COLON_CHAR, COLON_CHAR] ++ text rest) =
      text (pre ++ (replicate (8 - (pre.length + rest.length)) zero ++ rest)) := by
  rw [fill, if_pos ⟨text pre, text rest, rfl⟩, count_pair hpre hrest, sub_of_search (search_pair _ _),
    text_append hpre, tail_zeros_append _ hrest, append_assoc]
  rfl

theorem of_fill (h : fill c = text gs) (hlength : gs.length = 8) :
    c = text gs ∨ ∃ pre rest, pre ≠ [] ∧ rest ≠ [] ∧ pre.length + rest.length ≤ 8 ∧
      c = text pre ++ [COLON_CHAR, COLON_CHAR] ++ text rest ∧
      gs = pre ++ (replicate (8 - (pre.length + rest.length)) zero ++ rest) := by
  rw [fill] at h
  split at h
  · next hpair =>
    refine .inr ?_
    obtain ⟨u, v, rfl, hsub⟩ := exists_sub_lit hpair
    rw [hsub, append_assoc] at h
    obtain ⟨pre, rest, rfl, hpre, hrest, rfl, htext⟩ := text_eq_append h.symm
    obtain ⟨rest, rfl, hne, rfl⟩ := text_eq_zeros hrest htext.symm
    rw [count_pair hpre hne] at *
    refine ⟨pre, rest, hpre, hne, ?_, rfl, rfl⟩
    simp only [length_append, length_replicate] at hlength
    omega
  · exact .inl h

/-! ## What is read -/

/-- The texts that are expanded to eight groups, with these. -/
inductive Reads : Bytes → List Group → Prop
  | full (first last : Bool) (gs : List Group) (hlength : first.toNat + gs.length + last.toNat = 8) :
      Reads (edge first ++ text gs ++ edge last) (zeroIf first ++ gs ++ zeroIf last)
  | pair (first last : Bool) (pre rest : List Group) (hpre : first → pre ≠ []) (hrest : last → rest ≠ [])
      (hlength : first.toNat + (orZero pre).length + (orZero rest).length + last.toNat ≤ 8) :
      Reads (edge first ++ text pre ++ [COLON_CHAR, COLON_CHAR] ++ text rest ++ edge last)
        (zeroIf first ++ orZero pre ++
          (replicate (8 - (first.toNat + (orZero pre).length + (orZero rest).length + last.toNat)) zero ++
            (orZero rest ++ zeroIf last)))

theorem length_zeroIf (b : Bool) : (zeroIf b).length = b.toNat := by cases b <;> rfl

variable {check : Bytes}

theorem Reads.length (h : Reads check gs) : gs.length = 8 := by
  cases h with
  | full first last gs hlength =>
    simp only [length_append, length_zeroIf]
    exact hlength
  | pair first last pre rest hpre hrest hlength =>
    simp only [length_append, length_zeroIf, length_replicate]
    omega

theorem Reads.expand (h : Reads check gs) : expand check = text gs := by
  cases h with
  | full first last gs hlength =>
    have hne : gs ≠ [] := by
      rintro rfl
      have hle := Bool.toNat_le first
      have hle' := Bool.toNat_le last
      rw [length_nil] at hlength
      omega
    have hne' : zeroIf first ++ gs ≠ [] := append_ne_nil_of_right_ne_nil _ hne
    have hlast : patchLast ([] ++ text (zeroIf first ++ gs) ++ edge last) =
        [] ++ text (orZero (zeroIf first ++ gs) ++ zeroIf last) := patchLast_text (fun _ => hne') (.inl hne')
    rw [nil_append, nil_append, orZero_of_ne_nil hne'] at hlast
    rw [expand_eq, patchFirst_text (fun _ => hne) (.inl hne), orZero_of_ne_nil hne, hlast, fill_text]
  | pair first last pre rest hpre hrest hlength =>
    have hfirst : zeroIf first ++ orZero pre ≠ [] := append_ne_nil_of_right_ne_nil _ (orZero_ne_nil pre)
    have hlast : orZero rest ++ zeroIf last ≠ [] := append_ne_nil_of_left_ne_nil (orZero_ne_nil rest) _
    have hassoc : edge first ++ text pre ++ [COLON_CHAR, COLON_CHAR] ++ text rest ++ edge last =
        edge first ++ text pre ++ ([COLON_CHAR, COLON_CHAR] ++ text rest ++ edge last) := by
      simp only [append_assoc]
    have hassoc' : text (zeroIf first ++ orZero pre) ++ ([COLON_CHAR, COLON_CHAR] ++ text rest ++ edge last) =
        text (zeroIf first ++ orZero pre) ++ [COLON_CHAR, COLON_CHAR] ++ text rest ++ edge last := by
      simp only [append_assoc]
    have hpair : (text (zeroIf first ++ orZero pre) ++ [COLON_CHAR, COLON_CHAR]).getLast? = some COLON_CHAR :=
      getLast?_append_of_ne_nil _ (cons_ne_nil _ _)
    rw [expand_eq, hassoc, patchFirst_text hpre (.inr rfl), hassoc', patchLast_text hrest (.inr hpair),
      fill_pair hfirst hlast]
    simp only [length_append, length_zeroIf, Nat.add_assoc]

theorem reads_of_expand (h : expand check = text gs) (hlength : gs.length = 8) : Reads check gs := by
  rw [expand_eq] at h
  rcases of_fill h hlength with hfull | ⟨pre, rest, hpre, hrest, hle, hpair, rfl⟩
  · have hne : gs ≠ [] := ne_nil_of_length_pos (by omega)
    obtain ⟨last, rest, -, rfl, hfirst, hrest⟩ := of_patchLast (u := []) hne hfull
    have hrest : rest ≠ [] := by simpa using hrest
    rw [orZero_of_ne_nil hrest] at *
    obtain ⟨first, pre, -, rfl, rfl, -⟩ := of_patchFirst hrest hfirst
    have hpre : pre ≠ [] := by
      rintro rfl
      have hle := Bool.toNat_le first
      have hle' := Bool.toNat_le last
      simp only [length_append, length_zeroIf, orZero, length_cons, length_nil] at hlength
      omega
    rw [orZero_of_ne_nil hpre] at *
    refine .full first last pre ?_
    simpa only [length_append, length_zeroIf] using hlength
  · obtain ⟨last, rest, hlast, rfl, hfirst, -⟩ := of_patchLast hrest hpair
    obtain ⟨first, pre, hpre', rfl, rfl, -⟩ :=
      of_patchFirst (u := [COLON_CHAR, COLON_CHAR] ++ text rest ++ edge last) hpre
      (by rw [hfirst]; simp only [append_assoc])
    simp only [length_append, length_zeroIf, ← Nat.add_assoc] at hle ⊢
    have hreads := Reads.pair first last pre rest hpre' hlast hle
    simpa only [append_assoc] using hreads

theorem captures_expand : captures isHex 4 COLON_CHAR 8 (expand check) = some fields ↔
    ∃ gs, Reads check gs ∧ fields = gs.map Group.text := by
  rw [captures_groups]
  constructor
  · rintro ⟨gs, hlength, hexpand, rfl⟩
    exact ⟨gs, reads_of_expand hexpand hlength, rfl⟩
  · rintro ⟨gs, hreads, rfl⟩
    exact ⟨gs, hreads.length, hreads.expand, rfl⟩

/-! ## Spellings and slips -/

variable {ns : List Nat}

theorem reads_of_spells (h : Spells t ns) : ∃ gs, Reads t gs ∧ gs.map Group.value = ns := by
  cases h with
  | full gs h =>
    have hreads := Reads.full false false gs (by simpa using h)
    rw [zeroIf, if_neg (by decide), nil_append, append_nil, edge, if_neg (by decide), nil_append,
      append_nil] at hreads
    exact ⟨gs, hreads, rfl⟩
  | compressed pre rest h =>
    obtain ⟨-, -, hle⟩ := length_orZero pre rest h
    have hreads := Reads.pair false false pre rest (by simp) (by simp) (by simpa using hle)
    rw [zeroIf, if_neg (by decide), nil_append, append_nil, edge, if_neg (by decide), nil_append,
      append_nil, Bool.toNat_false, Nat.zero_add, Nat.add_zero] at hreads
    exact ⟨_, hreads, map_filled h⟩

theorem reads_of_slip (h : Slip t) : ∃ gs, Reads t gs := by
  cases h with
  | stray first last gs h hlength => exact ⟨_, .full first last gs hlength⟩
  | beside first last pre rest h hpre hrest hlength => exact ⟨_, .pair first last pre rest hpre hrest hlength⟩
  | nothing pre rest hpre hrest hlength =>
    have hle : (orZero pre).length + (orZero rest).length ≤ 8 := by
      rw [orZero_of_ne_nil hpre, orZero_of_ne_nil hrest, hlength]
    have hreads := Reads.pair false false pre rest (by simp) (by simp) (by simpa using hle)
    rw [edge, if_neg (by decide), nil_append, append_nil] at hreads
    exact ⟨_, hreads⟩

theorem Reads.spells_or_slip (h : Reads t gs) : Spells t (gs.map Group.value) ∨ Slip t := by
  cases h with
  | full first last gs hlength =>
    by_cases hedge : first ∨ last
    · exact .inr (.stray first last gs hedge hlength)
    · obtain ⟨hfirst, hlast⟩ := not_or.mp hedge
      rw [Bool.not_eq_true] at hfirst hlast
      subst hfirst hlast
      have hspells := Spells.full gs (by simpa using hlength)
      exact .inl (by simpa [edge, zeroIf] using hspells)
  | pair first last pre rest hpre hrest hlength =>
    by_cases hedge : first ∨ last
    · exact .inr (.beside first last pre rest hedge hpre hrest hlength)
    · obtain ⟨hfirst, hlast⟩ := not_or.mp hedge
      rw [Bool.not_eq_true] at hfirst hlast
      subst hfirst hlast
      rw [Bool.toNat_false, Nat.zero_add, Nat.add_zero] at hlength ⊢
      by_cases hless : pre.length + rest.length < 8
      · have hspells := Spells.compressed pre rest hless
        rw [← map_filled hless] at hspells
        exact .inl (by simpa [edge, zeroIf] using hspells)
      · have hpos : ∀ gs : List Group, gs.length ≤ (orZero gs).length ∧ 0 < (orZero gs).length := by
          intro gs
          cases gs with
          | nil => exact ⟨Nat.zero_le _, Nat.one_pos⟩
          | cons g gs => exact ⟨Nat.le_refl _, Nat.succ_pos _⟩
        have hpos₁ := hpos pre
        have hpos₂ := hpos rest
        have hne : pre ≠ [] := ne_nil_of_length_pos (by omega)
        have hne' : rest ≠ [] := ne_nil_of_length_pos (by omega)
        have hslip := Slip.nothing pre rest hne hne' (by omega)
        exact .inr (by simpa [edge] using hslip)

theorem pair_of_spells_head (h : Spells t ns) (hhead : t.head? = some COLON_CHAR) :
    [COLON_CHAR, COLON_CHAR] <+: t := by
  cases h with
  | full gs h => exact absurd hhead (head?_text_ne (ne_nil_of_length_pos (by omega)))
  | compressed pre rest h =>
    by_cases hpre : pre = []
    · subst hpre
      exact ⟨text rest, rfl⟩
    · rw [append_assoc, head?_append_of_ne_nil _
        (ne_nil_of_length_pos (length_text_pos hpre))] at hhead
      exact absurd hhead (head?_text_ne hpre)

theorem pair_of_spells_last (h : Spells t ns) (hlast : t.getLast? = some COLON_CHAR) :
    [COLON_CHAR, COLON_CHAR] <:+ t := by
  cases h with
  | full gs h => exact absurd hlast (getLast?_text_ne gs)
  | compressed pre rest h =>
    by_cases hrest : rest = []
    · subst hrest
      exact ⟨text pre, by simp [text]⟩
    · rw [getLast?_append_of_ne_nil _ (ne_nil_of_length_pos (length_text_pos hrest))] at hlast
      exact absurd hlast (getLast?_text_ne rest)

theorem not_spells_first (hne : gs ≠ []) : ¬ Spells (COLON_CHAR :: (text gs ++ u)) ns := by
  intro h
  have hpair := pair_of_spells_head h rfl
  have hhead := (cons_prefix_cons.mp hpair).2
  obtain ⟨g, gs, rfl⟩ := exists_cons_of_ne_nil hne
  obtain ⟨d, ds, hds, hd⟩ := g.exists_cons
  rw [text, hds] at hhead
  exact hd (cons_prefix_cons.mp hhead).1.symm

theorem not_spells_last (hne : gs ≠ []) : ¬ Spells (u ++ text gs ++ [COLON_CHAR]) ns := by
  intro h
  obtain ⟨v, hv⟩ := pair_of_spells_last h getLast?_concat
  rw [append_cons] at hv
  have hlast := (append_singleton_inj.mp hv).1
  have hend : (u ++ text gs).getLast? = (text gs).getLast? :=
    getLast?_append_of_ne_nil _ (ne_nil_of_length_pos (length_text_pos hne))
  exact getLast?_text_ne gs (by rw [← hend, ← hlast, getLast?_concat])

/-- A slip is no spelling. -/
theorem not_spells_of_slip (h : Slip t) : ¬ Spells t ns := by
  cases h with
  | stray first last gs h hlength =>
    have hne : gs ≠ [] := by
      rintro rfl
      have hle := Bool.toNat_le first
      have hle' := Bool.toNat_le last
      rw [length_nil] at hlength
      omega
    cases first with
    | true => exact not_spells_first (u := edge last) hne
    | false =>
      obtain rfl : last = true := by simpa using h
      exact not_spells_last (u := []) hne
  | beside first last pre rest h hpre hrest hlength =>
    cases first with
    | true =>
      have hnot : ¬ Spells (COLON_CHAR :: (text pre ++ ([COLON_CHAR, COLON_CHAR] ++ text rest ++ edge last))) ns :=
        not_spells_first (hpre rfl)
      simpa only [edge, if_pos, append_assoc, cons_append, nil_append] using hnot
    | false =>
      obtain rfl : last = true := by simpa using h
      exact not_spells_last (u := edge false ++ text pre ++ [COLON_CHAR, COLON_CHAR]) (hrest rfl)
  | nothing pre rest hpre hrest hlength =>
    intro hspells
    have hcount := count_pair hpre hrest
    have hhead : (text pre ++ [COLON_CHAR, COLON_CHAR] ++ text rest).head? ≠ some COLON_CHAR := by
      rw [append_assoc, head?_append_of_ne_nil _ (ne_nil_of_length_pos (length_text_pos hpre))]
      exact head?_text_ne hpre
    have hlast : (text pre ++ [COLON_CHAR, COLON_CHAR] ++ text rest).getLast? ≠ some COLON_CHAR := by
      rw [getLast?_append_of_ne_nil _ (ne_nil_of_length_pos (length_text_pos hrest))]
      exact getLast?_text_ne rest
    have hpair : [COLON_CHAR, COLON_CHAR] <:+: text pre ++ [COLON_CHAR, COLON_CHAR] ++ text rest :=
      ⟨text pre, text rest, rfl⟩
    generalize text pre ++ [COLON_CHAR, COLON_CHAR] ++ text rest = t at *
    cases hspells with
    | full gs h => exact not_infix_text gs hpair
    | compressed pre' rest' h =>
      -- a pair at an end would show there, and elsewhere it has as many colons as there are groups
      have hpre' : pre' ≠ [] := by
        rintro rfl
        exact hhead rfl
      have hrest' : rest' ≠ [] := by
        rintro rfl
        exact hlast (by simp [text])
      rw [count_pair hpre' hrest'] at hcount
      omega

end OpenResty.Kong.NormalizeIp
