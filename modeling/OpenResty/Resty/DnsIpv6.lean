/-
`compress_ipv6_addr` and `expand_ipv6_addr` of `resty.dns.resolver`, on texts.

The first run of zero groups becomes `::`; how many groups a `::` stands for is
counted from the colons, with a zero put before one at the beginning and behind
one at the end.
-/
import OpenResty.Lib.Backtrack

namespace OpenResty.Resty.DnsAddr

open Lib.Backtrack List Option

def DOT_CHAR : UInt8 := 46

def ZERO_CHAR : UInt8 := 48

def COLON_CHAR : UInt8 := 58

/-- `^(0:)+|(:0)+$|:(0:)+` -/
def zeroRuns : Regex :=
  .alt (.seq .start (.plus (.lit [ZERO_CHAR, COLON_CHAR])))
    (.alt (.seq (.plus (.lit [COLON_CHAR, ZERO_CHAR])) .stop)
      (.seq (.lit [COLON_CHAR]) (.plus (.lit [ZERO_CHAR, COLON_CHAR]))))

def compress_ipv6_addr (addr : Bytes) : Bytes :=
  let addr := sub zeroRuns addr [COLON_CHAR, COLON_CHAR]
  if addr = [COLON_CHAR, COLON_CHAR, ZERO_CHAR] then [COLON_CHAR, COLON_CHAR] else addr

/-- `_expand_ipv6_addr`; `rep` with a count below 0 is empty. -/
def expand_ipv6_addr (addr : Bytes) : Bytes :=
  if [COLON_CHAR, COLON_CHAR] <:+: addr then
    let ncol := 8 - addr.count COLON_CHAR
    let addr := if addr.head? = some COLON_CHAR then ZERO_CHAR :: addr else addr
    let addr := if addr.getLast? = some COLON_CHAR then addr ++ [ZERO_CHAR] else addr
    sub (.lit [COLON_CHAR, COLON_CHAR]) addr (COLON_CHAR :: times ncol [ZERO_CHAR, COLON_CHAR])
  else addr

/-! ## Texts of addresses -/

def digitValue (d : UInt8) : Option Nat :=
  if 48 ≤ d.toNat ∧ d.toNat ≤ 57 then some (d.toNat - 48)
  else if 97 ≤ d.toNat ∧ d.toNat ≤ 102 then some (d.toNat - 87)
  else if 65 ≤ d.toNat ∧ d.toNat ≤ 70 then some (d.toNat - 55)
  else none

/-- One to four hex digits -/
@[ext]
structure Group where
  text : Bytes
  length : 0 < text.length ∧ text.length ≤ 4
  digits : ∀ d ∈ text, (digitValue d).isSome

def Group.value (g : Group) : Nat := g.text.foldl (fun v d => 16 * v + (digitValue d).getD 0) 0

def zero : Group := ⟨[ZERO_CHAR], by decide, by simp [digitValue, ZERO_CHAR]⟩

/-- The groups, each behind a colon. -/
def tail (gs : List Group) : Bytes := gs.flatMap fun g => COLON_CHAR :: g.text

/-- The groups with colons between them. -/
def text : List Group → Bytes
  | [] => []
  | g :: gs => g.text ++ tail gs

/-- The text is all eight groups, with these values. -/
def Full (addr : Bytes) (ns : List Nat) : Prop := ∃ gs, gs.length = 8 ∧ addr = text gs ∧ ns = gs.map Group.value

/-- The text is the address with these values: all eight groups, or `::` for some that are 0. -/
inductive Spells : Bytes → List Nat → Prop
  | full (gs : List Group) (h : gs.length = 8) : Spells (text gs) (gs.map Group.value)
  | compressed (pre rest : List Group) (h : pre.length + rest.length < 8) :
      Spells (text pre ++ [COLON_CHAR, COLON_CHAR] ++ text rest)
        (pre.map Group.value ++ replicate (8 - (pre.length + rest.length)) 0 ++ rest.map Group.value)

variable {g : Group} {gs pre rest : List Group} {ns : List Nat} {addr t : Bytes} {i k : Nat}

@[simp] theorem tail_cons (g : Group) (gs : List Group) : tail (g :: gs) = COLON_CHAR :: (g.text ++ tail gs) := rfl

theorem tail_append (gs gs' : List Group) : tail (gs ++ gs') = tail gs ++ tail gs' := flatMap_append

theorem tail_of_ne_nil (hne : gs ≠ []) : tail gs = COLON_CHAR :: text gs := by
  obtain ⟨g, gs, rfl⟩ := exists_cons_of_ne_nil hne
  rfl

theorem text_append (hne : pre ≠ []) (gs : List Group) : text (pre ++ gs) = text pre ++ tail gs := by
  obtain ⟨g, pre, rfl⟩ := exists_cons_of_ne_nil hne
  rw [cons_append, text, tail_append, text, append_assoc]

theorem Group.ne_of_mem {d c : UInt8} (g : Group) (hd : d ∈ g.text) (hc : digitValue c = none) : d ≠ c := by
  rintro rfl
  have := g.digits d hd
  rw [hc] at this
  cases this

theorem Group.ne_colon {d : UInt8} (g : Group) (hd : d ∈ g.text) : d ≠ COLON_CHAR := g.ne_of_mem hd rfl

theorem Group.exists_cons (g : Group) : ∃ d ds, g.text = d :: ds ∧ d ≠ COLON_CHAR := by
  obtain ⟨d, ds, hds⟩ := exists_cons_of_length_pos g.length.1
  exact ⟨d, ds, hds, g.ne_colon (hds ▸ .head ds)⟩

theorem head?_text_ne (hne : gs ≠ []) : (text gs).head? ≠ some COLON_CHAR := by
  obtain ⟨g, gs, rfl⟩ := exists_cons_of_ne_nil hne
  obtain ⟨d, ds, hds, hcolon⟩ := g.exists_cons
  rw [text, hds]
  exact fun h => hcolon (some.inj h)

theorem getLast?_text_ne (gs : List Group) : (text gs).getLast? ≠ some COLON_CHAR := by
  rcases eq_nil_or_concat gs with rfl | ⟨gs, g, rfl⟩
  · exact some_ne_none _ |>.symm
  · have hlast : ∃ t, text (gs ++ [g]) = t ++ g.text := by
      by_cases hne : gs = []
      · exact ⟨[], by rw [hne]; simp [text, tail]⟩
      · exact ⟨text gs ++ [COLON_CHAR], by rw [text_append hne]; simp [tail]⟩
    obtain ⟨t, ht⟩ := hlast
    have hnil : g.text ≠ [] := ne_nil_of_length_pos g.length.1
    rw [concat_eq_append, ht, getLast?_append_of_ne_nil _ hnil, getLast?_eq_some_getLast hnil]
    exact fun h => g.ne_colon (getLast_mem hnil) (some.inj h)

theorem count_tail (gs : List Group) : (tail gs).count COLON_CHAR = gs.length := by
  induction gs with
  | nil => rfl
  | cons g gs ih =>
    have hzero : g.text.count COLON_CHAR = 0 := count_eq_zero.mpr fun h => g.ne_colon h rfl
    rw [tail_cons, count_cons_self, List.count_append, hzero, ih, Nat.zero_add, length_cons]

theorem count_text (gs : List Group) : (text gs).count COLON_CHAR = gs.length - 1 := by
  cases gs with
  | nil => rfl
  | cons g gs =>
    have hzero : g.text.count COLON_CHAR = 0 := count_eq_zero.mpr fun h => g.ne_colon h rfl
    rw [text, List.count_append, hzero, count_tail, Nat.zero_add, length_cons, Nat.add_sub_cancel]

theorem infix_of_append {ds : Bytes} (hds : COLON_CHAR ∉ ds) (h : [COLON_CHAR, COLON_CHAR] <:+: ds ++ t) :
    [COLON_CHAR, COLON_CHAR] <:+: t := by
  induction ds with
  | nil => exact h
  | cons d ds ih =>
    obtain ⟨hd, hds⟩ := not_or.mp (mt mem_cons.mpr hds)
    rcases infix_cons_iff.mp h with hprefix | hinfix
    · exact absurd (cons_prefix_cons.mp hprefix).1 hd
    · exact ih hds hinfix

theorem not_infix_tail (gs : List Group) : ¬ [COLON_CHAR, COLON_CHAR] <:+: tail gs := by
  induction gs with
  | nil => exact fun h => by cases infix_nil.mp h
  | cons g gs ih =>
    intro h
    rcases infix_cons_iff.mp h with hprefix | hinfix
    · obtain ⟨d, ds, hds, hcolon⟩ := g.exists_cons
      have hsecond := (cons_prefix_cons.mp hprefix).2
      rw [hds] at hsecond
      exact hcolon (cons_prefix_cons.mp hsecond).1.symm
    · exact ih (infix_of_append (fun h => g.ne_colon h rfl) hinfix)

theorem not_infix_text (gs : List Group) : ¬ [COLON_CHAR, COLON_CHAR] <:+: text gs := by
  cases gs with
  | nil => exact fun h => by cases infix_nil.mp h
  | cons g gs => exact fun h => not_infix_tail gs (infix_of_append (fun h => g.ne_colon h rfl) h)

/-! ## Runs of zero groups -/

theorem tail_zeros (k : Nat) : tail (replicate k zero) = times k [COLON_CHAR, ZERO_CHAR] := by
  induction k with
  | zero => rfl
  | succ k ih => rw [replicate_succ, tail_cons, ih]; rfl

/-- Each zero group stands before a colon where another group comes behind the run. -/
theorem tail_zeros_append (k : Nat) (hne : rest ≠ []) :
    tail (replicate k zero ++ rest) = COLON_CHAR :: (times k [ZERO_CHAR, COLON_CHAR] ++ text rest) := by
  induction k with
  | zero => exact tail_of_ne_nil hne
  | succ k ih => rw [replicate_succ, cons_append, tail_cons, ih]; rfl

theorem text_zeros_append (k : Nat) (hne : rest ≠ []) :
    text (replicate k zero ++ rest) = times k [ZERO_CHAR, COLON_CHAR] ++ text rest := by
  cases k with
  | zero => rfl
  | succ k =>
    rw [replicate_succ, cons_append, text, tail_zeros_append k hne]
    rfl

theorem eq_zero_of_begins (h : [ZERO_CHAR, COLON_CHAR] <+: text (g :: gs)) : g = zero := by
  obtain ⟨d, ds, hds, -⟩ := g.exists_cons
  rw [text, hds] at h
  obtain ⟨hd, hrest⟩ := cons_prefix_cons.mp h
  cases ds with
  | nil => exact Group.ext (by rw [hds, ← hd]; rfl)
  | cons e ds =>
    have he : e ∈ g.text := hds ▸ .tail _ (.head _)
    exact absurd (cons_prefix_cons.mp hrest).1.symm (g.ne_colon he)

theorem eq_zeros_of_tail (h : tail gs = times k [COLON_CHAR, ZERO_CHAR]) : ∀ g ∈ gs, g = zero := by
  induction gs generalizing k with
  | nil => exact fun g hg => by cases hg
  | cons g gs ih =>
    cases k with
    | zero => cases h
    | succ k =>
      obtain ⟨d, ds, hds, -⟩ := g.exists_cons
      rw [tail_cons, hds] at h
      obtain ⟨hd, hrest⟩ := List.cons.inj (List.cons.inj h).2
      cases ds with
      | nil =>
        have hg : g = zero := Group.ext (by rw [hds, hd]; rfl)
        exact forall_mem_cons.mpr ⟨hg, ih hrest⟩
      | cons e ds =>
        have he : e ∈ g.text := hds ▸ .tail _ (.head _)
        cases k with
        | zero => cases hrest
        | succ k => exact absurd (List.cons.inj hrest).1 (g.ne_colon he)

theorem notMem_newline (gs : List Group) : (10 : UInt8) ∉ tail gs := by
  intro h
  obtain ⟨g, hg, hmem⟩ := mem_flatMap.mp h
  rcases mem_cons.mp hmem with hcolon | hdigit
  · exact absurd hcolon (by decide)
  · exact g.ne_of_mem hdigit rfl rfl

/-! ## What is compressed -/

theorem ends_zeroRuns (i : Nat) (t : Bytes) :
    zeroRuns.ends i t =
      (Regex.seq .start (.plus (.lit [ZERO_CHAR, COLON_CHAR]))).ends i t ++
        ((Regex.seq (.plus (.lit [COLON_CHAR, ZERO_CHAR])) .stop).ends i t ++
          (Regex.seq (.lit [COLON_CHAR]) (.plus (.lit [ZERO_CHAR, COLON_CHAR]))).ends i t) := rfl

/-- `(:0)+$` matches only where all groups are zero. -/
theorem ends_lastRun (gs : List Group) (h : ∃ g ∈ gs, g ≠ zero) (i : Nat) :
    (Regex.seq (.plus (.lit [COLON_CHAR, ZERO_CHAR])) .stop).ends i (tail gs) = [] := by
  refine ends_seq_stop (notMem_newline gs) fun n hn => ?_
  obtain ⟨k, -, rfl, hcopies⟩ := mem_ends_plus hn
  refine lt_of_le_of_ne hcopies.length_le fun hlength => ?_
  obtain ⟨g, hg, hne⟩ := h
  exact hne (eq_zeros_of_tail (hcopies.eq_of_length hlength).symm g hg)

/-- Nothing matches at a digit behind the beginning. -/
theorem ends_digit {d : UInt8} (hi : 0 < i) (hd : d ≠ COLON_CHAR) (t : Bytes) : zeroRuns.ends i (d :: t) = [] := by
  have hcolon : ∀ s, ¬ (COLON_CHAR :: s) <+: d :: t := fun s h => hd (cons_prefix_cons.mp h).1.symm
  rw [ends_zeroRuns, ends_seq_of_nil (ends_start_of_pos hi _),
    ends_seq_of_nil (ends_plus_of_not (hcolon _)), ends_seq_of_nil (ends_lit_of_not (hcolon _))]
  rfl

/-- Nothing matches at the beginning, before a group that is not zero. -/
theorem ends_first (hg : g ≠ zero) : zeroRuns.ends 0 (text (g :: gs)) = [] := by
  obtain ⟨d, ds, hds, hd⟩ := g.exists_cons
  have hcolon : ∀ s, ¬ (COLON_CHAR :: s) <+: text (g :: gs) := by
    rw [text, hds]
    exact fun s h => hd (cons_prefix_cons.mp h).1.symm
  rw [ends_zeroRuns, ends_start_seq, ends_plus_of_not (fun h => hg (eq_zero_of_begins h)),
    ends_seq_of_nil (ends_plus_of_not (hcolon _)), ends_seq_of_nil (ends_lit_of_not (hcolon _))]
  rfl

/-- Nothing matches at the colon before a group that is not zero. -/
theorem ends_colon (hi : 0 < i) (hg : g ≠ zero) : zeroRuns.ends i (tail (g :: gs)) = [] := by
  have hlast := ends_lastRun (g :: gs) ⟨g, .head _, hg⟩ i
  have hinner : (Regex.seq (.lit [COLON_CHAR]) (.plus (.lit [ZERO_CHAR, COLON_CHAR]))).ends i (tail
    (g :: gs)) = [] := by
    have hnot : ¬ [ZERO_CHAR, COLON_CHAR] <+: text (g :: gs) := fun h => hg (eq_zero_of_begins h)
    rw [tail_of_ne_nil (cons_ne_nil g gs), ends_seq_byte, ends_plus_of_not hnot]
    rfl
  rw [ends_zeroRuns, ends_seq_of_nil (ends_start_of_pos hi _), hlast, hinner]
  rfl

/-- A run at the end matches with the colons before its groups. -/
theorem head?_ends_lastRun (hi : 0 < i) (hk : 0 < k) :
    (zeroRuns.ends i (tail (replicate k zero))).head? = some (tail (replicate k zero)).length := by
  have hplus := head?_ends_plus (i := i) (u := [COLON_CHAR, ZERO_CHAR]) (t := []) (by decide) hk (by decide)
  rw [append_nil, ← tail_zeros] at hplus
  obtain ⟨ns, hns⟩ := head?_eq_some_iff.mp hplus
  have hlast : ((Regex.seq (.plus (.lit [COLON_CHAR, ZERO_CHAR])) .stop).ends i
    (tail (replicate k zero))).head? =
      some (tail (replicate k zero)).length := by
    rw [ends_seq, hns, flatMap_cons, drop_length]
    rfl
  rw [ends_zeroRuns, ends_seq_of_nil (ends_start_of_pos hi _), nil_append, head?_append, hlast]
  rfl

/-- A run before another group matches with the colons on both sides. -/
theorem head?_ends_innerRun (hi : 0 < i) (hk : 0 < k) (hg : g ≠ zero) :
    (zeroRuns.ends i (tail (replicate k zero ++ g :: gs))).head? =
      some (COLON_CHAR :: times k [ZERO_CHAR, COLON_CHAR]).length := by
  have hlast := ends_lastRun (replicate k zero ++ g :: gs) ⟨g, by simp, hg⟩ i
  have hplus := head?_ends_plus (i := i + 1) (u := [ZERO_CHAR, COLON_CHAR]) (t := text (g :: gs)) (by decide) hk
    (fun h => hg (eq_zero_of_begins h))
  rw [ends_zeroRuns, ends_seq_of_nil (ends_start_of_pos hi _), hlast,
    tail_zeros_append k (cons_ne_nil g gs), ends_seq_byte, nil_append,
    nil_append, head?_map]
  exact (congrArg _ hplus).trans (congrArg some (Nat.add_comm _ _))

/-- A run at the beginning matches with the colons behind its groups. -/
theorem head?_ends_firstRun (hk : 0 < k) (hg : g ≠ zero) :
    (zeroRuns.ends 0 (text (replicate k zero ++ g :: gs))).head? =
      some (times k [ZERO_CHAR, COLON_CHAR]).length := by
  have hplus := head?_ends_plus (i := 0) (u := [ZERO_CHAR, COLON_CHAR]) (t := text (g :: gs)) (by decide) hk
    (fun h => hg (eq_zero_of_begins h))
  rw [ends_zeroRuns, ends_start_seq, text_zeros_append k (cons_ne_nil g gs), head?_append, hplus]
  rfl

/-- The groups before the first run of zero groups are passed over. -/
theorem search_tail (hi : 0 < i) (hpre : zero ∉ pre) (gs : List Group) :
    search zeroRuns i (tail (pre ++ gs)) = search zeroRuns (i + (tail pre).length) (tail gs) := by
  induction pre generalizing i with
  | nil => rfl
  | cons g pre ih =>
    obtain ⟨hg, hpre⟩ := not_or.mp (mt mem_cons.mpr hpre)
    have hskip : search zeroRuns i ((COLON_CHAR :: g.text) ++ tail (pre ++ gs)) =
        search zeroRuns (i + (COLON_CHAR :: g.text).length) (tail (pre ++ gs)) := by
      refine search_skip fun v w hvw hw => ?_
      cases v with
      | nil =>
        have hhere : zeroRuns.ends i (tail (g :: (pre ++ gs))) = [] := ends_colon hi (Ne.symm hg)
        rw [nil_append] at hvw
        rwa [hvw]
      | cons c v =>
        obtain ⟨d, w, rfl⟩ := exists_cons_of_ne_nil hw
        have hd : d ∈ g.text := (List.cons.inj hvw).2 ▸ mem_append_right v (.head w)
        exact ends_digit (Nat.add_pos_left hi _) (g.ne_colon hd) _
    rw [cons_append, tail_cons, ← cons_append, hskip, ih (Nat.add_pos_left hi _) hpre, tail_cons,
      ← cons_append, length_append, Nat.add_assoc]

theorem search_text (hne : pre ≠ []) (hpre : zero ∉ pre) (gs : List Group) :
    search zeroRuns 0 (text (pre ++ gs)) = search zeroRuns (text pre).length (tail gs) := by
  obtain ⟨g, pre, rfl⟩ := exists_cons_of_ne_nil hne
  obtain ⟨hg, hpre⟩ := not_or.mp (mt mem_cons.mpr hpre)
  have hskip : search zeroRuns 0 (g.text ++ tail (pre ++ gs)) = search zeroRuns (0 + g.text.length)
    (tail (pre ++ gs)) := by
    refine search_skip fun v w hvw hw => ?_
    cases v with
    | nil =>
      rw [nil_append] at hvw
      exact hvw ▸ ends_first (Ne.symm hg)
    | cons c v =>
      obtain ⟨d, w, rfl⟩ := exists_cons_of_ne_nil hw
      have hd : d ∈ g.text := hvw ▸ mem_append_right (c :: v) (.head w)
      exact ends_digit (by simp) (g.ne_colon hd) _
  rw [cons_append, text, hskip, Nat.zero_add, search_tail g.length.1 hpre, text, length_append]

/-- The first run of zero groups. -/
theorem exists_run (gs : List Group) :
    zero ∉ gs ∨ ∃ pre k rest, gs = pre ++ replicate k zero ++ rest ∧ zero ∉ pre ∧ 0 < k ∧
      rest.head? ≠ some zero := by
  induction gs with
  | nil => exact .inl not_mem_nil
  | cons g gs ih =>
    by_cases hg : g = zero
    · subst hg
      refine .inr ?_
      rcases ih with hnot | ⟨pre, k, rest, rfl, hpre, hk, hrest⟩
      · exact ⟨[], 1, gs, rfl, not_mem_nil, Nat.one_pos, fun h => hnot (mem_of_mem_head? h)⟩
      · cases pre with
        | nil => exact ⟨[], k + 1, rest, rfl, not_mem_nil, Nat.succ_pos k, hrest⟩
        | cons g pre =>
          refine ⟨[], 1, _, rfl, not_mem_nil, Nat.one_pos, fun h => hpre ?_⟩
          exact some.inj h ▸ .head pre
    · rcases ih with hnot | ⟨pre, k, rest, rfl, hpre, hk, hrest⟩
      · exact .inl fun h => (mem_cons.mp h).elim (fun h => hg h.symm) hnot
      · refine .inr ⟨g :: pre, k, rest, rfl, fun h => ?_, hk, hrest⟩
        exact (mem_cons.mp h).elim (fun h => hg h.symm) hpre

theorem sub_noRun (h : zero ∉ gs) : sub zeroRuns (text gs) [COLON_CHAR, COLON_CHAR] = text gs := by
  refine sub_of_none ?_ _
  cases gs with
  | nil => rfl
  | cons g gs =>
    rw [← append_nil (g :: gs), search_text (cons_ne_nil g gs) h]
    have hpos : 0 < (text (g :: gs)).length := Nat.lt_of_lt_of_le g.length.1 (by simp [text])
    rw [tail, flatMap_nil, search_nil, ends_zeroRuns, ends_seq_of_nil (ends_start_of_pos hpos _)]
    rfl

theorem length_text_pos (hne : gs ≠ []) : 0 < (text gs).length := by
  obtain ⟨g, gs, rfl⟩ := exists_cons_of_ne_nil hne
  rw [text, length_append]
  exact Nat.add_pos_left g.length.1 _

theorem sub_lastRun (hne : pre ≠ []) (hpre : zero ∉ pre) (hk : 0 < k) :
    sub zeroRuns (text (pre ++ replicate k zero)) [COLON_CHAR, COLON_CHAR] = text pre ++
      [COLON_CHAR, COLON_CHAR] := by
  have hsearch := search_text hne hpre (replicate k zero)
  rw [search_here (head?_ends_lastRun (length_text_pos hne) hk), text_append hne] at hsearch
  rw [text_append hne]
  have hsub := sub_of_search (u := []) (by rwa [append_nil]) [COLON_CHAR, COLON_CHAR]
  rwa [append_nil, append_nil] at hsub

theorem sub_innerRun (hne : pre ≠ []) (hpre : zero ∉ pre) (hk : 0 < k) (hg : g ≠ zero) :
    sub zeroRuns (text (pre ++ (replicate k zero ++ g :: gs))) [COLON_CHAR, COLON_CHAR] =
      text pre ++ [COLON_CHAR, COLON_CHAR] ++ text (g :: gs) := by
  have hsearch := search_text hne hpre (replicate k zero ++ g :: gs)
  rw [search_here (head?_ends_innerRun (length_text_pos hne) hk hg)] at hsearch
  have htext : text (pre ++ (replicate k zero ++ g :: gs)) =
      text pre ++ (COLON_CHAR :: times k [ZERO_CHAR, COLON_CHAR]) ++ text (g :: gs) := by
    rw [text_append hne, tail_zeros_append k (cons_ne_nil g gs), append_assoc, cons_append]
  rw [htext] at hsearch ⊢
  exact sub_of_search hsearch _

theorem sub_firstRun (hk : 0 < k) (hg : g ≠ zero) :
    sub zeroRuns (text (replicate k zero ++ g :: gs)) [COLON_CHAR, COLON_CHAR] =
      [COLON_CHAR, COLON_CHAR] ++ text (g :: gs) := by
  have hsearch : search zeroRuns 0 (text (replicate k zero ++ g :: gs)) =
      some (0, (times k [ZERO_CHAR, COLON_CHAR]).length) := search_here (head?_ends_firstRun hk hg)
  rw [text_zeros_append k (cons_ne_nil g gs)] at hsearch ⊢
  exact sub_of_search (s := []) hsearch _

theorem compress_eq (h : sub zeroRuns addr [COLON_CHAR, COLON_CHAR] = t)
    (hne : t ≠ [COLON_CHAR, COLON_CHAR, ZERO_CHAR]) :
    compress_ipv6_addr addr = t := by
  rw [compress_ipv6_addr, h]
  exact if_neg hne

theorem ne_of_text (hne : gs ≠ []) (t u : Bytes) : text gs ++ t ≠ COLON_CHAR :: u := by
  obtain ⟨g, gs, rfl⟩ := exists_cons_of_ne_nil hne
  obtain ⟨d, ds, hds, hd⟩ := g.exists_cons
  rw [text, hds]
  exact fun h => hd (List.cons.inj h).1

theorem ne_zero_text (hg : g ≠ zero) : text (g :: gs) ≠ [ZERO_CHAR] := by
  intro h
  obtain ⟨d, ds, hds, -⟩ := g.exists_cons
  rw [text, hds] at h
  obtain ⟨hd, hrest⟩ := List.cons.inj h
  exact hg (Group.ext (by rw [hds, hd, (append_eq_nil_iff.mp hrest).1]; rfl))

theorem map_zeros (k : Nat) : (replicate k zero).map Group.value = replicate k 0 := map_replicate

theorem spells_run (h : (pre ++ (replicate k zero ++ rest)).length = 8) (hk : 0 < k) :
    Spells (text pre ++ [COLON_CHAR, COLON_CHAR] ++ text rest)
      ((pre ++ (replicate k zero ++ rest)).map Group.value) := by
  rw [length_append, length_append, length_replicate] at h
  have hspells := Spells.compressed pre rest (by omega)
  rw [show 8 - (pre.length + rest.length) = k by omega] at hspells
  rwa [map_append, map_append, map_zeros, ← append_assoc]

/-- **A full address is compressed to a spelling of itself.** -/
theorem spells_compress (h : Full addr ns) : Spells (compress_ipv6_addr addr) ns := by
  obtain ⟨gs, hlength, rfl, rfl⟩ := h
  have hgs : gs ≠ [] := by
    rintro rfl
    cases hlength
  rcases exists_run gs with hnot | ⟨pre, k, rest, rfl, hpre, hk, hrest⟩
  · have hkept := ne_of_text hgs [] [COLON_CHAR, ZERO_CHAR]
    rw [append_nil] at hkept
    rw [compress_eq (sub_noRun hnot) hkept]
    exact .full gs hlength
  · rw [append_assoc] at *
    cases rest with
    | nil =>
      by_cases hne : pre = []
      · -- all the groups are zero, and the match leaves the last one
        subst hne
        have height : k = 8 := by simpa using hlength
        subst height
        have hall : compress_ipv6_addr (text (replicate 8 zero)) = [COLON_CHAR, COLON_CHAR] := by decide
        have hspells : Spells (text [] ++ [COLON_CHAR, COLON_CHAR] ++ text []) _ := spells_run hlength hk
        rw [nil_append, append_nil, hall]
        exact hspells
      · have hspells := spells_run hlength hk
        rw [append_nil, text, append_nil] at *
        rwa [compress_eq (sub_lastRun hne hpre hk) (ne_of_text hne _ _)]
    | cons g rest =>
      have hg : g ≠ zero := fun h => hrest (congrArg some h)
      have hspells := spells_run hlength hk
      by_cases hne : pre = []
      · subst hne
        have hother : [COLON_CHAR, COLON_CHAR] ++ text (g :: rest) ≠ [COLON_CHAR, COLON_CHAR, ZERO_CHAR] :=
          fun h => ne_zero_text hg (List.cons.inj (List.cons.inj h).2).2
        rw [nil_append] at *
        rwa [compress_eq (sub_firstRun hk hg) hother]
      · rw [compress_eq (sub_innerRun hne hpre hk hg) (by rw [append_assoc]; exact ne_of_text hne _ _)]
        exact hspells

/-! ## What is expanded -/

/-- A zero group where there is none. -/
def orZero : List Group → List Group
  | [] => [zero]
  | g :: gs => g :: gs

theorem orZero_ne_nil (gs : List Group) : orZero gs ≠ [] := by
  cases gs with
  | nil => exact cons_ne_nil _ _
  | cons g gs => exact cons_ne_nil _ _

theorem zero_before (pre : List Group) (t : Bytes) :
    (if (text pre ++ COLON_CHAR :: t).head? = some COLON_CHAR then ZERO_CHAR :: (text pre ++ COLON_CHAR :: t)
      else text pre ++ COLON_CHAR :: t) = text (orZero pre) ++ COLON_CHAR :: t := by
  cases pre with
  | nil => rfl
  | cons g pre =>
    have hhead : (text (g :: pre) ++ COLON_CHAR :: t).head? ≠ some COLON_CHAR := by
      rw [head?_append_of_ne_nil _ (ne_nil_of_length_pos (length_text_pos (cons_ne_nil g pre)))]
      exact head?_text_ne (cons_ne_nil g pre)
    exact if_neg hhead

theorem zero_behind (t : Bytes) (rest : List Group) :
    (if (t ++ [COLON_CHAR] ++ text rest).getLast? = some COLON_CHAR then t ++ [COLON_CHAR] ++ text rest ++ [ZERO_CHAR]
      else t ++ [COLON_CHAR] ++ text rest) = t ++ [COLON_CHAR] ++ text (orZero rest) := by
  cases rest with
  | nil => rw [text, append_nil, getLast?_concat, if_pos rfl]; rfl
  | cons g rest =>
    have hlast : (t ++ [COLON_CHAR] ++ text (g :: rest)).getLast? ≠ some COLON_CHAR := by
      rw [getLast?_append_of_ne_nil _ (ne_nil_of_length_pos (length_text_pos (cons_ne_nil g rest)))]
      exact getLast?_text_ne (g :: rest)
    exact if_neg hlast

/-- No pair of colons begins within a text. -/
theorem search_pair (gs : List Group) (t : Bytes) :
    search (.lit [COLON_CHAR, COLON_CHAR]) 0 (text gs ++ [COLON_CHAR, COLON_CHAR] ++ t) =
      some ((text gs).length, [COLON_CHAR, COLON_CHAR].length) := by
  rw [append_assoc, search_skip, Nat.zero_add]
  · exact search_here (by rw [ends_lit]; rfl)
  · intro v w hvw hw
    refine ends_lit_of_not fun h => ?_
    obtain ⟨d, w, rfl⟩ := exists_cons_of_ne_nil hw
    rw [cons_append] at h
    obtain ⟨hd, hrest⟩ := cons_prefix_cons.mp h
    cases w with
    | nil => exact getLast?_text_ne gs (by rw [← hvw, ← hd, getLast?_concat])
    | cons e w =>
      rw [cons_append] at hrest
      have he := (cons_prefix_cons.mp hrest).1
      exact not_infix_text gs ⟨v, w, by rw [← hvw, ← hd, ← he, append_assoc]; rfl⟩

theorem expand_compressed (pre rest : List Group) :
    expand_ipv6_addr (text pre ++ [COLON_CHAR, COLON_CHAR] ++ text rest) =
      text (orZero pre ++
        (replicate (8 - ((orZero pre).length + (orZero rest).length)) zero ++ orZero rest)) := by
  have hlength : ∀ gs : List Group, gs.length - 1 + 1 = (orZero gs).length := by
    intro gs
    cases gs with
    | nil => rfl
    | cons g gs => rfl
  have hcount : (text pre ++ [COLON_CHAR, COLON_CHAR] ++ text rest).count COLON_CHAR =
      (orZero pre).length + (orZero rest).length := by
    rw [List.count_append, List.count_append, count_text, count_text, ← hlength pre, ← hlength rest]
    have htwo : [COLON_CHAR, COLON_CHAR].count COLON_CHAR = 2 := rfl
    omega
  have hbefore := zero_before pre (COLON_CHAR :: text rest)
  have hbehind := zero_behind (text (orZero pre) ++ [COLON_CHAR]) rest
  have hshape : ∀ ps : List Group, text ps ++ [COLON_CHAR, COLON_CHAR] ++ text rest =
      text ps ++ COLON_CHAR :: COLON_CHAR :: text rest := fun ps => append_assoc _ _ _
  have hshape' : ∀ rs : List Group, text (orZero pre) ++ [COLON_CHAR] ++ [COLON_CHAR] ++ text rs =
      text (orZero pre) ++ [COLON_CHAR, COLON_CHAR] ++ text rs := fun rs => by simp only [append_assoc]; rfl
  rw [expand_ipv6_addr, if_pos ⟨text pre, text rest, rfl⟩, hcount]
  simp only
  rw [hshape pre, hbefore, ← hshape (orZero pre), ← hshape' rest, hbehind, hshape', sub_of_search (search_pair _ _),
    text_append (orZero_ne_nil pre), tail_zeros_append _ (orZero_ne_nil rest), append_assoc, cons_append]

theorem length_orZero (pre rest : List Group) (h : pre.length + rest.length < 8) :
    pre.length ≤ (orZero pre).length ∧ rest.length ≤ (orZero rest).length ∧
      (orZero pre).length + (orZero rest).length ≤ 8 := by
  cases pre <;> cases rest <;> simp only [orZero, length_cons, length_nil] at * <;> omega

theorem map_orZero (gs : List Group) :
    (orZero gs).map Group.value = gs.map Group.value ++ replicate ((orZero gs).length - gs.length) 0 ∧
      (orZero gs).map Group.value = replicate ((orZero gs).length - gs.length) 0 ++ gs.map Group.value := by
  cases gs with
  | nil => exact ⟨rfl, rfl⟩
  | cons g gs => simp [orZero]

/-- The values of the groups, with those of a `::` filled in. -/
theorem map_filled (h : pre.length + rest.length < 8) :
    (orZero pre ++ (replicate (8 - ((orZero pre).length + (orZero rest).length)) zero ++ orZero rest)).map
        Group.value =
      pre.map Group.value ++ replicate (8 - (pre.length + rest.length)) 0 ++ rest.map Group.value := by
  obtain ⟨hpre, hrest, hle⟩ := length_orZero pre rest h
  have hsum : 8 - (pre.length + rest.length) = (orZero pre).length - pre.length +
      (8 - ((orZero pre).length + (orZero rest).length)) + ((orZero rest).length - rest.length) := by omega
  rw [map_append, map_append, map_zeros, (map_orZero pre).1, (map_orZero rest).2, hsum,
    ← replicate_append_replicate, ← replicate_append_replicate]
  simp only [append_assoc]

/-- **A spelling is expanded to the full address.** -/
theorem full_expand (h : Spells addr ns) : Full (expand_ipv6_addr addr) ns := by
  cases h with
  | full gs h =>
    refine ⟨gs, h, ?_, rfl⟩
    rw [expand_ipv6_addr, if_neg (not_infix_text gs)]
  | compressed pre rest h =>
    obtain ⟨-, -, hle⟩ := length_orZero pre rest h
    refine ⟨_, ?_, expand_compressed pre rest, (map_filled h).symm⟩
    rw [length_append, length_append, length_replicate]
    omega

end OpenResty.Resty.DnsAddr
