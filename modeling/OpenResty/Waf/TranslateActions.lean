/-
`resty.waf.translate`: `parse_actions`, which splits the actions of a rule at their
commas, and puts the chunks of a quoted value together again.

A list of actions is joined as ModSecurity writes it. It is parsed back as it was if
and only if each of its actions is `Careful`.
-/
import OpenResty.Lib.Pieces
import OpenResty.Waf.TranslateTokens

namespace OpenResty.Waf.Translate.Actions

open List Option

open Lib.Pieces (pieces squeeze)

def comma : UInt8 := 44
def colon : UInt8 := 58
def apostrophe : UInt8 := 39

/-- `split`: `([^'..delimiter..']+)` -/
def split (source : Bytes) (delimiter : UInt8) : List Bytes := pieces delimiter source

/-- `table.concat` -/
def concat (parts : List Bytes) (sep : UInt8) : Bytes := [sep].intercalate parts

/-- The loop over the chunks, which gathers them in `action_buf` up to the end of an action;
what is in it when they are used up is lost. -/
def gather : List Bytes → List Bytes → List Bytes
  | [], _ => []
  | chunk :: split_actions, action_buf =>
    let action_buf := action_buf ++ [chunk]
    let inbuf := action_buf.length > 1 ∧ apostrophe ∈ action_buf.head?.getD []
    let sentinal := (apostrophe ∉ chunk ∨ colon ∉ chunk) ∧ ¬ inbuf ∨ chunk.getLast? = some apostrophe
    if sentinal then concat action_buf comma :: gather split_actions [] else gather split_actions action_buf

/-- `re_gsub` with `pats.trim_whitespace`, `^\s*|\s*$` -/
def trim_whitespace (s : Bytes) : Bytes := ((s.dropWhile space).reverse.dropWhile space).reverse

/-- `pats.encap_quotes`, `^(['"])(.*)\1$`: the second capture. A newline at the very end is
behind what `$` matches. -/
def encap_quotes : Bytes → Option Bytes
  | [] => none
  | c :: s =>
    let s := if s.getLast? = some newline then s.dropLast else s
    if (c = apostrophe ∨ c = quote) ∧ s.getLast? = some c ∧ newline ∉ s.dropLast then some s.dropLast else none

def strip_encap_quotes (str : Bytes) : Bytes := (encap_quotes str).getD str

/-- An action that `parse_actions` returns -/
structure Parsed where
  action : Bytes
  value : Option Bytes
deriving DecidableEq, Repr

/-- The loop over the tokens. Of a token of colons alone there is no action, and `re_gsub`
raises an error. -/
def parse_token (token : Bytes) : Option Parsed :=
  match split token colon with
  | [] => none
  | action :: token_parts =>
    let value := concat token_parts colon
    some ⟨trim_whitespace action, if value.length > 0 then some (strip_encap_quotes value) else none⟩

/-- `none` if it raises an error -/
def parse_actions (raw_actions : Bytes) : Option (List Parsed) :=
  (gather (split raw_actions comma) []).mapM parse_token

/-! ## Actions -/

/-- A name: no separators in it. -/
structure ActionName where
  bytes : Bytes
  ne : bytes ≠ []
  comma_free : comma ∉ bytes
  colon_free : colon ∉ bytes

/-- A value, as it is written: a bare word, which holds neither comma nor apostrophe, or
any bytes but the apostrophe between two of them. -/
inductive ActionValue
  | bare (word : Bytes) (ne : word ≠ []) (comma_free : comma ∉ word) (free : apostrophe ∉ word)
  | quoted (text : Bytes) (free : apostrophe ∉ text)

structure Action where
  name : ActionName
  value : Option ActionValue

/-- As ModSecurity writes it -/
def ActionValue.raw : ActionValue → Bytes
  | .bare word _ _ _ => word
  | .quoted text _ => apostrophe :: (text ++ [apostrophe])

def ActionValue.bytes : ActionValue → Bytes
  | .bare word _ _ _ => word
  | .quoted text _ => text

def Action.raw (a : Action) : Bytes :=
  match a.value with
  | none => a.name.bytes
  | some value => a.name.bytes ++ colon :: value.raw

def Action.parsed (a : Action) : Parsed := ⟨a.name.bytes, a.value.map ActionValue.bytes⟩

def join (actions : List Action) : Bytes := concat (actions.map Action.raw) comma

/-- The list of actions is parsed as it was joined. -/
def Right (actions : List Action) : Prop := parse_actions (join actions) = some (actions.map Action.parsed)

/-- The name has no white space at its ends. A word has no doubled colons and none at its ends,
is not between double quotes, and there is no apostrophe in the name. A text has no newline,
no doubled colons, no doubled commas and no comma at its front. -/
def Action.Careful (a : Action) : Prop :=
  trim_whitespace a.name.bytes = a.name.bytes ∧
    match a.value with
    | none => True
    | some (.bare word _ _ _) => apostrophe ∉ a.name.bytes ∧ Lib.Pieces.Kept colon word ∧ encap_quotes word = none
    | some (.quoted text _) =>
      newline ∉ text ∧ ¬ [colon, colon] <:+: text ∧ ¬ [comma, comma] <:+: text ∧ text.head? ≠ some comma

/-! When `parse_actions` parses a list of actions as it was joined.

The chunks of an action are gathered to one token, unless its text begins with a comma or
an apostrophe is in the name in front of a bare word (`gather_closed`). What is read of a
token is the action, less what the two splits lose. -/

open Lib.Pieces

variable {a : Action} {name text word token : Bytes} {buf ms R actions : List Bytes}

/-! ## Tokens -/

theorem parse_token_name (hne : name ≠ []) (hcolon : colon ∉ name) :
    parse_token name = some ⟨trim_whitespace name, none⟩ := by
  rw [parse_token, split, pieces_of_notMem hcolon hne]
  rfl

theorem parse_token_value (hne : name ≠ []) (hcolon : colon ∉ name) (v : Bytes) :
    parse_token (name ++ colon :: v) = some ⟨trim_whitespace name,
      if squeeze colon v = [] then none else some (strip_encap_quotes (squeeze colon v))⟩ := by
  rw [parse_token, split, pieces_append_of_notMem hcolon hne]
  have hvalue : concat (pieces colon v) colon = squeeze colon v := rfl
  simp only [hvalue]
  by_cases hnil : squeeze colon v = []
  · rw [if_pos hnil, hnil]
    rfl
  · rw [if_neg hnil, if_pos (length_pos_iff.mpr hnil)]

variable {b s : Bytes}

theorem encap_quotes_length {mid : Bytes} (h : encap_quotes s = some mid) : mid.length < s.length := by
  cases s with
  | nil => cases h
  | cons c s =>
    have hle : (if s.getLast? = some newline then s.dropLast else s).length ≤ s.length := by
      split
      · rw [length_dropLast]
        omega
      · exact Nat.le_refl _
    rw [encap_quotes] at h
    generalize (if s.getLast? = some newline then s.dropLast else s) = s' at h hle
    obtain ⟨-, hmid⟩ := ite_none_right_eq_some.mp h
    rw [← some.inj hmid, length_dropLast, length_cons]
    omega

theorem length_strip (s : Bytes) : (strip_encap_quotes s).length ≤ s.length := by
  rw [strip_encap_quotes]
  cases h : encap_quotes s with
  | none => exact Nat.le_refl _
  | some mid => exact (encap_quotes_length h).le

theorem strip_eq_self : strip_encap_quotes s = s ↔ encap_quotes s = none := by
  rw [strip_encap_quotes]
  cases h : encap_quotes s with
  | none => simp
  | some mid =>
    have := encap_quotes_length h
    refine iff_of_false (fun heq => ?_) nofun
    rw [getD_some] at heq
    rw [heq] at this
    exact Nat.lt_irrefl _ this

/-- A word is read as it is if nothing of it is lost at its colons or stripped. -/
theorem word_read (hne : word ≠ []) :
    (if squeeze colon word = [] then none else some (strip_encap_quotes (squeeze colon word))) = some word ↔
      Lib.Pieces.Kept colon word ∧ encap_quotes word = none := by
  constructor
  · intro h
    split at h
    · cases h
    · have hlength := congrArg List.length (some.inj h)
      have := length_strip (squeeze colon word)
      have hself := (squeeze_sublist colon word).eq_of_length_le (by omega)
      rw [hself] at h
      exact ⟨squeeze_eq_self.mp hself, strip_eq_self.mp (some.inj h)⟩
  · rintro ⟨hkept, hencap⟩
    rw [squeeze_eq_self.mpr hkept, if_neg hne, strip_eq_self.mpr hencap]

/-- Between apostrophes a text is stripped of them unless there is a newline in it. -/
theorem strip_between (w : Bytes) :
    strip_encap_quotes (apostrophe :: (w ++ [apostrophe])) =
      if newline ∈ w then apostrophe :: (w ++ [apostrophe]) else w := by
  rw [strip_encap_quotes, encap_quotes]
  simp only [getLast?_concat, if_neg (show ¬ some apostrophe = some newline by decide), dropLast_concat,
    true_or, true_and]
  by_cases hmem : newline ∈ w
  · rw [if_neg (not_not_intro hmem), if_pos hmem]
    rfl
  · rw [if_pos hmem, if_neg hmem]
    rfl

/-- A quoted text is read as it is if nothing of it is lost at its commas or colons, and it
has no newline. -/
theorem text_read (hfree : apostrophe ∉ text) :
    strip_encap_quotes (squeeze colon (squeeze comma (apostrophe :: (text ++ [apostrophe])))) = text ↔
      newline ∉ text ∧ ¬ [colon, colon] <:+: text ∧ ¬ [comma, comma] <:+: text := by
  have hcomma : apostrophe ≠ comma := by decide
  have hcolon : apostrophe ≠ colon := by decide
  have hself := squeeze_squeeze_eq_self (d := comma) (e := colon) (s := apostrophe :: (text ++ [apostrophe]))
  rw [kept_between hcomma, kept_between hcolon] at hself
  obtain ⟨w, hw, -, hwmem⟩ := squeeze_between hcomma text
  obtain ⟨w', hw', -, hw'mem⟩ := squeeze_between hcolon w
  have hnewline : newline ∈ w' ↔ newline ∈ text :=
    (hw'mem newline (by decide) (by decide)).trans (hwmem newline (by decide) (by decide))
  rw [hw, hw'] at hself
  rw [hw, hw', strip_between]
  by_cases hmem : newline ∈ text
  · refine iff_of_false (fun h => hfree ?_) fun h => h.1 hmem
    rw [if_pos (hnewline.mpr hmem)] at h
    rw [← h]
    exact mem_cons_self
  · rw [if_neg (mt hnewline.mp hmem), and_iff_right hmem, and_comm, ← hself]
    simp

/-- The chunks of the action are gathered to one token. -/
def Action.Closed (a : Action) : Prop :=
  match a.value with
  | none => True
  | some (.bare _ _ _ _) => apostrophe ∉ a.name.bytes
  | some (.quoted text _) => text.head? ≠ some comma

theorem Action.Careful.closed (h : a.Careful) : a.Closed := by
  obtain ⟨name, value⟩ := a
  rcases value with _ | ⟨word, _, _, _⟩ | ⟨text, _⟩
  · trivial
  · exact h.2.1
  · exact h.2.2.2.2

/-- The token of an action is read as the action exactly if it is careful. -/
theorem token_read (h : a.Closed) : parse_token (squeeze comma a.raw) = some a.parsed ↔ a.Careful := by
  obtain ⟨⟨name, hne, hcomma, hcolon⟩, value⟩ := a
  rcases value with _ | ⟨word, hword, hfree, hapostrophe⟩ | ⟨text, hfree⟩
  · rw [Action.raw, squeeze_of_notMem hcomma hne, parse_token_name hne hcolon, some.injEq, Action.parsed,
      Parsed.mk.injEq]
    exact and_congr Iff.rfl (iff_of_true rfl trivial)
  · have hmem : comma ∉ name ++ colon :: word := by
      simp only [mem_append, mem_cons, not_or]
      exact ⟨hcomma, by decide, hfree⟩
    change parse_token (squeeze comma (name ++ colon :: word)) = some ⟨name, some word⟩ ↔ _
    rw [squeeze_of_notMem hmem (by simp), parse_token_value hne hcolon, some.injEq, Parsed.mk.injEq, word_read hword]
    exact and_congr Iff.rfl (and_iff_right h).symm
  · have hmem : comma ∉ name ++ [colon] := by
      simp only [mem_append, mem_singleton, not_or]
      exact ⟨hcomma, by decide⟩
    have hfront : (apostrophe :: (text ++ [apostrophe])).head? ≠ some comma := fun h => by cases h
    have hsqueeze := squeeze_append hmem hfront
    rw [append_assoc, append_assoc, singleton_append, singleton_append] at hsqueeze
    have hnonempty : squeeze colon (squeeze comma (apostrophe :: (text ++ [apostrophe]))) ≠ [] := by
      rw [squeeze_cons (by decide), squeeze_cons (by decide)]
      exact cons_ne_nil _ _
    change parse_token (squeeze comma (name ++ colon :: apostrophe :: (text ++ [apostrophe]))) = some ⟨name,
      some text⟩ ↔ _
    rw [hsqueeze, parse_token_value hne hcolon, if_neg hnonempty, some.injEq, Parsed.mk.injEq,
      some.injEq,
      text_read hfree]
    have hhead : text.head? ≠ some comma := h
    exact and_congr Iff.rfl (by simp [hhead])

/-! ## Gathering -/

theorem gather_first (chunk : Bytes) (R : List Bytes) :
    gather (chunk :: R) [] = if apostrophe ∈ chunk ∧ colon ∈ chunk ∧ chunk.getLast? ≠ some apostrophe
      then gather R [chunk] else chunk :: gather R [] := by
  rw [gather]
  simp only [nil_append, length_singleton, Nat.lt_irrefl, gt_iff_lt, false_and, not_false_eq_true, and_true]
  split
  · next h =>
    rw [if_neg]
    · rw [concat, intercalate_singleton]
    · rintro ⟨hmem, hcolon, hlast⟩
      rcases h with (h | h) | h
      · exact h hmem
      · exact h hcolon
      · exact hlast h
  · next h =>
    rw [not_or, not_or, not_not, not_not] at h
    rw [if_pos ⟨h.1.1, h.1.2, h.2⟩]

/-- With a chunk in the buffer that holds an apostrophe, only one that ends with one ends the action. -/
theorem gather_more (hb : apostrophe ∈ b) (bs : List Bytes) (chunk : Bytes) (R : List Bytes) :
    gather (chunk :: R) (b :: bs) = if chunk.getLast? = some apostrophe
      then concat (b :: bs ++ [chunk]) comma :: gather R [] else gather R (b :: bs ++ [chunk]) := by
  have hinbuf : (b :: bs ++ [chunk]).length > 1 ∧ apostrophe ∈ (b :: bs ++ [chunk]).head?.getD [] := by
    refine ⟨?_, hb⟩
    simp
  rw [gather]
  simp only [hinbuf, and_self, not_true_eq_false, and_false, false_or]

theorem gather_rest {last : Bytes} (hb : apostrophe ∈ b) (bs : List Bytes) (hms : ∀ m ∈ ms, apostrophe ∉ m) :
    gather (ms ++ (last ++ [apostrophe]) :: R) (b :: bs) =
      concat (b :: bs ++ ms ++ [last ++ [apostrophe]]) comma :: gather R [] := by
  induction ms generalizing bs with
  | nil =>
    rw [nil_append, gather_more hb, if_pos getLast?_concat, append_nil]
  | cons m ms ih =>
    have hm : m.getLast? ≠ some apostrophe := fun h => hms m mem_cons_self (mem_of_getLast? h)
    rw [cons_append, gather_more hb, if_neg hm, cons_append, ih (bs ++ [m]) fun m hm =>
      hms m (mem_cons_of_mem _ hm)]
    simp

theorem getLast?_append_ne (s : Bytes) {v : Bytes} (hne : v ≠ []) (h : apostrophe ∉ v) :
    (s ++ v).getLast? ≠ some apostrophe := by
  intro heq
  rw [getLast?_append, getLast?_eq_some_getLast hne, some_or] at heq
  exact h (some.inj heq ▸ getLast_mem hne)

/-- The chunks of a closed action are gathered to one token, whatever is behind them. -/
theorem gather_closed (h : a.Closed) (R : List Bytes) :
    gather (pieces comma a.raw ++ R) [] = squeeze comma a.raw :: gather R [] := by
  obtain ⟨⟨name, hne, hcomma, hcolon⟩, value⟩ := a
  have hwhole {raw : Bytes} (hfree : comma ∉ raw) (hraw : raw ≠ [])
      (hends : ¬ (apostrophe ∈ raw ∧ colon ∈ raw ∧ raw.getLast? ≠ some apostrophe)) :
      gather (pieces comma raw ++ R) [] = squeeze comma raw :: gather R [] := by
    rw [pieces_of_notMem hfree hraw, squeeze_of_notMem hfree hraw, singleton_append, gather_first, if_neg hends]
  rcases value with _ | ⟨word, hword, hfree, hapostrophe⟩ | ⟨text, hfree⟩
  · exact hwhole hcomma hne fun h => hcolon h.2.1
  · change gather (pieces comma (name ++ colon :: word) ++ R) [] = squeeze comma (name ++ colon :: word) ::
      gather R []
    have hname : apostrophe ∉ name := h
    refine hwhole ?_ (by simp) fun h => ?_
    · simp only [mem_append, mem_cons, not_or]
      exact ⟨hcomma, by decide, hfree⟩
    · have hmem := h.1
      simp only [mem_append, mem_cons] at hmem
      rcases hmem with hmem | hmem | hmem
      · exact hname hmem
      · cases hmem
      · exact hapostrophe hmem
  · change gather (pieces comma (name ++ colon :: apostrophe :: (text ++ [apostrophe])) ++ R) [] =
      squeeze comma (name ++ colon :: apostrophe :: (text ++ [apostrophe])) :: gather R []
    have hhead : text.head? ≠ some comma := h
    by_cases hmem : comma ∈ text
    · obtain ⟨t₀, t₁, rfl, ht₀⟩ := eq_append_cons_of_mem hmem
      simp only [mem_append, mem_cons, not_or] at hfree
      obtain ⟨ms, last, hpieces, hms⟩ := pieces_concat (show apostrophe ≠ comma by decide) hfree.2.2
      have hne₀ : t₀ ≠ [] := by
        rintro rfl
        exact hhead rfl
      have hfirst : name ++ colon :: apostrophe :: t₀ ++ comma :: (t₁ ++ [apostrophe]) =
          name ++ colon :: apostrophe :: (t₀ ++ comma :: t₁ ++ [apostrophe]) := by simp
      have hfree₀ : comma ∉ name ++ colon :: apostrophe :: t₀ := by
        simp only [mem_append, mem_cons, not_or]
        exact ⟨hcomma, by decide, by decide, ht₀⟩
      have hchunks := pieces_append_of_notMem hfree₀ (by simp) (t₁ ++ [apostrophe])
      rw [hfirst, hpieces] at hchunks
      have hopen : apostrophe ∈ name ++ colon :: apostrophe :: t₀ := by simp
      -- the first chunk ends with a byte of the text
      have hlast := getLast?_append_ne (name ++ [colon, apostrophe]) hne₀ hfree.1
      rw [append_assoc] at hlast
      rw [squeeze, hchunks, cons_append, gather_first, if_pos ⟨hopen, by simp, hlast⟩, append_assoc,
        singleton_append, gather_rest hopen [] hms]
      rfl
    · refine hwhole ?_ (by simp) fun h => h.2.2 ?_
      · simp only [mem_append, mem_cons, not_mem_nil, or_false, not_or]
        exact ⟨hcomma, by decide, by decide, hmem, by decide⟩
      · rw [← cons_append, ← cons_append, ← append_assoc, getLast?_concat]

/-- An open buffer is lost, or becomes a token with an apostrophe at its end. -/
theorem gather_open (hb : apostrophe ∈ b) (bs R : List Bytes) :
    gather R (b :: bs) = [] ∨
      ∃ ms last rest, gather R (b :: bs) = concat (b :: bs ++ ms ++ [last ++ [apostrophe]]) comma :: rest := by
  induction R generalizing bs with
  | nil => exact .inl rfl
  | cons chunk R ih =>
    rw [gather_more hb]
    split
    · next hlast =>
      obtain ⟨last, rfl⟩ := getLast?_eq_some_iff.mp hlast
      exact .inr ⟨[], last, _, by rw [append_nil]⟩
    · rcases ih (bs ++ [chunk]) with hnil | ⟨ms, last, rest, htoken⟩
      · exact .inl hnil
      · refine .inr ⟨chunk :: ms, last, rest, ?_⟩
        rw [← cons_append] at htoken
        rw [htoken]
        simp

/-- The value of a token that begins with a word and ends with an apostrophe is not stripped. -/
theorem strip_open (h : apostrophe ∉ word) (x : Bytes) :
    ∃ v, squeeze colon (word ++ comma :: (x ++ [apostrophe])) = v ++ [apostrophe] ∧
      strip_encap_quotes (v ++ [apostrophe]) = v ++ [apostrophe] := by
  obtain ⟨v, hv⟩ := squeeze_concat (show apostrophe ≠ colon by decide) (word ++ comma :: x)
  rw [append_assoc, cons_append] at hv
  obtain ⟨c, y, hy, hc⟩ := head_squeeze (show comma ≠ colon by decide) word (x ++ [apostrophe])
  have hca : c ≠ apostrophe := by
    rintro rfl
    rcases hc with hc | hc
    · exact h hc
    · cases hc
  refine ⟨v, hv, strip_eq_self.mpr ?_⟩
  cases v with
  | nil => exact absurd (List.cons.inj (hy.symm.trans hv)).1 hca
  | cons d v =>
    obtain rfl := (List.cons.inj (hy.symm.trans hv)).1
    rw [cons_append, encap_quotes]
    simp only [getLast?_concat, if_neg (show ¬ some apostrophe = some newline by decide)]
    exact if_neg fun h => hca (some.inj h.2.1).symm

theorem concat_cons {bs : List Bytes} (hne : bs ≠ []) : concat (b :: bs) comma = b ++ comma :: concat bs comma := by
  rw [concat, intercalate_cons_of_ne_nil hne, append_assoc, singleton_append]
  rfl

theorem concat_last (ms : List Bytes) (y : Bytes) : ∃ x, concat (ms ++ [y]) comma = x ++ y := by
  induction ms with
  | nil => exact ⟨[], intercalate_singleton⟩
  | cons m ms ih =>
    obtain ⟨x, hx⟩ := ih
    refine ⟨m ++ comma :: x, ?_⟩
    rw [cons_append, concat_cons (by simp), hx, append_assoc, cons_append]

theorem mapM_cons_eq_some {x : Bytes} {xs : List Bytes} {e : Parsed} {es : List Parsed} :
    (x :: xs).mapM parse_token = some (e :: es) ↔ parse_token x = some e ∧ xs.mapM parse_token = some es := by
  rw [mapM_cons]
  cases parse_token x <;> cases xs.mapM parse_token <;> simp

/-- An action that is not closed is not the first that is returned. -/
theorem first_of_open (h : ¬ a.Closed) (R : List Bytes) (es : List Parsed) :
    (gather (pieces comma a.raw ++ R) []).mapM parse_token ≠ some (a.parsed :: es) := by
  obtain ⟨⟨name, hne, hcomma, hcolon⟩, value⟩ := a
  rcases value with _ | ⟨word, hword, hfree, hapostrophe⟩ | ⟨text, hfree⟩
  · exact absurd trivial h
  · change (gather (pieces comma (name ++ colon :: word) ++ R) []).mapM parse_token ≠ some (⟨name, some word⟩ :: es)
    have hname : apostrophe ∈ name := not_not.mp h
    have hmem : comma ∉ name ++ colon :: word := by
      simp only [mem_append, mem_cons, not_or]
      exact ⟨hcomma, by decide, hfree⟩
    have hlast := getLast?_append_ne (name ++ [colon]) hword hapostrophe
    rw [append_assoc, singleton_append] at hlast
    have hopen : apostrophe ∈ name ++ colon :: word := mem_append_left _ hname
    rw [pieces_of_notMem hmem (by simp), singleton_append, gather_first, if_pos ⟨hopen, by simp, hlast⟩]
    rcases gather_open hopen [] R with hnil | ⟨ms, last, rest, htoken⟩
    · rw [hnil]
      intro hparsed
      cases hparsed
    · rw [htoken]
      intro hparsed
      have htoken := (mapM_cons_eq_some.mp hparsed).1
      obtain ⟨x, hx⟩ := concat_last ms (last ++ [apostrophe])
      rw [cons_append, nil_append, cons_append, concat_cons (by simp), hx, ← append_assoc x,
        append_assoc, cons_append, parse_token_value hne hcolon] at htoken
      obtain ⟨v, hv, hstrip⟩ := strip_open hapostrophe (x ++ last)
      rw [hv, if_neg (by simp), hstrip] at htoken
      have hvalue := some.inj (Parsed.mk.inj (some.inj htoken)).2
      exact hapostrophe (hvalue ▸ mem_append_right v mem_cons_self)
  · obtain ⟨t, rfl⟩ := head?_eq_some_iff.mp (not_not.mp h : text.head? = some comma)
    have hraw : Action.raw ⟨⟨name, hne, hcomma, hcolon⟩, some (.quoted (comma :: t) hfree)⟩ =
        name ++ [colon, apostrophe] ++ comma :: (t ++ [apostrophe]) := by
      change name ++ colon :: apostrophe :: (comma :: t ++ [apostrophe]) = _
      simp
    have hfree₀ : comma ∉ name ++ [colon, apostrophe] := by
      simp only [mem_append, mem_cons, not_mem_nil, or_false, not_or]
      exact ⟨hcomma, by decide, by decide⟩
    rw [hraw, pieces_append_of_notMem hfree₀
      (by simp), cons_append, gather_first, if_neg fun h => h.2.2 (by simp)]
    intro hparsed
    have htoken := (mapM_cons_eq_some.mp hparsed).1
    rw [parse_token_value hne hcolon] at htoken
    have hvalue : some [apostrophe] = some (comma :: t) := (Parsed.mk.inj (some.inj htoken)).2
    cases hvalue

theorem split_join (actions : List Action) :
    split (join actions) comma = actions.flatMap fun a => pieces comma a.raw := by
  induction actions with
  | nil => rfl
  | cons a actions ih =>
    cases actions with
    | nil =>
      have hjoin : join [a] = a.raw := by
        rw [join, concat, map_singleton, intercalate_singleton]
      rw [hjoin, split, flatMap_singleton]
    | cons b actions =>
      have hjoin : join (a :: b :: actions) = a.raw ++ comma :: join (b :: actions) :=
        concat_cons (cons_ne_nil _ _)
      rw [hjoin, split, pieces_append, flatMap_cons]
      exact congrArg (pieces comma a.raw ++ ·) ih

/-- **The list of actions is parsed as it was joined exactly if each of them is careful.** -/
theorem parse_actions_right_iff (actions : List Action) : Right actions ↔ ∀ a ∈ actions, a.Careful := by
  rw [Right, parse_actions, split_join]
  induction actions with
  | nil => exact iff_of_true rfl (forall_mem_nil _)
  | cons a actions ih =>
    rw [forall_mem_cons, ← ih, flatMap_cons, map_cons]
    by_cases hclosed : a.Closed
    · rw [gather_closed hclosed, mapM_cons_eq_some, token_read hclosed]
    · exact iff_of_false (first_of_open hclosed _ _) fun h => hclosed h.1.closed

/-- `msg:'a,,b'` -/
def doubled : Action :=
  ⟨⟨[109, 115, 103], by decide, by decide, by decide⟩, some (.quoted [97, comma, comma, 98] (by decide))⟩

/-- One of two commas is lost. -/
theorem comma_lost : ¬ Right [doubled] := by
  rw [Right]
  decide

end OpenResty.Waf.Translate.Actions
