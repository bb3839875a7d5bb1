/-
What `tokenize` takes off a line, turn by turn.

A line has its tokens whatever the code does (`Cuts`). A turn takes the next of them off
if and only if its expression does (`turn_iff_fine`), and the loop goes wrong with the
first turn that does not.
-/
import Mathlib.Data.List.TakeWhile
import OpenResty.Waf.TranslateTokens

namespace OpenResty.Waf.Translate

open List Option

variable {rex : Rex} {line text rest lead ws s t tail : Bytes} {quoted : Bool} {ps : List (Bytes × Bytes)} {turns : Nat}

/-! ## White space -/

theorem space_quote : space quote = false := rfl

theorem blank_nil : Blank [] := fun _ h => nomatch h

theorem dropWhile_front (hlead : Blank lead) (hfront : Front s) : (lead ++ s).dropWhile space = s := by
  rw [dropWhile_append_of_pos hlead]
  cases s with
  | nil => rfl
  | cons c s => exact dropWhile_cons_of_neg (by rw [show space c = false from hfront]; exact Bool.false_ne_true)

theorem front_dropWhile (s : Bytes) : Front (s.dropWhile space) := by
  induction s with
  | nil => trivial
  | cons c s ih =>
    rw [dropWhile_cons]
    split
    · exact ih
    · next h => exact Bool.not_eq_true _ |>.mp h

theorem blank_iff : Blank line ↔ line.dropWhile space = [] := dropWhile_eq_nil_iff.symm

theorem Front.not_blank (h : Front (c :: s)) : ¬ Blank (c :: s) := by
  intro hblank
  have hc := hblank c mem_cons_self
  rw [show space c = false from h] at hc
  cases hc

/-! ## The quoted token -/

theorem scan_quote (s : Bytes) : scan (quote :: s) = some [] := by
  cases s <;> rfl

theorem scan_escaped (h : Escaped t) (tail : Bytes) : scan (t ++ quote :: tail) = some t := by
  induction h with
  | nil => exact scan_quote tail
  | @other c t hquote hbackslash _ ih =>
    obtain ⟨d, s, hs⟩ : ∃ d s, t ++ quote :: tail = d :: s := exists_cons_of_ne_nil (by simp)
    rw [hs] at ih
    rw [cons_append, hs, scan, if_neg hquote, if_neg hbackslash, ih]
    rfl
  | pair hnewline _ ih =>
    rw [cons_append, cons_append, scan, if_neg (by decide), if_pos rfl, if_neg hnewline, ih]
    rfl

theorem escaped_of_scan (h : scan s = some t) : Escaped t ∧ ∃ tail, s = t ++ quote :: tail := by
  fun_induction scan s generalizing t with
  | case1 => cases h
  | case2 =>
    obtain rfl := some.inj h
    exact ⟨.nil, [], rfl⟩
  | case3 => cases h
  | case4 d s =>
    obtain rfl := some.inj h
    exact ⟨.nil, d :: s, rfl⟩
  | case5 => cases h
  | case6 d s hnewline _ ih =>
    obtain ⟨t, ht, rfl⟩ := map_eq_some_iff.mp h
    obtain ⟨hescaped, tail, rfl⟩ := ih ht
    exact ⟨.pair hnewline hescaped, tail, rfl⟩
  | case7 c d s hquote hbackslash ih =>
    obtain ⟨t, ht, rfl⟩ := map_eq_some_iff.mp h
    obtain ⟨hescaped, tail, hs⟩ := ih ht
    exact ⟨.other hquote hbackslash hescaped, tail, by rw [hs]; rfl⟩

theorem token_quoted_escaped (h : Escaped t) (tail : Bytes) : token_quoted (quote :: (t ++ quote :: tail)) = some t := by
  rw [token_quoted, if_pos rfl, scan_escaped h]

theorem escaped_of_token_quoted (h : token_quoted line = some t) :
    Escaped t ∧ ∃ tail, line = quote :: (t ++ quote :: tail) := by
  cases line with
  | nil => cases h
  | cons c s =>
    rw [token_quoted] at h
    split at h
    · next hc =>
      obtain ⟨hescaped, tail, rfl⟩ := escaped_of_scan h
      exact ⟨hescaped, tail, by rw [hc]⟩
    · cases h

/-! ## Unescaping -/

theorem length_unescape_append (s t : Bytes) : (unescape s).length ≤ (unescape (s ++ t)).length := by
  fun_induction unescape s with
  | case1 => exact Nat.zero_le _
  | case2 c =>
    cases t with
    | nil => exact Nat.le_refl _
    | cons d t =>
      rw [singleton_append, unescape]
      split <;> simp
  | case3 c d s hpair ih =>
    rw [cons_append, cons_append, unescape, if_pos hpair]
    exact Nat.succ_le_succ ih
  | case4 c d s hpair ih =>
    rw [cons_append, cons_append, unescape, if_neg hpair]
    exact Nat.succ_le_succ ih

theorem mem_unescape {c : UInt8} (hc : space c = true) : c ∈ unescape s ↔ c ∈ s := by
  have hbackslash : c ≠ backslash := by
    rintro rfl
    cases hc
  fun_induction unescape s with
  | case1 => exact Iff.rfl
  | case2 => exact Iff.rfl
  | case3 d e s hpair ih => simp [ih, hpair.1, hpair.2, hbackslash]
  | case4 d e s hpair ih => exact (mem_cons.trans (or_congr Iff.rfl ih)).trans mem_cons.symm

theorem unescape_quote (s : Bytes) : unescape (quote :: s) = quote :: unescape s := by
  cases s with
  | nil => rfl
  | cons c s => rw [unescape, if_neg fun h => by cases h.1]

/-- The word at the opening quote of a quoted token is another token. -/
theorem unescape_word_ne (text tail : Bytes) :
    unescape ((quote :: (text ++ quote :: tail)).takeWhile fun c => !space c) ≠ unescape text := by
  intro heq
  by_cases hspace : ∃ c ∈ text, space c = true
  · obtain ⟨c, hmem, hc⟩ := hspace
    have hword := (mem_unescape hc).mp (heq ▸ (mem_unescape hc).mpr hmem)
    have := mem_takeWhile_imp hword
    rw [hc] at this
    cases this
  · have hall : ∀ c ∈ text, (!space c) = true := by
      intro c hc
      by_contra hnot
      exact hspace ⟨c, hc, by simpa using hnot⟩
    rw [takeWhile_cons_of_pos (by rfl), takeWhile_append_of_pos hall, unescape_quote] at heq
    have hlength := congrArg List.length heq
    have := length_unescape_append text ((quote :: tail).takeWhile fun c => !space c)
    rw [length_cons] at hlength
    omega

/-! ## One turn -/

/-- The token that a turn finds -/
def found (line : Bytes) : Option Bytes := (token_quoted line).or (token_unquoted line)

theorem found_quoted (h : Escaped text) (s : Bytes) : found (quote :: (text ++ quote :: s)) = some text := by
  rw [found, token_quoted_escaped h]
  rfl

theorem token_unquoted_eq (hlead : Blank lead) (hfront : Front s) (hne : s ≠ []) :
    token_unquoted (lead ++ s) = some (s.takeWhile fun c => !space c) := by
  obtain ⟨c, s, rfl⟩ := exists_cons_of_ne_nil hne
  rw [token_unquoted, dropWhile_front hlead hfront]

/-- Behind white space no token is found as a quoted one. -/
theorem found_lead {c : UInt8} (hlead : Blank (c :: lead)) (hfront : Front s) (hne : s ≠ []) :
    found (c :: lead ++ s) = some (s.takeWhile fun c => !space c) := by
  have hc : c ≠ quote := by
    rintro rfl
    cases hlead quote mem_cons_self
  have hquoted : token_quoted (c :: lead ++ s) = none := by
    rw [cons_append, token_quoted, if_neg hc]
  rw [found, hquoted, token_unquoted_eq hlead hfront hne]
  rfl

theorem takeWhile_word (htext : ∀ c ∈ text, space c = false) (hws : Blank ws) (hend : ws = [] → rest = []) :
    (text ++ (ws ++ rest)).takeWhile (fun c => !space c) = text := by
  rw [takeWhile_append_of_pos fun c hc => by rw [htext c hc]; rfl]
  cases ws with
  | nil => rw [hend rfl]; simp
  | cons c ws => rw [cons_append, takeWhile_cons_of_neg (by simp [hws c mem_cons_self]), append_nil]

theorem front_word (hne : text ≠ []) (htext : ∀ c ∈ text, space c = false) (s : Bytes) : Front (text ++ s) := by
  obtain ⟨c, text, rfl⟩ := exists_cons_of_ne_nil hne
  exact htext c mem_cons_self

theorem found_word (hne : text ≠ []) (htext : ∀ c ∈ text, space c = false)
    (hbare : ∀ t tail, text ++ (ws ++ rest) = quote :: (t ++ quote :: tail) → ¬ Escaped t) (hws : Blank ws)
    (hend : ws = [] → rest = []) : found (text ++ (ws ++ rest)) = some text := by
  have hquoted : token_quoted (text ++ (ws ++ rest)) = none := by
    rw [eq_none_iff_forall_not_mem]
    intro t ht
    obtain ⟨hescaped, tail, hline⟩ := escaped_of_token_quoted ht
    exact hbare t tail hline hescaped
  have hword := token_unquoted_eq blank_nil (front_word hne htext (ws ++ rest)) (by simp [hne])
  rw [takeWhile_word htext hws hend] at hword
  rw [found, hquoted]
  exact hword

theorem behind_self (token s : Bytes) : behind token (token ++ s) = some (dropQuote s) := by
  rw [behind, if_pos (prefix_append _ _), drop_left]

theorem removePlain_quoted (token s : Bytes) : removePlain token (quote :: (token ++ quote :: s)) = s := by
  simp only [removePlain, if_pos, behind_self]
  rfl

theorem removePlain_word (hne : text ≠ []) (hbare : ∀ tail, text ++ s ≠ quote :: quote :: tail) :
    removePlain text (text ++ s) = dropQuote s := by
  obtain ⟨c, text, rfl⟩ := exists_cons_of_ne_nil hne
  have hquoted : (if c = quote then behind (c :: text) (text ++ s) else none) = none := by
    split
    · next hc =>
      subst hc
      rw [behind, if_neg]
      rintro ⟨tail, htail⟩
      exact hbare (text ++ tail) (by rw [cons_append, ← htail, cons_append])
    · rfl
  have hbehind := behind_self (c :: text) s
  rw [cons_append] at hbehind
  simp only [removePlain, cons_append, hquoted, hbehind]
  rfl

/-- Behind white space the text is not found. -/
theorem removePlain_lead {c : UInt8} (hc : space c = true) (hne : text ≠ []) (htext : ∀ c ∈ text, space c = false) :
    removePlain text (c :: s) = c :: s := by
  obtain ⟨d, text, rfl⟩ := exists_cons_of_ne_nil hne
  have hquote : c ≠ quote := by
    rintro rfl
    cases hc
  have hd : d ≠ c := by
    rintro rfl
    rw [htext d mem_cons_self] at hc
    cases hc
  have hbehind : behind (d :: text) (c :: s) = none := by
    rw [behind, if_neg]
    rintro ⟨tail, htail⟩
    exact hd (List.cons.inj htail).1
  simp only [removePlain, if_neg hquote, hbehind]
  rfl

theorem dropQuote_ws (hws : Blank ws) (hend : ws = [] → rest = []) : dropQuote (ws ++ rest) = ws ++ rest := by
  cases ws with
  | nil => rw [hend rfl]; rfl
  | cons c ws =>
    rw [cons_append, dropQuote, if_neg]
    rintro rfl
    cases hws quote mem_cons_self

theorem turn_of_found (hruns : rex.gives_up line = false) {token : Bytes} (hfound : found line = some token) :
    turn rex line = (re_gsub rex line token).map fun line => (unescape token, line.dropWhile space) := by
  rw [found] at hfound
  simp only [turn, hruns, hfound, Bool.false_eq_true, if_false, bind, Except.bind, pure, Except.pure]
  cases re_gsub rex line token <;> rfl

/-- A token whose expression is not its text leaves what the library says. -/
theorem turn_unplain (hruns : rex.gives_up line = false) (hfound : found line = some text) (hplain : ¬ Plain text) :
    turn rex line = .ok (unescape text, rest) ↔ (rex.gsub (toremove text) line).map (·.dropWhile space) = some rest := by
  rw [turn_of_found hruns hfound, re_gsub, if_neg hplain]
  cases rex.gsub (toremove text) line with
  | none => simp [Except.map]
  | some left => simp [Except.map]

theorem turn_plain (hruns : rex.gives_up line = false) (hfound : found line = some text) (hplain : Plain text) :
    turn rex line = .ok (unescape text, (removePlain text line).dropWhile space) := by
  rw [turn_of_found hruns hfound, re_gsub, if_pos hplain]
  rfl

/-- The token at the front of a line, and what is behind it, are what a turn would find and leave
were there no white space in front. -/
theorem Piece.atFront (h : Piece line quoted text rest) :
    found (line.dropWhile space) = some text ∧ (removePlain text (line.dropWhile space)).dropWhile space = rest := by
  cases h with
  | quoted hlead hescaped hws hrest =>
    rw [dropWhile_front hlead (s := quote :: _) space_quote, removePlain_quoted, dropWhile_front hws hrest]
    exact ⟨found_quoted hescaped _, rfl⟩
  | bare hlead hne htext hbare hws hend hrest =>
    rw [dropWhile_front hlead (front_word hne htext _), removePlain_word hne fun tail htail => hbare [] tail htail .nil,
      dropQuote_ws hws hend, dropWhile_front hws hrest]
    exact ⟨found_word hne htext hbare hws hend, rfl⟩

theorem Front.dropWhile_eq (h : Front s) : s.dropWhile space = s := dropWhile_front blank_nil h

theorem lead_ne (h : ¬ Front (lead ++ s)) (hs : Front s) (hlead : Blank lead) :
    ∃ c lead', lead = c :: lead' ∧ space c = true := by
  cases lead with
  | nil => exact absurd hs h
  | cons c lead => exact ⟨c, lead, rfl, hlead c mem_cons_self⟩

/-- With white space in front a quoted token is not found, and a word is not taken off by its text. -/
theorem turn_lead (hruns : rex.gives_up line = false) (hpiece : Piece line quoted text rest) (hfront : ¬ Front line)
    (hturn : turn rex line = .ok (unescape text, rest)) : quoted = false ∧ ¬ Plain text ∧ found line = some text := by
  cases hpiece with
  | @quoted lead _ ws _ hlead hescaped hws hrest =>
    obtain ⟨c, lead, rfl, hc⟩ := lead_ne hfront (s := quote :: _) space_quote hlead
    have hfound := found_lead hlead (s := quote :: (text ++ quote :: (ws ++ rest))) space_quote (by simp)
    rw [turn_of_found hruns hfound] at hturn
    generalize re_gsub rex _ _ = left at hturn
    cases left with
    | error e => cases hturn
    | ok left => exact absurd (congrArg Prod.fst (Except.ok.inj hturn)) (unescape_word_ne text (ws ++ rest))
  | @bare lead _ ws _ hlead hne htext hbare hws hend hrest =>
    have hword := front_word hne htext (ws ++ rest)
    obtain ⟨c, lead, rfl, hc⟩ := lead_ne hfront hword hlead
    have hfound := found_lead hlead hword (by simp [hne])
    rw [takeWhile_word htext hws hend] at hfound
    refine ⟨rfl, fun hplain => ?_, hfound⟩
    have hleft := Except.ok.inj ((turn_plain hruns hfound hplain).symm.trans hturn)
    rw [cons_append, removePlain_lead hc hne htext, ← cons_append, dropWhile_front hlead hword] at hleft
    have hlength := congrArg (fun p => p.2.length) hleft
    have := length_pos_iff.mpr hne
    simp only [length_append] at hlength
    omega

theorem found_bare (hpiece : Piece line false text rest) : found line = some text := by
  by_cases hfront : Front line
  · rw [← hpiece.atFront.1, hfront.dropWhile_eq]
  cases hpiece with
  | @bare lead _ ws _ hlead hne htext hbare hws hend hrest =>
    have hword := front_word hne htext (ws ++ rest)
    obtain ⟨c, lead, rfl, hc⟩ := lead_ne hfront hword hlead
    rw [found_lead hlead hword (by simp [hne]), takeWhile_word htext hws hend]

/-- **A turn takes the next token off the line exactly if its expression does.** -/
theorem turn_iff_fine (hruns : rex.gives_up line = false) (hpiece : Piece line quoted text rest) :
    turn rex line = .ok (unescape text, rest) ↔ Fine rex line quoted text rest := by
  have hunplain (hfound : found line = some text) (hplain : ¬ Plain text) (hfront : ¬ Front line → quoted = false) :
      turn rex line = .ok (unescape text, rest) ↔ Fine rex line quoted text rest :=
    (turn_unplain hruns hfound hplain).trans
      ⟨fun h => ⟨fun hnot => ⟨hfront hnot, hplain⟩, fun _ => h⟩, fun h => h.leaves hplain⟩
  by_cases hfront : Front line
  · obtain ⟨hfound, hleft⟩ := hpiece.atFront
    rw [hfront.dropWhile_eq] at hfound hleft
    by_cases hplain : Plain text
    · have hturn := turn_plain hruns hfound hplain
      rw [hleft] at hturn
      exact iff_of_true hturn ⟨fun hnot => absurd hfront hnot, fun hnot => absurd hplain hnot⟩
    · exact hunplain hfound hplain fun hnot => absurd hfront hnot
  · constructor
    · intro hturn
      obtain ⟨hquoted, hplain, hfound⟩ := turn_lead hruns hpiece hfront hturn
      exact (hunplain hfound hplain fun _ => hquoted).mp hturn
    · intro hfine
      obtain ⟨rfl, hplain⟩ := hfine.front hfront
      exact (hunplain (found_bare hpiece) hplain fun _ => rfl).mpr hfine

/-! ## Runs -/

theorem run_error {e : Stop} (h : turn rex line = .error e) : run rex (turns + 1) line = .error e := by
  rw [run, h]
  rfl

variable {p : Bytes × Bytes}

theorem run_ok (h : turn rex line = .ok p) :
    run rex (turns + 1) line = if p.2 = [] then .ok [p] else (run rex turns p.2).map (p :: ·) := by
  rw [run, h]
  simp only [bind, Except.bind, pure, Except.pure, length_eq_zero_iff]
  split
  · rfl
  · cases run rex turns p.2 <;> rfl

theorem runs_of_turn (h : turn rex line = .ok p) : rex.gives_up line = false := by
  cases hruns : rex.gives_up line with
  | false => rfl
  | true =>
    rw [turn, hruns] at h
    cases h

theorem turn_gives_up (h : rex.gives_up line = true) : turn rex line = .error .raised := by
  rw [turn, h]
  rfl

theorem found_eq_none : found line = none ↔ Blank line := by
  rw [blank_iff, found, or_eq_none_iff, token_unquoted]
  constructor
  · rintro ⟨-, hnone⟩
    split at hnone
    · assumption
    · cases hnone
  · intro hblank
    refine ⟨?_, by rw [hblank]⟩
    cases line with
    | nil => rfl
    | cons c s =>
      rw [token_quoted, if_neg]
      rintro rfl
      rw [dropWhile_cons_of_neg (by rw [space_quote]; exact Bool.false_ne_true)] at hblank
      cases hblank

theorem turn_blank (hruns : rex.gives_up line = false) (hblank : Blank line) :
    turn rex line = .error (.err "token did not match quoted or unquoted patterns") := by
  have hfound := found_eq_none.mpr hblank
  rw [found] at hfound
  simp only [turn, hruns, hfound]
  rfl

theorem front_turn (h : turn rex line = .ok p) : Front p.2 := by
  have hruns := runs_of_turn h
  cases hfound : found line with
  | none =>
    rw [turn_blank hruns (found_eq_none.mp hfound)] at h
    cases h
  | some token =>
    rw [turn_of_found hruns hfound] at h
    cases hgsub : re_gsub rex line token with
    | error e =>
      rw [hgsub] at h
      cases h
    | ok left =>
      rw [hgsub] at h
      cases h
      exact front_dropWhile left

/-- The loop reports its own error for a blank line alone. -/
theorem blank_of_err {msg : String} (h : run rex turns line = .error (.err msg)) : Blank line := by
  induction turns generalizing line with
  | zero => cases h
  | succ turns ih =>
    cases hturn : turn rex line with
    | error e =>
      rw [run_error hturn] at h
      cases h
      by_contra hblank
      cases hruns : rex.gives_up line with
      | true =>
        rw [turn_gives_up hruns] at hturn
        cases hturn
      | false =>
        obtain ⟨token, hfound⟩ := ne_none_iff_exists'.mp (mt found_eq_none.mp hblank)
        rw [turn_of_found hruns hfound, re_gsub] at hturn
        split at hturn
        · cases hturn
        · split at hturn <;> cases hturn
    | ok p =>
      rw [run_ok hturn] at h
      split at h
      · cases h
      · next hne =>
        obtain ⟨c, s, hs⟩ := exists_cons_of_ne_nil hne
        have hfront := front_turn hturn
        cases hrun : run rex turns p.2 with
        | error e =>
          rw [hrun] at h
          cases h
          have hblank := ih hrun
          rw [hs] at hfront hblank
          exact absurd hblank hfront.not_blank
        | ok ps =>
          rw [hrun] at h
          cases h

theorem right_of_raises (h : Raises rex line) : Right rex line := by
  obtain ⟨turns, hrun⟩ := h
  exact ⟨turns, by rw [hrun]; nofun, by rw [hrun]; nofun⟩

/-- A run that takes the tokens of the line takes each by its expression. -/
theorem careful_of_run (hrun : run rex turns line = .ok ps) (hcuts : Cuts line ps) : Careful rex line := by
  induction turns generalizing line ps with
  | zero => cases hrun
  | succ turns ih =>
    cases hturn : turn rex line with
    | error e =>
      rw [run_error hturn] at hrun
      cases hrun
    | ok p =>
      rw [run_ok hturn] at hrun
      cases hcuts with
      | blank hblank => exact .blank hblank
      | @piece _ text rest quoted ps hpiece hcuts =>
        have hp : p = (unescape text, rest) ∧ (rest ≠ [] → run rex turns rest = .ok ps) := by
          split at hrun
          · next hnil =>
            cases hrun
            exact ⟨rfl, fun hne => absurd hnil hne⟩
          · cases hrest : run rex turns p.2 with
            | error e =>
              rw [hrest] at hrun
              cases hrun
            | ok qs =>
              rw [hrest] at hrun
              cases hrun
              exact ⟨rfl, fun _ => hrest⟩
        obtain ⟨rfl, hrest⟩ := hp
        exact .piece hpiece ((turn_iff_fine (runs_of_turn hturn) hpiece).mp hturn) fun hne => ih (hrest hne) hcuts

theorem right_of_careful (h : Careful rex line) : Right rex line := by
  induction h with
  | @blank line hblank =>
    cases hruns : rex.gives_up line with
    | true => exact right_of_raises ⟨1, run_error (turn_gives_up hruns)⟩
    | false =>
      refine ⟨1, ?_, ?_⟩
      · rw [run_error (turn_blank hruns hblank)]
        nofun
      · rw [run_error (turn_blank hruns hblank)]
        nofun
  | @piece line text rest quoted hpiece hfine _ ih =>
    cases hruns : rex.gives_up line with
    | true => exact right_of_raises ⟨1, run_error (turn_gives_up hruns)⟩
    | false =>
      have hturn := (turn_iff_fine hruns hpiece).mpr hfine
      by_cases hrest : rest = []
      · refine ⟨1, ?_, ?_⟩
        · rw [run_ok hturn, if_pos hrest]
          nofun
        · rw [run_ok hturn, if_pos hrest]
          intro ps hps
          cases hps
          subst hrest
          exact .piece hpiece (.blank blank_nil)
      · obtain ⟨turns, hends, hright⟩ := ih hrest
        refine ⟨turns + 1, ?_, ?_⟩
        · rw [run_ok hturn, if_neg hrest]
          intro h
          cases hrun : run rex turns rest with
          | error e =>
            rw [hrun] at h
            cases h
            exact hends hrun
          | ok ps =>
            rw [hrun] at h
            cases h
        · rw [run_ok hturn, if_neg hrest]
          intro ps hps
          cases hrun : run rex turns rest with
          | error e =>
            rw [hrun] at hps
            cases hps
          | ok qs =>
            rw [hrun] at hps
            cases hps
            exact .piece hpiece (hright qs hrun)

/-! ## Every line has its tokens -/

/-! ## Which lines are taken apart -/

/-- **The loop ends with the tokens of the line, or in an error, exactly if the library
raises an error on the way or every token is taken off by the expression made of it.** -/
theorem tokenize_right_iff (rex : Rex) (line : Bytes) : Right rex line ↔ Raises rex line ∨ Careful rex line := by
  constructor
  · rintro ⟨turns, hends, hright⟩
    cases hrun : run rex turns line with
    | error e =>
      cases e with
      | err msg => exact .inr (.blank (blank_of_err hrun))
      | raised => exact .inl ⟨turns, hrun⟩
      | turns => exact absurd hrun hends
    | ok ps => exact .inr (careful_of_run hrun (hright ps hrun))
  · rintro (hraises | hcareful)
    · exact right_of_raises hraises
    · exact right_of_careful hcareful

/-- An expression that is not its text matches nowhere, as `^"?\Qa\Eb\E"?` in `a\Eb`. -/
def nowhere : Rex := ⟨fun _ => false, fun _ line => some line⟩

/-- The token of the line `a\Eb` is never taken off. -/
theorem never_taken_off : ¬ Right nowhere [97, backslash, 69, 98] := by
  rintro ⟨turns, hends, -⟩
  refine hends ?_
  clear hends
  induction turns with
  | zero => rfl
  | succ turns ih =>
    have hturn : turn nowhere [97, backslash, 69, 98] = .ok ([97, backslash, 69, 98], [97, backslash, 69, 98]) := by decide
    rw [run_ok hturn, if_neg (cons_ne_nil _ _), ih]
    rfl

end OpenResty.Waf.Translate
