/-
`ac_lookup`: the dictionaries that a worker keeps for its `PM` rules.

A dictionary is kept under the id of the first rule it was made for, and is what every
other rule with this id is matched with. The rules of a chain all have its id.
-/
import OpenResty.Waf.OperatorLaw
import OpenResty.Lib.Assoc
import Mathlib.Data.List.Infix

namespace OpenResty.Waf

open Lua Lib Option
open List hiding lookup_cons

/-! ## Rules and evaluations -/

/-- A `PM` rule: its id, if it has one, and its word list. -/
structure PmRule where
  id : Option Scalar
  words : List String

def PmRule.pattern (rule : PmRule) : Option Val := some (.table (rule.words.map fun w => .leaf (.str w)) [])

/-- What a rule can be matched with: a text, or a table of texts. -/
structure Haystack where
  val : Val
  texts : ∀ l ∈ ipairsLeaves val, ∃ s, l = .str s

/-- A phrase of the list occurs in the text. -/
def PhraseInText (words : List String) (text : String) : Prop := ∃ w ∈ words, w.toList <:+: text.toList

/-- A phrase of the list occurs in the haystack. -/
def PhraseIn (words : List String) (haystack : Haystack) : Prop :=
  ∃ text, Scalar.str text ∈ ipairsLeaves haystack.val ∧ PhraseInText words text

/-- The library matches exactly the dictionary it was given. -/
def ExactMatch (env : OpEnv) : Prop := ∀ dict text, env.ac_match dict text = true ↔ PhraseInText dict text

/-- An evaluation: a rule and what it is matched with. -/
abbrev Evaluation := PmRule × Haystack

variable (env : OpEnv)

/-- `ac_lookup` for a rule, with the id from the context. -/
def evaluate (dicts : Dicts) (e : Evaluation) : Except String Found × Dicts :=
  acLookup env dicts { id := e.1.id, nameservers := none } e.2.val e.1.pattern

/-- Each evaluation of a sequence and what it gives. -/
def evaluateAll : Dicts → List Evaluation → List (Evaluation × Except String Found)
  | _, [] => []
  | dicts, e :: es => (e, (evaluate env dicts e).1) :: evaluateAll (evaluate env dicts e).2 es

/-- The rule is matched. -/
def PmMatched (result : Except String Found) : Prop := ∃ value, result = .ok (true, value)

/-- Each rule is matched exactly if one of its own phrases occurs. -/
def PmRight (es : List Evaluation) : Prop :=
  ∀ p ∈ evaluateAll env [] es, PmMatched p.2 ↔ PhraseIn p.1.1.words p.1.2

/-! ## One evaluation -/

variable {env}

theorem createAc_pattern (rule : PmRule) : createAc rule.pattern = .ok rule.words := by
  unfold createAc PmRule.pattern
  dsimp only
  induction rule.words with
  | nil => rfl
  | cons w words ih =>
    rw [map_cons, mapM_cons, ih]
    rfl

/-- A dictionary is found in a table of texts exactly if it is found in one of them. -/
theorem matched_iff (hexact : ExactMatch env) (dict : List String) (haystack : Haystack) :
    PmMatched (overIpairs (acScalar env dict) haystack.val) ↔ PhraseIn dict haystack := by
  have haccepts : ∀ text, Accepts (acScalar env dict) (.str text) ↔ PhraseInText dict text := by
    intro text
    rw [← hexact]
    cases h : env.ac_match dict text with
    | true => exact iff_of_true ⟨_, by rw [acScalar, h, selfValue]⟩ rfl
    | false =>
      refine iff_of_false ?_ (by simp)
      rintro ⟨value, hv⟩
      rw [acScalar, h] at hv
      cases hv
  have hclean : Clean (acScalar env dict) (ipairsLeaves haystack.val) := by
    refine clean_iff.mpr fun pre a post hsplit _ => ?_
    obtain ⟨text, rfl⟩ := haystack.texts a (by rw [hsplit]; simp)
    exact ⟨_, rfl⟩
  have hfound : (∃ l ∈ ipairsLeaves haystack.val, Accepts (acScalar env dict) l) ↔ PhraseIn dict haystack := by
    constructor
    · rintro ⟨l, hl, hacc⟩
      obtain ⟨text, rfl⟩ := haystack.texts l hl
      exact ⟨text, hl, (haccepts text).mp hacc⟩
    · rintro ⟨text, hl, hphrase⟩
      exact ⟨_, hl, (haccepts text).mpr hphrase⟩
  have hsearch : overIpairs (acScalar env dict) haystack.val =
      search none (acScalar env dict) (ipairsLeaves haystack.val) := by
    cases haystack.val with
    | leaf l =>
      cases l with
      | num q => rfl
      | bool b => rfl
      | str text =>
        simp only [overIpairs, ipairsLeaves, search, acScalar]
        cases env.ac_match dict text <;> rfl
    | table arr hash => exact overIpairs_table _ arr hash
  unfold PmMatched
  rw [hsearch, search_of_clean none hclean, ← hfound, ← firstAccepted_isSome]
  cases firstAccepted (acScalar env dict) (ipairsLeaves haystack.val) with
  | none =>
    refine iff_of_false ?_ (by simp)
    rintro ⟨value, hv⟩
    cases hv
  | some value => exact iff_of_true ⟨value, rfl⟩ rfl

/-- The words a rule is matched with after a sequence: those of the first with its id, or its own. -/
def wordsFor (before : List Evaluation) (rule : PmRule) : List String :=
  ((before.find? fun e => e.1.id = rule.id).map fun e => e.1.words).getD rule.words

/-- The dictionaries a sequence leaves: for each id that of the first rule that has it. -/
def Made (before : List Evaluation) (dicts : Dicts) : Prop :=
  ∀ id, dicts.lookup id = (before.find? fun e => e.1.id = some id).map fun e => e.1.words

theorem evaluate_none {dicts : Dicts} {e : Evaluation} (hid : e.1.id = none) :
    evaluate env dicts e = (.error "table index is nil", dicts) := by
  simp only [evaluate, acLookup, hid, bind_none, createAc_pattern]

variable (env) in
/-- One evaluation: what the rule is matched with, and the dictionaries after it. -/
theorem evaluate_some {before : List Evaluation} {dicts : Dicts} (hmade : Made before dicts) {e : Evaluation}
    {id : Scalar} (hid : e.1.id = some id) :
    (evaluate env dicts e).1 = overIpairs (acScalar env (wordsFor before e.1)) e.2.val ∧
      Made (before ++ [e]) (evaluate env dicts e).2 := by
  have hlookup := hmade id
  unfold wordsFor
  rw [hid]
  simp only [evaluate, acLookup, hid, bind_some, createAc_pattern]
  cases hfind : before.find? fun e => e.1.id = some id with
  | some first =>
    rw [hfind, map_some] at hlookup
    rw [hlookup]
    refine ⟨rfl, fun id' => ?_⟩
    rw [hmade id', find?_append]
    by_cases heq : id' = id
    · rw [heq, hfind]
      rfl
    · have hnot : ¬ e.1.id = some id' := fun h => heq (some.inj (h.symm.trans hid))
      simp [hnot]
  | none =>
    rw [hfind, map_none] at hlookup
    rw [hlookup]
    refine ⟨rfl, fun id' => ?_⟩
    rw [lookup_cons, find?_append]
    by_cases heq : id' = id
    · rw [if_pos heq, heq, hfind]
      simp [hid]
    · have hnot : ¬ e.1.id = some id' := fun h => heq (some.inj (h.symm.trans hid))
      rw [if_neg heq, hmade id']
      simp [hnot]

/-! ## A sequence -/

/-- A rule is matched with what the first rule with its id left; without an id it is not matched. -/
def Answers (before : List Evaluation) (e : Evaluation) : Prop :=
  e.1.id.isSome ∧ PhraseIn (wordsFor before e.1) e.2

theorem matched_evaluate (hexact : ExactMatch env) {before : List Evaluation} {dicts : Dicts}
    (hmade : Made before dicts)
    (e : Evaluation) : (PmMatched (evaluate env dicts e).1 ↔ Answers before e) ∧
      Made (before ++ [e]) (evaluate env dicts e).2 := by
  unfold Answers
  cases hid : e.1.id with
  | none =>
    rw [evaluate_none hid]
    refine ⟨iff_of_false ?_ (by simp), fun id => ?_⟩
    · rintro ⟨value, hv⟩
      cases hv
    · rw [hmade id, find?_append]
      simp [hid]
  | some id =>
    obtain ⟨hresult, hafter⟩ := evaluate_some env hmade hid
    rw [hresult]
    refine ⟨(matched_iff hexact _ _).trans ?_, hafter⟩
    simp

/-- The results of a sequence, whatever came before it. -/
theorem evaluateAll_iff (hexact : ExactMatch env) (es : List Evaluation) {before : List Evaluation} {dicts : Dicts}
    (hmade : Made before dicts) :
    (∀ p ∈ evaluateAll env dicts es, PmMatched p.2 ↔ PhraseIn p.1.1.words p.1.2) ↔
      ∀ pre e post, es = pre ++ e :: post → (Answers (before ++ pre) e ↔ PhraseIn e.1.words e.2) := by
  induction es generalizing before dicts with
  | nil =>
    refine iff_of_true (fun p hp => by cases hp) fun pre e post h => ?_
    simp at h
  | cons e es ih =>
    obtain ⟨hmatched, hafter⟩ := matched_evaluate hexact hmade e
    rw [evaluateAll, forall_mem_cons, ih hafter]
    dsimp only
    rw [hmatched]
    constructor
    · rintro ⟨hfirst, hrest⟩ pre e' post hsplit
      cases pre with
      | nil =>
        obtain ⟨rfl, rfl⟩ := List.cons.inj hsplit
        rwa [append_nil]
      | cons e'' pre =>
        obtain ⟨rfl, hsplit'⟩ := List.cons.inj hsplit
        have h := hrest pre e' post hsplit'
        rwa [append_assoc] at h
    · intro h
      refine ⟨?_, fun pre e' post hsplit => ?_⟩
      · have hfirst := h [] e es rfl
        rwa [append_nil] at hfirst
      · have hnext := h (e :: pre) e' post (by rw [hsplit]; rfl)
        rwa [append_assoc]

/-- Each rule that is evaluated has an id, or nothing to find, and the first with its id has found
what its own list has in its haystack. -/
def PmCareful (es : List Evaluation) : Prop :=
  ∀ pre e post, es = pre ++ e :: post →
    (e.1.id = none → ¬ PhraseIn e.1.words e.2) ∧
    ∀ first, e.1.id.isSome → (pre.find? fun f => f.1.id = e.1.id) = some first →
      (PhraseIn first.1.words e.2 ↔ PhraseIn e.1.words e.2)

theorem answers_iff (before : List Evaluation) (e : Evaluation) :
    (Answers before e ↔ PhraseIn e.1.words e.2) ↔
      (e.1.id = none → ¬ PhraseIn e.1.words e.2) ∧
      ∀ first, e.1.id.isSome → (before.find? fun f => f.1.id = e.1.id) = some first →
        (PhraseIn first.1.words e.2 ↔ PhraseIn e.1.words e.2) := by
  unfold Answers wordsFor
  cases hid : e.1.id with
  | none => simp
  | some id =>
    cases hfind : before.find? fun f => f.1.id = some id with
    | none => simp
    | some first => simp

/-- A rule without an id has no words, and of two rules with one id each has in every phrase
of the one a phrase of the other. -/
def RulesCareful (rules : List PmRule) : Prop :=
  (∀ r ∈ rules, r.id = none → r.words = []) ∧
  ∀ r ∈ rules, ∀ r' ∈ rules, r.id.isSome → r.id = r'.id → ∀ w ∈ r.words, ∃ w' ∈ r'.words, w'.toList <:+: w.toList

/-- A text on its own. -/
def Haystack.text (s : String) : Haystack where
  val := .leaf (.str s)
  texts _ hl := ⟨s, mem_singleton.mp hl⟩

theorem phraseIn_text (words : List String) (s : String) : PhraseIn words (.text s) ↔ PhraseInText words s := by
  constructor
  · rintro ⟨text, htext, h⟩
    cases mem_singleton.mp htext
    exact h
  · intro h
    exact ⟨s, mem_singleton.mpr rfl, h⟩

theorem phraseInText_self {words : List String} {w : String} (h : w ∈ words) : PhraseInText words w :=
  ⟨w, h, infix_rfl⟩

theorem PhraseIn.of_words {words words' : List String} (h : ∀ w ∈ words, ∃ w' ∈ words', w'.toList <:+: w.toList)
    {haystack : Haystack} (hin : PhraseIn words haystack) : PhraseIn words' haystack := by
  obtain ⟨text, htext, w, hw, hinfix⟩ := hin
  obtain ⟨w', hw', hinfix'⟩ := h w hw
  exact ⟨text, htext, w', hw', hinfix'.trans hinfix⟩

theorem pmCareful_of_rules {rules : List PmRule} (h : RulesCareful rules) {es : List Evaluation}
    (hes : ∀ e ∈ es, e.1 ∈ rules) : PmCareful es := by
  rintro pre e post rfl
  have he : e.1 ∈ rules := hes e (by simp)
  refine ⟨fun hid => ?_, fun first hid hfirst => ?_⟩
  · rintro ⟨text, -, w, hw, -⟩
    rw [h.1 _ he hid] at hw
    cases hw
  · have hfirst' : first.1 ∈ rules := hes first (mem_append_left _ (mem_of_find?_eq_some hfirst))
    have hsame : first.1.id = e.1.id := by simpa using find?_some hfirst
    exact ⟨.of_words (h.2 _ hfirst' _ he (hsame ▸ hid) hsame), .of_words (h.2 _ he _ hfirst' hid hsame.symm)⟩

theorem rulesCareful_of_pm {rules : List PmRule}
    (h : ∀ es : List Evaluation, (∀ e ∈ es, e.1 ∈ rules) → PmCareful es) : RulesCareful rules := by
  constructor
  · intro r hr hid
    refine eq_nil_iff_forall_not_mem.mpr fun w hw => ?_
    have hcareful := h [(r, .text w)] (by simpa using hr) [] (r, .text w) [] rfl
    exact hcareful.1 hid ((phraseIn_text _ _).mpr (phraseInText_self hw))
  · intro r hr r' hr' hid hsame w hw
    have hcareful := h [(r', .text w), (r, .text w)] (by simp [hr, hr']) [(r', .text w)] (r, .text w) [] rfl
    have hfirst := hcareful.2 (r', .text w) hid (by simp [hsame])
    obtain ⟨w', hw', hinfix⟩ := (phraseIn_text _ _).mp
      (hfirst.mpr ((phraseIn_text _ _).mpr (phraseInText_self hw)))
    exact ⟨w', hw', hinfix⟩

/-- **In a sequence of evaluations every rule is matched exactly if one of its own phrases
occurs, if and only if no rule is given the dictionary of another that finds something else;
for every sequence over a ruleset, if and only if rules with one id have the same phrases to
find.** -/
theorem pm_right_iff (hexact : ExactMatch env) :
    (∀ es, PmRight env es ↔ PmCareful es) ∧
    ∀ rules, (∀ es : List Evaluation, (∀ e ∈ es, e.1 ∈ rules) → PmRight env es) ↔ RulesCareful rules := by
  have hsequence : ∀ es, PmRight env es ↔ PmCareful es := by
    intro es
    have hnone : Made [] [] := fun id => rfl
    unfold PmRight PmCareful
    rw [evaluateAll_iff hexact es hnone]
    simp only [nil_append, answers_iff]
  refine ⟨hsequence, fun rules => ?_⟩
  simp only [hsequence]
  exact ⟨rulesCareful_of_pm, fun h es hes => pmCareful_of_rules h hes⟩

/-! ## Examples -/

/-- A library that goes through the words one by one. -/
def wordByWord : OpEnv where
  re_match _ _ := none
  re_find _ _ := none
  ac_match dict text := decide (∃ w ∈ dict, w.toList <:+: text.toList)
  ip_in_cidrs _ _ := false
  dns_new _ := none
  libinject_sqli _ := .ok (false, none)
  libinject_xss _ := .ok false

theorem exactMatch_wordByWord : ExactMatch wordByWord := fun _ _ => decide_eq_true_iff

/-- The two rules of a chain, which share its id, one after the other. -/
def chainOfTwo : List Evaluation :=
  [({ id := some (.num 1), words := ["select"] }, .text "select"),
   ({ id := some (.num 1), words := ["union"] }, .text "union")]

/-- The second rule of a chain is given the dictionary of the first. -/
theorem pm_not_right : ¬ ∀ (env : OpEnv) (es : List Evaluation), ExactMatch env → PmRight env es := by
  intro h
  have hright := h wordByWord chainOfTwo exactMatch_wordByWord
  have hresults : evaluateAll wordByWord [] chainOfTwo =
      [(({ id := some (.num 1), words := ["select"] }, .text "select"), .ok (true, some (.leaf (.str "select")))),
       (({ id := some (.num 1), words := ["union"] }, .text "union"), .ok (false, none))] := rfl
  have hsecond := hright (({ id := some (.num 1), words := ["union"] }, .text "union"), .ok (false, none))
    (by rw [hresults]; exact mem_cons_of_mem _ mem_cons_self)
  obtain ⟨value, hv⟩ := hsecond.mpr ((phraseIn_text _ _).mpr (phraseInText_self (mem_singleton.mpr rfl)))
  cases hv

theorem pm_right_iff_wordByWord : ExactMatch wordByWord ∧
    (PmRight wordByWord chainOfTwo ↔ PmCareful chainOfTwo) :=
  ⟨exactMatch_wordByWord, (pm_right_iff exactMatch_wordByWord).1 _⟩

end OpenResty.Waf
