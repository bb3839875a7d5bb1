/-
What equal collection keys say about two variables.

The key is the variable's fields joined by `|` and `,`, which the fields may
hold themselves. Equal keys do mean equal transforms. What else a variable's
value depends on is its `selection`, a normal form; two variables with one key
have the same values exactly when their selections agree, and they do when no
field holds a separator.
-/
import OpenResty.Waf.RuleCalc
import OpenResty.Waf.Collection
import OpenResty.Lib.Join
import OpenResty.Lib.Assoc
import Mathlib.Data.Finset.Basic

namespace OpenResty.Waf

open Lua Lib List
open Option hiding all_eq_true filter_filter join

/-! ## Selections -/

/-- The methods that take all keys or values that are left. -/
inductive Listing
  | keys | values | all
deriving Repr

/-- What a variable takes from its collection, up to what makes no difference:
the order of the ignores, and the ignores a method cannot tell. -/
inductive Selection
  /-- The collection as it is. -/
  | whole
  /-- One element, unless its key matches. -/
  | specific (key : Scalar) (drop : Finset String)
  | listing (method : Listing) (names drop : Finset String)
  /-- The elements whose key matches, which no ignore of the same expression undoes. -/
  | regex (value : String) (names drop : Finset String)
  /-- An empty table, for every table. -/
  | nothing

/-- The names an ignore list removes. -/
def ignoredNames (ignore : List (SieveMethod × String)) : Finset String :=
  (ignore.filterMap fun (m, v) => if m = .ignore then some v else none).toFinset

/-- The expressions an ignore list removes by. -/
def ignoredRegexes (ignore : List (SieveMethod × String)) : Finset String :=
  (ignore.filterMap fun (m, v) => if m = .regex then some v else none).toFinset

/-- The selection of a parse method and an ignore list; `none` selects nil from everything. -/
def parseSelection (key : ParseMethod) (value : Scalar) (ignore : List (SieveMethod × String)) : Option Selection :=
  let names := ignoredNames ignore
  let drop := ignoredRegexes ignore
  match key with
  | .specific => if (∃ n ∈ names, value = .str n) then none else some (.specific value drop)
  | .regex => some (if value.tostring ∈ drop then .nothing else .regex value.tostring names drop)
  | .keys => some (.listing .keys names drop)
  | .values => some (.listing .values names drop)
  | .all => some (.listing .all names drop)

/-- The collection a variable reads, and its selection from it. A variable
without a type reads nothing. -/
def selection (var : Var) : Option (String × Selection) :=
  match var.type, var.parse with
  | none, _ => none
  | some type, none => some (type, .whole)
  | some type, some (key, value) => (parseSelection key value (var.ignore.getD [])).map (type, ·)

/-! ## What a selection takes -/

/-- The keys an ignore list leaves. -/
def kept (eng : Engine) (names drop : Finset String) (k : Scalar) : Bool :=
  decide (∀ n ∈ names, k ≠ .str n) && decide (∀ r ∈ drop, eng.re_find k.tostring r = false)

def Listing.take (ps : List (Scalar × Val)) : Listing → List Val
  | .keys => tableKeys ps
  | .values => tableValues ps
  | .all => tableKeys ps ++ tableValues ps

/-- What a selection takes from a table's pairs. -/
def Selection.takePairs (eng : Engine) (ps : List (Scalar × Val)) : Selection → Option Val
  | .whole => none
  | .specific key drop => if kept eng ∅ drop key then ps.lookup key else none
  | .listing method names drop => some (.array (method.take (ps.filter fun (k, _) => kept eng names drop k)))
  | .regex value names drop => some (.array (parseRegex eng value (ps.filter fun (k, _) => kept eng names drop k)))
  | .nothing => some (.array [])

/-- What a selection takes from a collection. -/
def Selection.take (eng : Engine) (c : Option Val) : Selection → Option Val
  | .whole => c
  | sel =>
    match c with
    | some (.table arr hash) => sel.takePairs eng (Val.table arr hash).pairs
    | _ => none

variable {ignore : List (SieveMethod × String)}

theorem mem_ignoredNames {n : String} : n ∈ ignoredNames ignore ↔ (SieveMethod.ignore, n) ∈ ignore := by
  simp [ignoredNames]

theorem mem_ignoredRegexes {r : String} : r ∈ ignoredRegexes ignore ↔ (SieveMethod.regex, r) ∈ ignore := by
  simp [ignoredRegexes]

theorem sieveAll_kept (eng : Engine) (ignore : List (SieveMethod × String)) (ps : List (Scalar × Val)) :
    sieveAll eng ignore ps = ps.filter fun (k, _) => kept eng (ignoredNames ignore) (ignoredRegexes ignore) k := by
  rw [sieveAll_eq_filter]
  congr 1
  funext ⟨k, _⟩
  rw [Bool.eq_iff_iff]
  simp only [kept, all_eq_true, Bool.and_eq_true, decide_eq_true_eq, mem_ignoredNames, mem_ignoredRegexes]
  constructor
  · intro h
    exact ⟨fun n hn => by simpa using h _ hn, fun r hr => by simpa using h _ hr⟩
  · rintro ⟨hnames, hdrop⟩ ⟨m, v⟩ hmem
    cases m with
    | ignore => simpa using hnames v hmem
    | regex => simpa using hdrop v hmem

/-- **A parse method after the ignores takes what the selection takes.** -/
theorem parseBy_sieveAll (eng : Engine) (key : ParseMethod) (value : Scalar) (ignore : List (SieveMethod × String))
    (ps : List (Scalar × Val)) :
    parseBy eng key value (sieveAll eng ignore ps) =
      (parseSelection key value ignore).bind (Selection.takePairs eng ps) := by
  rw [sieveAll_kept]
  cases key with
  | specific =>
    simp only [parseBy, parseSelection, lookup_filter_key]
    by_cases hn : ∃ n ∈ ignoredNames ignore, value = .str n
    · obtain ⟨n, hn, rfl⟩ := hn
      have hkept : kept eng (ignoredNames ignore) (ignoredRegexes ignore) (.str n) = false := by
        simp [kept, hn]
      simp [hkept, hn]
    · have hkept : kept eng (ignoredNames ignore) (ignoredRegexes ignore) value =
          kept eng ∅ (ignoredRegexes ignore) value := by
        simp only [kept]
        congr 1
        simpa using fun n hmem heq => hn ⟨n, hmem, heq⟩
      rw [if_neg hn, hkept]
      rfl
  | regex =>
    simp only [parseBy, parseSelection, bind_some]
    split
    · next hdrop =>
      simp only [Selection.takePairs, parseRegex, filter_filter]
      rw [filter_eq_nil_iff.mpr, flatMap_nil]
      rintro ⟨k, v⟩ -
      simp only [kept, Bool.and_eq_true, decide_eq_true_eq, not_and]
      intro hfind hnames hall
      simp [hall _ hdrop] at hfind
    · rfl
  | keys | values | all => rfl

/-- A regex selection that can take something. -/
def Selection.Normal : Selection → Prop
  | .regex value _ drop => value ∉ drop
  | _ => True

theorem parseSelection_normal {key : ParseMethod} {value : Scalar}
    {sel : Selection} (h : parseSelection key value ignore = some sel) : sel.Normal ∧ sel ≠ .whole := by
  cases key with
  | specific =>
    simp only [parseSelection] at h
    split at h <;> cases h
    exact ⟨trivial, by simp⟩
  | regex =>
    simp only [parseSelection, some.injEq] at h
    split at h <;> subst h
    · exact ⟨trivial, by simp⟩
    · next hdrop => exact ⟨hdrop, by simp⟩
  | keys | values | all =>
    cases h
    exact ⟨trivial, by simp⟩

theorem selection_normal {var : Var} {type : String} {sel : Selection} (h : selection var = some (type, sel)) :
    sel.Normal := by
  unfold selection at h
  split at h
  · cases h
  · cases h
    trivial
  · obtain ⟨sel', hsel, heq⟩ := map_eq_some_iff.mp h
    cases heq
    exact (parseSelection_normal hsel).1

/-- `_parse_collection` takes what the variable's selection takes. -/
theorem parseCollection_eq (eng : Engine) (collections : String → Option Val) (var : Var) :
    parseCollection eng (var.type.bind collections) var =
      (selection var).bind fun (type, sel) => sel.take eng (collections type) := by
  unfold parseCollection selection
  rcases var.type with _ | type <;> rcases var.parse with _ | ⟨key, value⟩
  · rfl
  · rfl
  · rfl
  · simp only [bind_some, bind_map]
    rcases hsel : parseSelection key value (var.ignore.getD []) with _ | sel
    · rcases collections type with _ | s | ⟨arr, hash⟩
      · rfl
      · rfl
      · have hparse := parseBy_sieveAll eng key value (var.ignore.getD []) (Val.table arr hash).pairs
        rw [hsel, bind_none] at hparse
        cases hignore : var.ignore with
        | none => rwa [hignore] at hparse
        | some ignore => rwa [hignore] at hparse
    · have hne := (parseSelection_normal hsel).2
      simp only [bind_some, Function.comp_apply]
      rcases collections type with _ | s | ⟨arr, hash⟩
      · cases sel <;> rfl
      · cases sel <;> first | rfl | exact absurd rfl hne
      · have htake : sel.take eng (some (.table arr hash)) = sel.takePairs eng (Val.table arr hash).pairs := by
          cases sel <;> first | rfl | exact absurd rfl hne
        have hparse := parseBy_sieveAll eng key value (var.ignore.getD []) (Val.table arr hash).pairs
        rw [hsel, bind_some, ← htake] at hparse
        cases hignore : var.ignore with
        | none => rwa [hignore] at hparse
        | some ignore => rwa [hignore] at hparse

/-! ## Telling selections apart -/

/-- An engine in which an expression matches every text or none, without transforms. -/
def constEngine (p : String → Bool) : Engine where
  re_find _ r := p r
  transform _ s := .ok s

theorem constEngine_transform (p : String → Bool) (t : Transform) (s : Scalar) :
    (constEngine p).transform t s = .ok s := rfl

/-- A table of one element, and one whose only element has a name. -/
def tableOne : Val := .table [.leaf (.str "v")] []
def tableNamed (k : Scalar) : Val := .table [] [(k, .leaf (.str "v"))]

theorem kept_const {p : String → Bool} {names drop : Finset String} {k : Scalar} :
    kept (constEngine p) names drop k = true ↔ (∀ n ∈ names, k ≠ .str n) ∧ ∀ r ∈ drop, p r = false := by
  rw [kept, Bool.and_eq_true, decide_eq_true_iff, decide_eq_true_iff]
  rfl

section

variable {s t : Selection}

/-- Two selections that take the same of every collection, in every engine without transforms. -/
def SameTake (s t : Selection) : Prop := ∀ (p : String → Bool) (c : Val),
  s.take (constEngine p) (some c) = t.take (constEngine p) (some c)

variable {d drop drop' names names' ns : Finset String}

/-- The engine in which `r` alone matches removes by `r` alone. -/
theorem forall_ne_iff {r : String} : (∀ r' ∈ drop, decide (r' = r) = false) ↔ r ∉ drop := by
  simp only [decide_eq_false_iff_not]
  exact ⟨fun h hr => h r hr rfl, fun h r' hr' heq => h (heq ▸ hr')⟩

variable {P a b : Prop}

theorem filter_singleton {α : Type} {p : α → Bool} {a : α} [Decidable P] (h : p a = true ↔ P) :
    [a].filter p = if P then [a] else [] := by
  by_cases hP : P
  · rw [if_pos hP, filter_cons_of_pos (h.mpr hP), filter_nil]
  · rw [if_neg hP, filter_cons_of_neg (mt h.mp hP), filter_nil]

theorem SameTake.specific {y z : Scalar} {e : Finset String} (h : SameTake (.specific y d) (.specific z e)) :
    y = z ∧ d = e := by
  have htake : ∀ (x : Scalar) (f : Finset String) (p : String → Bool) (k : Scalar),
      (Selection.specific x f).take (constEngine p) (some (tableNamed k)) =
        if (∀ r ∈ f, p r = false) ∧ x = k then some (.leaf (.str "v")) else none := by
    intro x f p k
    have hkept : kept (constEngine p) ∅ f x = true ↔ ∀ r ∈ f, p r = false := by simp [kept_const]
    simp only [Selection.take, Selection.takePairs, tableNamed, Val.pairs, mapIdx_nil, nil_append, hkept]
    by_cases hx : x = k
    · simp [hx]
    · have hne : (x == k) = false := by simpa using hx
      simp [List.lookup_cons, hne, hx]
  have hyz : y = z := by
    have := h (fun _ => false) (tableNamed y)
    rw [htake, htake] at this
    by_contra hne
    simp [Ne.symm hne] at this
  subst hyz
  refine ⟨rfl, Finset.ext fun r => ?_⟩
  have := h (fun r' => r' = r) (tableNamed y)
  simp only [htake, forall_ne_iff, and_true] at this
  by_cases hd : r ∈ d <;> by_cases he : r ∈ e <;> simp_all

/-- What is left of the table of one element, whose key is a number. -/
theorem filter_tableOne {p : String → Bool} {names drop : Finset String} :
    (tableOne.pairs.filter fun (k, _) => kept (constEngine p) names drop k) =
      if ∀ r ∈ drop, p r = false then tableOne.pairs else [] :=
  filter_singleton (by simp [kept_const])

theorem filter_tableNamed {p : String → Bool} {names drop : Finset String} {n : String} :
    ((tableNamed (.str n)).pairs.filter fun (k, _) => kept (constEngine p) names drop k) =
      if n ∉ names ∧ ∀ r ∈ drop, p r = false then (tableNamed (.str n)).pairs else [] := by
  refine filter_singleton ?_
  rw [kept_const]
  exact and_congr_left fun _ => ⟨fun h hn => h n hn rfl, fun h m hm heq => h (by cases heq; exact hm)⟩

/-- Whether the table came through shows in what is made of it. -/
theorem iff_of_ite {ps : List (Scalar × Val)} {f : List (Scalar × Val) → List Val} (hnil : f [] = [])
    (hps : f ps ≠ []) [Decidable a] [Decidable b]
    (h : f (if a then ps else []) = f (if b then ps else [])) : a ↔ b := by
  by_cases ha : a <;> by_cases hb : b <;> simp_all

theorem Listing.take_ne_nil {k : Scalar} {s : Scalar} (m : Listing) : m.take [(k, .leaf s)] ≠ [] := by
  cases m <;> simp [Listing.take, tableKeys, tableValues]

theorem Listing.take_nil (m : Listing) : m.take [] = [] := by cases m <;> rfl

theorem numToString_one : numToString 1 = "1" := by decide +kernel

theorem Listing.take_inj {m l : Listing} (h : m.take tableOne.pairs = l.take tableOne.pairs) : m = l := by
  cases m <;> cases l <;>
    simp [Listing.take, tableKeys, tableValues, tableOne, Val.pairs, Scalar.tostring, numToString_one] at h ⊢

variable {p : String → Bool}

theorem take_listing_one {k : Listing} :
    (Selection.listing k ns d).take (constEngine p) (some tableOne) =
      some (.array (k.take (if ∀ r ∈ d, p r = false then tableOne.pairs else []))) := by
  rw [← filter_tableOne]
  rfl

variable {n v : String}

theorem take_listing_named {k : Listing} :
    (Selection.listing k ns d).take (constEngine p) (some (tableNamed (.str n))) =
      some (.array (k.take (if n ∉ ns ∧ ∀ r ∈ d, p r = false then (tableNamed (.str n)).pairs else []))) := by
  rw [← filter_tableNamed]
  rfl

theorem SameTake.listing {m l : Listing}
    (h : SameTake (.listing m names drop) (.listing l names' drop')) : m = l ∧ names = names' ∧ drop = drop' := by
  have hml : m = l := by
    have := h (fun _ => false) tableOne
    simp only [take_listing_one, implies_true, if_true, some.injEq, Val.array, Val.table.injEq,
      and_true] at this
    exact Listing.take_inj this
  subst hml
  refine ⟨rfl, Finset.ext fun n => ?_, Finset.ext fun r => ?_⟩
  · have := h (fun _ => false) (tableNamed (.str n))
    simp only [take_listing_named, implies_true, and_true, some.injEq, Val.array, Val.table.injEq] at this
    exact not_iff_not.mp (iff_of_ite (f := fun ps => m.take ps) m.take_nil m.take_ne_nil this)
  · have := h (fun r' => r' = r) tableOne
    simp only [take_listing_one, forall_ne_iff, some.injEq, Val.array, Val.table.injEq, and_true] at this
    exact not_iff_not.mp (iff_of_ite (f := fun ps => m.take ps) m.take_nil m.take_ne_nil this)

theorem parseRegex_const {k s : Scalar} [Decidable P] :
    parseRegex (constEngine p) v (if P then [(k, .leaf s)] else []) = if p v = true ∧ P then [.leaf s] else [] := by
  by_cases hP : P <;> by_cases hv : p v = true <;> simp [parseRegex, constEngine, hP, hv]

theorem take_regex_one :
    (Selection.regex v ns d).take (constEngine p) (some tableOne) =
      some (.array (if p v = true ∧ ∀ r ∈ d, p r = false then [.leaf (.str "v")] else [])) := by
  have := @filter_tableOne p ns d
  simp only [Selection.take, tableOne, Selection.takePairs]
  rw [← parseRegex_const (k := .num 1)]
  exact congrArg (fun ps => some (Val.array (parseRegex (constEngine p) v ps))) this

theorem take_regex_named :
    (Selection.regex v ns d).take (constEngine p) (some (tableNamed (.str n))) =
      some (.array (if p v = true ∧ n ∉ ns ∧ ∀ r ∈ d, p r = false then [.leaf (.str "v")] else [])) := by
  have := @filter_tableNamed p ns d n
  simp only [Selection.take, tableNamed, Selection.takePairs]
  rw [← parseRegex_const (k := .str n)]
  exact congrArg (fun ps => some (Val.array (parseRegex (constEngine p) v ps))) this

theorem iff_of_ite_array [Decidable a] [Decidable b] {x : Val}
    (h : some (Val.array (if a then [x] else [])) = some (Val.array (if b then [x] else []))) : a ↔ b := by
  by_cases ha : a <;> by_cases hb : b <;> simp_all [Val.array]

theorem SameTake.regex {w : String} (hv : v ∉ drop) (hw : w ∉ drop')
    (h : SameTake (.regex v names drop) (.regex w names' drop')) : v = w ∧ names = names' ∧ drop = drop' := by
  have hone := fun p => iff_of_ite_array ((take_regex_one.symm.trans (h p tableOne)).trans take_regex_one)
  have hnamed := fun p n =>
    iff_of_ite_array ((take_regex_named.symm.trans (h p (tableNamed (.str n)))).trans take_regex_named)
  have hvw : v = w := by
    -- the expression of the first alone matches, so the second takes something only if it is the same
    have := (hone fun r => r = v).mp ⟨by simp, forall_ne_iff.mpr hv⟩
    exact (by simpa using this.1 : w = v).symm
  subst hvw
  refine ⟨rfl, Finset.ext fun n => ?_, Finset.ext fun r => ?_⟩
  · have := hnamed (fun r => r = v) n
    simpa [forall_ne_iff, hv, hw, not_iff_not] using this
  · have hr : ∀ d : Finset String, v ∉ d → ((∀ r' ∈ d, decide (r' = v ∨ r' = r) = false) ↔ r ∉ d) := by
      intro d hd
      simp only [decide_eq_false_iff_not, not_or]
      exact ⟨fun hall hmem => (hall r hmem).2 rfl,
        fun hmem r' hr' => ⟨fun heq => hd (heq ▸ hr'), fun heq => hmem (heq ▸ hr')⟩⟩
    have := hone fun r' => r' = v ∨ r' = r
    simp only [hr drop hv, hr drop' hw, true_or, decide_true, true_and] at this
    exact not_iff_not.mp this

/-- **Selections in normal form that take the same are the same.** -/
theorem SameTake.eq (h : SameTake s t) (hs : s.Normal) (ht : t.Normal) : s = t := by
  have hleaf := h (fun _ => false) (.leaf (.str "v"))
  have hempty := h (fun _ => false) (.table [] [])
  have hone := h (fun _ => false) tableOne
  have hlisting : ∀ (m : Listing) (ns d : Finset String),
      (Selection.listing m ns d).take (constEngine fun _ => false) (some tableOne) ≠ some (.array []) := by
    intro m ns d heq
    rw [take_listing_one] at heq
    simp only [implies_true, if_true, some.injEq, Val.array, Val.table.injEq, and_true] at heq
    exact m.take_ne_nil heq
  have hregex : ∀ (v : String) (ns d : Finset String),
      (Selection.regex v ns d).take (constEngine fun _ => false) (some tableOne) = some (.array []) := by
    intro v ns d
    rw [take_regex_one]
    simp
  cases s with
  | whole => cases t <;> first | rfl | cases hleaf
  | specific y d =>
    cases t with
    | specific z e =>
      obtain ⟨rfl, rfl⟩ := h.specific
      rfl
    | whole => cases hleaf
    | _ => simp [Selection.take, Selection.takePairs, Val.pairs] at hempty
  | listing m ns d =>
    cases t with
    | listing l ns' d' =>
      obtain ⟨rfl, rfl, rfl⟩ := h.listing
      rfl
    | whole => cases hleaf
    | specific z e => simp [Selection.take, Selection.takePairs, Val.pairs] at hempty
    | regex w ns' d' => exact absurd (hone.trans (hregex w ns' d')) (hlisting m ns d)
    | nothing => exact absurd hone (hlisting m ns d)
  | regex v ns d =>
    cases t with
    | regex w ns' d' =>
      obtain ⟨rfl, rfl, rfl⟩ := h.regex hs ht
      rfl
    | whole => cases hleaf
    | specific z e => simp [Selection.take, Selection.takePairs, Val.pairs] at hempty
    | listing l ns' d' => exact absurd (hone.symm.trans (hregex v ns d)) (hlisting l ns' d')
    | nothing =>
      have := h (fun r => r = v) tableOne
      rw [take_regex_one] at this
      simp only [forall_ne_iff] at this
      rw [if_pos ⟨by simp, hs⟩] at this
      cases this
  | nothing =>
    cases t with
    | nothing => rfl
    | whole => cases hleaf
    | specific z e => simp [Selection.take, Selection.takePairs, Val.pairs] at hempty
    | listing l ns' d' => exact absurd hone.symm (hlisting l ns' d')
    | regex w ns' d' =>
      have := h (fun r => r = w) tableOne
      rw [take_regex_one] at this
      simp only [forall_ne_iff] at this
      rw [if_pos ⟨by simp, ht⟩] at this
      cases this

/-- Every selection takes something of some collection. -/
theorem exists_take (s : Selection) : ∃ c, (s.take (constEngine fun _ => false) (some c)).isSome := by
  cases s with
  | whole => exact ⟨.leaf (.str "v"), rfl⟩
  | specific y d =>
    refine ⟨tableNamed y, ?_⟩
    have : kept (constEngine fun _ => false) ∅ d y = true := by simp [kept_const]
    simp [Selection.take, Selection.takePairs, tableNamed, Val.pairs, this]
  | listing m ns d => exact ⟨.table [] [], rfl⟩
  | regex v ns d => exact ⟨.table [] [], rfl⟩
  | nothing => exact ⟨.table [] [], rfl⟩

end

/-! ## Keys -/

theorem Transform.name_plain (t : Transform) : '|' ∉ t.name.toList ∧ ',' ∉ t.name.toList ∧ t.name ≠ "nil" ∧
    t.name ≠ "" := by
  cases t <;> decide

/-- The transform of a name. -/
def Transform.ofName? (s : String) : Option Transform :=
  [.base64_decode, .base64_encode, .css_decode, .cmd_line, .compress_whitespace, .hex_decode, .hex_encode,
    .html_decode, .js_decode, .length, .lowercase, .md5, .normalise_path, .normalise_path_win, .remove_comments,
    .remove_comments_char, .remove_nulls, .remove_whitespace, .replace_comments, .replace_nulls, .sha1,
    .sql_hex_decode, .trim, .trim_left, .trim_right, .uri_decode].find? fun t : Transform => t.name = s

theorem Transform.ofName?_name (t : Transform) : ofName? t.name = some t := by cases t <;> decide

theorem Transform.name_inj {t u : Transform} (h : t.name = u.name) : t = u :=
  some.inj ((ofName?_name t).symm.trans (h ▸ ofName?_name u))

/-- The transforms in the order they are applied. -/
def transformsOf (transform : Option TransformOpt) : List Transform := (transform.map TransformOpt.list).getD []

theorem doTransform_congr (eng : Engine) (c : Option Val) {t u : Option TransformOpt}
    (h : transformsOf t = transformsOf u) : doTransform eng c t = doTransform eng c u := by
  simp only [transformsOf] at h
  simp only [doTransform, h]

/-- The text of the transforms. -/
def transformText (transform : Option TransformOpt) : String := tostring? (transformCollectionKey transform)

theorem transformText_plain (transform : Option TransformOpt) : '|' ∉ (transformText transform).toList := by
  rcases transform with _ | t | ts
  · decide
  · exact t.name_plain.1
  · refine @notMem_join ',' _ _ (by decide) fun s hs => ?_
    obtain ⟨t, -, rfl⟩ := mem_map.mp hs
    exact t.name_plain.1

theorem transformText_eq_join {transform : Option TransformOpt} (h : transform ≠ none) :
    transformText transform = join ',' ((transformsOf transform).map (·.name)) := by
  rcases transform with _ | t | ts
  · exact absurd rfl h
  · simp [transformText, transformsOf, TransformOpt.list, transformCollectionKey, tostring?, join]
  · rfl

theorem names_inj {ts us : List Transform} (h : join ',' (ts.map (·.name)) = join ',' (us.map (·.name))) :
    ts = us := by
  have hplain : ∀ ts : List Transform, ∀ s ∈ ts.map (·.name), ',' ∉ s.toList := by
    intro ts s hs
    obtain ⟨t, -, rfl⟩ := mem_map.mp hs
    exact t.name_plain.2.1
  have hempty : ∀ {t : Transform} {ts : List Transform}, join ',' ((t :: ts).map (·.name)) ≠ "" := by
    intro t ts hnil
    have : t.name.toList = [] := by
      cases ts with
      | nil => simpa [join] using hnil
      | cons u us =>
        have := congrArg String.toList hnil
        simp [join, String.intercalate_cons_cons] at this
    exact t.name_plain.2.2.2 (by simpa using this)
  cases ts with
  | nil =>
    cases us with
    | nil => rfl
    | cons u us => exact absurd h.symm hempty
  | cons t ts =>
    cases us with
    | nil => exact absurd h hempty
    | cons u us =>
      have := join_inj (hplain _) (hplain _) (by simp) (by simp) h
      exact map_injective_iff.mpr (fun _ _ => Transform.name_inj) this

theorem nil_ne_names (ts : List Transform) : "nil" ≠ join ',' (ts.map (·.name)) := by
  intro h
  cases ts with
  | nil => exact absurd h (by decide)
  | cons t ts =>
    cases ts with
    | nil => exact t.name_plain.2.2.1 (by simpa [join] using h.symm)
    | cons u us =>
      have : ',' ∈ "nil".toList := by
        rw [h]
        simp [join, String.intercalate_cons_cons]
      exact absurd this (by decide)

theorem transformsOf_eq_of_text {t u : Option TransformOpt} (h : transformText t = transformText u) :
    transformsOf t = transformsOf u := by
  cases t with
  | none =>
    cases u with
    | none => rfl
    | some u => exact absurd (h.trans (transformText_eq_join (by simp))) (nil_ne_names _)
  | some t =>
    rw [transformText_eq_join (by simp)] at h
    cases u with
    | none => exact absurd h.symm (nil_ne_names _)
    | some u =>
      rw [transformText_eq_join (by simp)] at h
      exact names_inj h

/-- **Equal keys mean equal transforms.** -/
theorem transformsOf_eq_of_key {v w : Var} {t u : Option TransformOpt}
    (h : buildCollectionKey v t = buildCollectionKey w u) : transformsOf t = transformsOf u :=
  transformsOf_eq_of_text
    (@join_last '|' _ _ _ _ (by simp) (by simp) (transformText_plain t) (transformText_plain u) h)

/-! ## The law -/

/-- In every state of the collections, and for every engine, the two variables have the same value. -/
def SameValues (v w : Var) (t u : Option TransformOpt) : Prop :=
  ∀ (eng : Engine) (collections : String → Option Val),
    freshValue eng collections v t = freshValue eng collections w u

theorem sameValues_of_selection {v w : Var} {t u : Option TransformOpt} (ht : transformsOf t = transformsOf u)
    (hsel : selection v = selection w) : SameValues v w t u := by
  intro eng collections
  simp only [freshValue, parseCollection_eq, hsel]
  exact doTransform_congr eng _ ht

theorem take_none (eng : Engine) (s : Selection) : s.take eng none = none := by cases s <;> rfl

/-- A selection that reads a collection differs from none, and from one that reads another. -/
theorem selection_eq_of_sameValues {v w : Var} {t u : Option TransformOpt} (h : SameValues v w t u) :
    selection v = selection w := by
  have htake : ∀ (p : String → Bool) (collections : String → Option Val),
      (selection v).bind (fun (type, sel) => sel.take (constEngine p) (collections type)) =
        (selection w).bind fun (type, sel) => sel.take (constEngine p) (collections type) := by
    intro p collections
    have := h (constEngine p) collections
    simp only [freshValue, doTransform_id (constEngine_transform p), parseCollection_eq] at this
    exact Except.ok.inj this
  have hsome : ∀ {x y : String × Selection}, x.1 ≠ y.1 → ∃ collections : String → Option Val,
      x.2.take (constEngine fun _ => false) (collections x.1) ≠
        y.2.take (constEngine fun _ => false) (collections y.1) := by
    rintro ⟨x, s⟩ ⟨y, s'⟩ hxy
    obtain ⟨c, hc⟩ := exists_take s
    refine ⟨fun z => if z = x then some c else none, fun heq => ?_⟩
    simp only [if_true, if_neg hxy.symm, take_none] at heq
    rw [heq] at hc
    cases hc
  rcases hv : selection v with _ | ⟨x, s⟩ <;> rcases hw : selection w with _ | ⟨y, s'⟩
  · rfl
  · obtain ⟨c, hc⟩ := exists_take s'
    have := htake (fun _ => false) fun _ => some c
    rw [hv, hw] at this
    simp only [bind_none, bind_some] at this
    rw [← this] at hc
    cases hc
  · obtain ⟨c, hc⟩ := exists_take s
    have := htake (fun _ => false) fun _ => some c
    rw [hv, hw] at this
    simp only [bind_none, bind_some] at this
    rw [this] at hc
    cases hc
  · have hxy : x = y := by
      by_contra hne
      obtain ⟨collections, hcol⟩ := hsome (x := (x, s)) (y := (y, s')) hne
      have := htake (fun _ => false) collections
      rw [hv, hw] at this
      exact hcol this
    subst hxy
    have hst : SameTake s s' := by
      intro p c
      have := htake p fun _ => some c
      rw [hv, hw] at this
      exact this
    rw [hst.eq (selection_normal hv) (selection_normal hw)]

/-- **Two variables with one key have the same values iff their selections agree.** -/
theorem sameValues_iff_of_key (v w : Var) (t u : Option TransformOpt) :
    (buildCollectionKey v t = buildCollectionKey w u → SameValues v w t u) ↔
      (buildCollectionKey v t = buildCollectionKey w u → selection v = selection w) :=
  ⟨fun h hkey => selection_eq_of_sameValues (h hkey),
    fun h hkey => sameValues_of_selection (transformsOf_eq_of_key hkey) (h hkey)⟩

/-- An ignored name, and a name with the separators in it. -/
theorem not_sameValues_of_key :
    ¬ ∀ (v w : Var) (t u : Option TransformOpt),
      buildCollectionKey v t = buildCollectionKey w u → SameValues v w t u := by
  intro h
  have := h
    { type := some "URI_ARGS", parse := some (.specific, .str "a"), ignore := some [(.ignore, "b")] }
    { type := some "URI_ARGS", parse := some (.specific, .str "a|ignore,b") } none none (by decide)
    (constEngine fun _ => false) (fun _ => some (.table [] [(.str "a", .leaf (.str "1"))]))
  cases this

end OpenResty.Waf
