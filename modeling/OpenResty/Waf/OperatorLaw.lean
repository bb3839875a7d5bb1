/-
The operators on table collections: whether a table raises no error, matches
iff the scalar operator matches one of its leaves, and returns the value of
the first leaf that matches in `ipairs` order.

Most operators do up to the errors their scalar comparison raises. `CIDR_MATCH`
and `RBL_LOOKUP` do not look into a table, `STR_EXISTS` takes it for the text to
find, and `CONTAINS` tests membership and is not defined on scalars. The
condition of each, `TableLaw`'s exact one, is `lawful`.
-/
import OpenResty.Waf.Operators

namespace OpenResty.Waf

open Lua Lib List

/-! ## Leaves -/

/-- The scalars of a table that `ipairs` reaches at every level, in that order. -/
def ipairsLeaves : Val → List Scalar
  | .leaf s => [s]
  | .table arr _ => go arr
where
  go : List Val → List Scalar
    | [] => []
    | v :: vs => ipairsLeaves v ++ go vs

/-- All scalars of a table, in the order `pairs` reaches them. -/
def leaves : Val → List Scalar
  | .leaf s => [s]
  | .table arr hash => go arr ++ goHash hash
where
  go : List Val → List Scalar
    | [] => []
    | v :: vs => leaves v ++ go vs
  goHash : List (Scalar × Val) → List Scalar
    | [] => []
    | (_, v) :: kvs => leaves v ++ goHash kvs

theorem ipairsLeaves_go_subset : ∀ vs : List Val, ipairsLeaves.go vs ⊆ leaves.go vs
  | [] => by simp [ipairsLeaves.go]
  | .leaf s :: vs => by
    simp only [ipairsLeaves.go, leaves.go, ipairsLeaves, leaves, singleton_append]
    exact cons_subset_cons _ (ipairsLeaves_go_subset vs)
  | .table arr hash :: vs => by
    simp only [ipairsLeaves.go, leaves.go, ipairsLeaves, leaves]
    exact append_subset.mpr ⟨fun a ha => by simp [ipairsLeaves_go_subset arr ha],
      fun a ha => by simp [ipairsLeaves_go_subset vs ha]⟩

theorem ipairsLeaves_subset (c : Val) : ipairsLeaves c ⊆ leaves c := by
  cases c with
  | leaf s => simp [ipairsLeaves, leaves]
  | table arr hash => exact fun a ha => by simp [leaves, ipairsLeaves_go_subset arr ha]

section

variable (scalar : Scalar → Except String Found)

theorem overIpairs_list : ∀ vs : List Val,
    overIpairs.overList scalar vs = search none scalar (ipairsLeaves.go vs)
  | [] => rfl
  | .leaf s :: vs => by
    simp only [overIpairs.overList, overIpairs, ipairsLeaves.go, ipairsLeaves, singleton_append, search,
      overIpairs_list vs]
  | .table arr hash :: vs => by
    simp only [overIpairs.overList, overIpairs, ipairsLeaves.go, ipairsLeaves, search_append,
      overIpairs_list arr, overIpairs_list vs]

/-- **The recursion is the search among the leaves.** -/
theorem overIpairs_table (arr : List Val) (hash : List (Scalar × Val)) :
    overIpairs scalar (.table arr hash) = search none scalar (ipairsLeaves (.table arr hash)) := by
  simp only [overIpairs, ipairsLeaves, overIpairs_list]

mutual

theorem overPairs_list : ∀ vs : List Val, overPairs.overList scalar vs = search none scalar (leaves.go vs)
  | [] => rfl
  | .leaf s :: vs => by
    simp only [overPairs.overList, overPairs, leaves.go, leaves, singleton_append, search, overPairs_list vs]
  | .table arr hash :: vs => by
    simp only [overPairs.overList, overPairs, leaves.go, leaves, search_append, overPairs_list arr,
      overPairs_hash hash, overPairs_list vs]

theorem overPairs_hash : ∀ kvs : List (Scalar × Val),
    overPairs.overHash scalar kvs = search none scalar (leaves.goHash kvs)
  | [] => rfl
  | (_, .leaf s) :: kvs => by
    simp only [overPairs.overHash, overPairs, leaves.goHash, leaves, singleton_append, search,
      overPairs_hash kvs]
  | (_, .table arr hash) :: kvs => by
    simp only [overPairs.overHash, overPairs, leaves.goHash, leaves, search_append, overPairs_list arr,
      overPairs_hash hash, overPairs_hash kvs]

end

theorem overPairs_table (arr : List Val) (hash : List (Scalar × Val)) :
    overPairs scalar (.table arr hash) = search none scalar (leaves (.table arr hash)) := by
  simp only [overPairs, leaves, search_append, overPairs_list, overPairs_hash]

end

variable {c : Val}

theorem isTable_iff : c.isTable = true ↔ ∃ arr hash, c = .table arr hash := by
  cases c <;> simp [Val.isTable]

/-! ## The law -/

/-- An operator's result `out` on the table `c`: no error, a match iff the
scalar operator matches some leaf, and then the value of the first leaf in
`ipairs` order that matches. -/
def TableLaw (scalar : Scalar → Except String Found) (out : Except String Found) (c : Val) : Prop :=
  ∃ r, out = .ok r ∧ (r.1 = true ↔ ∃ l ∈ leaves c, Accepts scalar l) ∧
    (r.1 = true → firstAccepted scalar (ipairsLeaves c) = some r.2)

/-- Every leaf that matches is one, or comes with one, that `ipairs` reaches. -/
def Reached (scalar : Scalar → Except String Found) (c : Val) : Prop :=
  (∃ l ∈ leaves c, Accepts scalar l) → ∃ l ∈ ipairsLeaves c, Accepts scalar l

/-- The law of an operator that searches the leaves in `ipairs` order. -/
theorem tableLaw_ipairs {scalar : Scalar → Except String Found} {out c}
    (hout : out = search none scalar (ipairsLeaves c)) :
    TableLaw scalar out c ↔ Clean scalar (ipairsLeaves c) ∧ Reached scalar c := by
  constructor
  · rintro ⟨r, hr, hmatch, -⟩
    have hclean := clean_of_search (hout ▸ hr)
    refine ⟨hclean, fun hex => ?_⟩
    rw [hout, search_of_clean _ hclean] at hr
    rw [← firstAccepted_isSome]
    have hr1 := hmatch.mpr hex
    cases hf : firstAccepted scalar (ipairsLeaves c) with
    | some b => rfl
    | none => rw [hf] at hr; cases hr; simp at hr1
  · rintro ⟨hclean, hreached⟩
    have hr := search_of_clean none hclean
    cases hf : firstAccepted scalar (ipairsLeaves c) with
    | some b =>
      rw [hf] at hr
      refine ⟨(true, b), hout.trans hr, ?_, fun _ => hf⟩
      simp only [true_iff]
      obtain ⟨l, hl, ha⟩ := firstAccepted_isSome.mp (hf ▸ rfl : (firstAccepted scalar (ipairsLeaves c)).isSome)
      exact ⟨l, ipairsLeaves_subset c hl, ha⟩
    | none =>
      rw [hf] at hr
      refine ⟨(false, none), hout.trans hr, ?_, by simp⟩
      simp only [Bool.false_eq_true, false_iff]
      intro hex
      obtain ⟨l, hl, ha⟩ := hreached hex
      exact firstAccepted_eq_none.mp hf l hl ha

/-- The law of an operator that searches the leaves in `pairs` order. -/
theorem tableLaw_pairs {scalar : Scalar → Except String Found} {out c} (hout : out = search none scalar (leaves c)) :
    TableLaw scalar out c ↔ Clean scalar (leaves c) ∧
      firstAccepted scalar (leaves c) = firstAccepted scalar (ipairsLeaves c) := by
  constructor
  · rintro ⟨r, hr, hmatch, hval⟩
    have hclean := clean_of_search (hout ▸ hr)
    refine ⟨hclean, ?_⟩
    rw [hout, search_of_clean _ hclean] at hr
    cases hf : firstAccepted scalar (leaves c) with
    | some b =>
      rw [hf] at hr
      cases hr
      exact (hval rfl).symm
    | none =>
      refine (firstAccepted_eq_none.mpr fun l hl => ?_).symm
      exact firstAccepted_eq_none.mp hf l (ipairsLeaves_subset c hl)
  · rintro ⟨hclean, hfirst⟩
    have hr := search_of_clean none hclean
    cases hf : firstAccepted scalar (leaves c) with
    | some b =>
      rw [hf] at hr
      refine ⟨(true, b), hout.trans hr, ?_, fun _ => by rw [← hfirst, hf]⟩
      simp only [true_iff]
      exact firstAccepted_isSome.mp (hf ▸ rfl)
    | none =>
      rw [hf] at hr
      refine ⟨(false, none), hout.trans hr, ?_, by simp⟩
      simp only [Bool.false_eq_true, false_iff]
      rintro ⟨l, hl, ha⟩
      exact firstAccepted_eq_none.mp hf l hl ha

/-- The law when the operator returns `r` and accepts no scalar: it must not match. -/
theorem tableLaw_unmatched {scalar : Scalar → Except String Found} {out c} {r : Found} (hout : out = .ok r)
    (hno : ∀ l ∈ leaves c, ¬ Accepts scalar l) : TableLaw scalar out c ↔ r.1 = false := by
  constructor
  · rintro ⟨r', hr, hmatch, -⟩
    obtain rfl : r = r' := by simpa [hout] using hr
    by_contra h
    obtain ⟨l, hl, ha⟩ := hmatch.mp (by simpa using h)
    exact hno l hl ha
  · intro h
    exact ⟨r, hout, by simpa [h] using hno, by simp [h]⟩

/-! ## The law of each operator -/

/-- A string argument of a library function. -/
def isText : Option Val → Bool
  | some (.leaf (.bool _)) | some (.table _ _) | none => false
  | some _ => true

theorem checkString_ok {v : Option Val} : (∃ s, checkString v = .ok s) ↔ isText v = true := by
  rcases v with _ | ⟨_ | _ | _⟩ | _ <;> simp [checkString, isText]

/-- Two numbers or two strings. -/
def comparable (a : Scalar) : Option Val → Bool
  | some (.leaf b) =>
    match a, b with
    | .num _, .num _ | .str _, .str _ => true
    | _, _ => false
  | _ => false

variable (env : OpEnv) (dicts : Dicts) (ctx : OpCtx)

/-- The scalars that the operators which search a table can take: the others make them raise. -/
def takes (operator : Operator) (pattern : Option Val) (l : Scalar) : Bool :=
  match operator with
  | .REGEX | .REFIND | .STR_CONTAINS | .VERIFY_CC => isText (some l) && isText pattern
  | .GREATER | .LESS | .GREATER_EQ | .LESS_EQ => comparable l pattern
  | .EXISTS => pattern.any Val.isTable
  | .PM => (l matches .str _)
  | .DETECT_SQLI => (env.libinject_sqli l).isOk
  | .DETECT_XSS => (env.libinject_xss l).isOk
  | .STR_MATCH =>
    match l, pattern with
    | .str _, some (.leaf (.str _)) => true
    | .str s, some (.table arr _) => s.length < arr.length || arr.isEmpty
    | _, _ => false
  | _ => true

/-- The operator on a scalar. -/
def scalarOf (operator : Operator) (pattern : Option Val) (l : Scalar) : Except String Found :=
  (lookup env dicts ctx operator (.leaf l) pattern).1

/-- The scalars that `PM`'s pattern and `CONTAINS`' pattern hold. -/
def patternLeaves : Option Val → List Scalar
  | none => []
  | some p => ipairsLeaves p

/-- The dictionary `PM` searches: the one kept for the rule, or the one made of the pattern. -/
def dictionary? (pattern : Option Val) : Option (List String) :=
  match ctx.id.bind (dicts.lookup ·) with
  | some dict => some dict
  | none =>
    match createAc pattern, ctx.id with
    | .ok dict, some _ => some dict
    | _, _ => none

/-- The operator takes every scalar up to the first that matches. -/
def TakesToMatch (operator : Operator) (pattern : Option Val) (ls : List Scalar) : Prop :=
  ∀ pre l post, ls = pre ++ l :: post → (∀ a ∈ pre, ¬ Accepts (scalarOf env dicts ctx operator pattern) a) →
    takes env operator pattern l = true

/-- When an operator obeys the law on a table. -/
def Lawful (operator : Operator) (pattern : Option Val) (c : Val) : Prop :=
  let scalar := scalarOf env dicts ctx operator pattern
  match operator with
  | .CONTAINS => ∀ n ∈ patternLeaves pattern, tableHasValue (some n) (some c) = .ok false
  | .STR_EXISTS => pattern.any Val.isTable ∧ patternLeaves pattern = []
  | .CIDR_MATCH => (∀ l ∈ leaves c, ¬ Accepts scalar l) ∧ env.ip_in_cidrs c (cidrsOf pattern) = false
  | .RBL_LOOKUP => ∀ l ∈ leaves c, ¬ Accepts scalar l
  | .VERIFY_CC =>
    TakesToMatch env dicts ctx operator pattern (leaves c) ∧
      firstAccepted scalar (leaves c) = firstAccepted scalar (ipairsLeaves c)
  | .PM =>
    (dictionary? dicts ctx pattern).isSome ∧ TakesToMatch env dicts ctx operator pattern (ipairsLeaves c) ∧
      Reached scalar c
  | _ => TakesToMatch env dicts ctx operator pattern (ipairsLeaves c) ∧ Reached scalar c

/-! ### The scalar operators -/

/-- A library function of two string arguments returns iff both are strings or numbers. -/
theorem text2_ok {a b : Option Val} {k : String → String → Except String Found} (hk : ∀ s p, ∃ r, k s p = .ok r) :
    (∃ r, (do let s ← checkString a; let p ← checkString b; k s p) = Except.ok r) ↔
      (isText a && isText b) = true := by
  rw [Bool.and_eq_true, ← checkString_ok, ← checkString_ok]
  constructor
  · rintro ⟨r, hr⟩
    cases ha : checkString a with
    | error e => simp [ha, Bind.bind, Except.bind] at hr
    | ok s =>
      cases hb : checkString b with
      | error e => simp [ha, hb, Bind.bind, Except.bind] at hr
      | ok p => exact ⟨⟨s, rfl⟩, p, rfl⟩
  · rintro ⟨⟨s, hs⟩, p, hp⟩
    obtain ⟨r, hr⟩ := hk s p
    exact ⟨r, by simp [hs, hp, hr, Bind.bind, Except.bind]⟩

theorem exists_ok_ite {c : Prop} [Decidable c] {a b : Found} :
    ∃ r, (if c then .ok a else .ok b : Except String Found) = .ok r := by
  split <;> exact ⟨_, rfl⟩

variable {pattern : Option Val} {l : Scalar}

theorem regexScalar_ok : (∃ r, regexScalar env pattern l = .ok r) ↔ (isText (some l) && isText pattern) = true :=
  text2_ok fun s p => by cases env.re_match s p <;> exact ⟨_, rfl⟩

theorem refindScalar_ok : (∃ r, refindScalar env pattern l = .ok r) ↔ (isText (some l) && isText pattern) = true :=
  text2_ok fun s p => by cases env.re_find s p <;> exact ⟨_, rfl⟩

theorem strFindScalar_ok : (∃ r, strFindScalar pattern l = .ok r) ↔ (isText (some l) && isText pattern) = true :=
  text2_ok fun s p => by cases findPlain s.toList p.toList <;> exact ⟨_, rfl⟩

theorem verifyCcScalar_ok :
    (∃ r, verifyCcScalar env pattern l = .ok r) ↔ (isText (some l) && isText pattern) = true := by
  rw [← refindScalar_ok env]
  simp only [verifyCcScalar]
  cases refindScalar env pattern l with
  | error e => simp [Bind.bind, Except.bind]
  | ok r =>
    rcases r with ⟨_ | _, v⟩
    · exact iff_of_true ⟨_, rfl⟩ ⟨_, rfl⟩
    · refine iff_of_true ?_ ⟨_, rfl⟩
      exact exists_ok_ite (c := luhnSum _ % 10 = 0)

theorem compare?_ok {num : Rat → Rat → Bool} {str : String → String → Bool} :
    (∃ r, compare? num str l pattern = .ok r) ↔ comparable l pattern = true := by
  rcases pattern with _ | ⟨_ | _ | _⟩ | _ <;> cases l <;> simp [compare?, comparable]

theorem map_ok {α β : Type} {f : α → β} {x : Except String α} : (∃ r, x.map f = .ok r) ↔ x.isOk = true := by
  cases x <;> simp [Except.map, Except.isOk, Except.toBool]

theorem strMatchScalar_ok {env : OpEnv} :
    (∃ r, strMatchScalar pattern l = .ok r) ↔ takes env .STR_MATCH pattern l = true := by
  rcases pattern with _ | ⟨_ | _ | _⟩ | ⟨arr, hash⟩ <;> cases l <;> simp only [strMatchScalar, takes]
  case some.table.str s =>
    by_cases hlt : s.length < arr.length
    · simp [hlt]
    · by_cases hnil : arr = [] <;> simp [hlt, hnil]
  all_goals simp

variable {dict : List String}

theorem acScalar_ok : (∃ r, acScalar env dict l = .ok r) ↔ (l matches .str _) = true := by
  cases l <;> simp [acScalar]

/-- With a dictionary, `PM` is the search in it. -/
theorem acLookup_of_dictionary
    (h : dictionary? dicts ctx pattern = some dict) (c : Val) :
    (acLookup env dicts ctx c pattern).1 = overIpairs (acScalar env dict) c := by
  unfold dictionary? at h
  unfold acLookup
  cases hd : ctx.id.bind (dicts.lookup ·) with
  | some d =>
    rw [hd] at h
    cases h
    rfl
  | none =>
    rw [hd] at h
    cases hcreate : createAc pattern <;> cases hid : ctx.id <;> rw [hcreate, hid] at h <;> cases h
    rfl

/-- Without one, it raises. -/
theorem acLookup_of_none (h : dictionary? dicts ctx pattern = none) (c : Val) :
    ∃ e, (acLookup env dicts ctx c pattern).1 = .error e := by
  unfold dictionary? at h
  unfold acLookup
  cases hd : ctx.id.bind (dicts.lookup ·) with
  | some d => simp [hd] at h
  | none =>
    rw [hd] at h
    cases hcreate : createAc pattern <;> cases hid : ctx.id <;> rw [hcreate, hid] at h <;>
      first | exact ⟨_, rfl⟩ | cases h

theorem pm_ok (h : (dictionary? dicts ctx pattern).isSome) :
    (∃ r, scalarOf env dicts ctx .PM pattern l = .ok r) ↔ takes env .PM pattern l = true := by
  obtain ⟨dict, hdict⟩ := Option.isSome_iff_exists.mp h
  simp only [scalarOf, lookup, acLookup_of_dictionary env dicts ctx hdict]
  exact acScalar_ok env

/-- Whether the operator searches the elements of a table with the scalar operator. -/
def Searches (operator : Operator) : Prop :=
  operator ≠ .CONTAINS ∧ operator ≠ .STR_EXISTS ∧ operator ≠ .CIDR_MATCH ∧ operator ≠ .RBL_LOOKUP

instance (operator : Operator) : Decidable (Searches operator) := inferInstanceAs (Decidable (_ ∧ _))

variable {operator : Operator}

/-- **What an operator takes.** -/
theorem scalarOf_ok (hs : Searches operator)
    (hdict : operator = .PM → (dictionary? dicts ctx pattern).isSome) (l : Scalar) :
    (∃ r, scalarOf env dicts ctx operator pattern l = .ok r) ↔ takes env operator pattern l = true := by
  cases operator with
  | REGEX => exact regexScalar_ok env
  | REFIND => exact refindScalar_ok env
  | STR_CONTAINS => exact strFindScalar_ok
  | VERIFY_CC => exact verifyCcScalar_ok env
  | EQUALS => exact ⟨fun _ => rfl, fun _ => ⟨_, rfl⟩⟩
  | GREATER | LESS | GREATER_EQ | LESS_EQ => exact compare?_ok
  | EXISTS =>
    refine map_ok.trans ?_
    rcases pattern with _ | ⟨_ | _ | _⟩ | _ <;>
      simp [tableHasValue, takes, Except.isOk, Except.toBool, Val.isTable]
  | PM => exact pm_ok env dicts ctx (hdict rfl)
  | DETECT_SQLI => exact map_ok
  | DETECT_XSS => exact map_ok
  | STR_MATCH => exact strMatchScalar_ok
  | CONTAINS => exact absurd rfl hs.1
  | STR_EXISTS => exact absurd rfl hs.2.1
  | CIDR_MATCH => exact absurd rfl hs.2.2.1
  | RBL_LOOKUP => exact absurd rfl hs.2.2.2

theorem clean_iff_takes (hs : Searches operator)
    (hdict : operator = .PM → (dictionary? dicts ctx pattern).isSome) (ls : List Scalar) :
    Clean (scalarOf env dicts ctx operator pattern) ls ↔ TakesToMatch env dicts ctx operator pattern ls := by
  simp only [clean_iff, TakesToMatch, scalarOf_ok env dicts ctx hs hdict]

/-! ### The operators on a table -/

theorem contains_scalar : ¬ Accepts (scalarOf env dicts ctx .CONTAINS pattern) l := by
  rintro ⟨b, hb⟩
  simp only [scalarOf, lookup, contains] at hb
  rcases pattern with _ | n | ⟨arr, hash⟩
  · simp [tableHasValue, Except.map] at hb
  · simp [tableHasValue, Except.map] at hb
  · simp only [tableHasValue, Except.map, overIpairs_table] at hb
    cases ha : ipairsLeaves (.table arr hash) with
    | nil => rw [ha] at hb; simp [search] at hb
    | cons n ns => rw [ha] at hb; simp [search, unlessFound] at hb

/-- Membership in a table: no error, and a match on the members only. -/
theorem clean_member (c : Val) (hc : c.isTable = true) (ns : List Scalar) :
    Clean (fun v : Scalar => (tableHasValue (some v) (some c)).map (selfValue v)) ns := by
  obtain ⟨arr, hash, rfl⟩ := isTable_iff.mp hc
  exact clean_iff.mpr fun _ a _ _ _ => ⟨_, rfl⟩

theorem accepts_member (hc : c.isTable = true) {n : Scalar} :
    ¬ Accepts (fun v : Scalar => (tableHasValue (some v) (some c)).map (selfValue v)) n ↔
      tableHasValue (some n) (some c) = .ok false := by
  obtain ⟨arr, hash, rfl⟩ := isTable_iff.mp hc
  simp [Accepts, tableHasValue, Except.map, selfValue]

theorem contains_lawful (hc : c.isTable = true) :
    TableLaw (scalarOf env dicts ctx .CONTAINS pattern) (contains c pattern) c ↔
      ∀ n ∈ patternLeaves pattern, tableHasValue (some n) (some c) = .ok false := by
  have hno : ∀ l ∈ leaves c, ¬ Accepts (scalarOf env dicts ctx .CONTAINS pattern) l :=
    fun _ _ => contains_scalar env dicts ctx
  rcases pattern with _ | p
  · obtain ⟨arr, hash, rfl⟩ := isTable_iff.mp hc
    refine (tableLaw_unmatched (r := (false, none)) ?_ hno).trans (by simp [patternLeaves])
    simp [contains, tableHasValue, Except.map]
  · have hsearch : contains c (some p) = search none
        (fun v : Scalar => (tableHasValue (some v) (some c)).map (selfValue v)) (ipairsLeaves p) := by
      cases p with
      | table narr nhash => exact overIpairs_table _ narr nhash
      | leaf n =>
        obtain ⟨arr, hash, rfl⟩ := isTable_iff.mp hc
        simp only [contains, ipairsLeaves, search, tableHasValue, Except.map, selfValue]
        cases any _ _ <;> rfl
    have hout := search_of_clean (none : Option Val) (clean_member c hc (ipairsLeaves p))
    refine (tableLaw_unmatched (hsearch.trans hout) hno).trans ?_
    simp only [patternLeaves, ← accepts_member hc]
    rw [← firstAccepted_eq_none]
    cases firstAccepted _ (ipairsLeaves p) <;> simp

/-- A table is no text to look for. -/
theorem strFindScalar_table (hc : c.isTable = true) (l : Scalar) : ∃ e, strFindScalar (some c) l = .error e := by
  obtain ⟨arr, hash, rfl⟩ := isTable_iff.mp hc
  cases l <;> exact ⟨_, rfl⟩

theorem strExists_lawful (hc : c.isTable = true) :
    TableLaw (scalarOf env dicts ctx .STR_EXISTS pattern) (strFind pattern (some c)) c ↔
      pattern.any Val.isTable ∧ patternLeaves pattern = [] := by
  rcases pattern with _ | p | ⟨parr, phash⟩
  · simp [TableLaw, strFind, checkString, Except.map]
  · obtain ⟨e, he⟩ := strFindScalar_table hc p
    simp [TableLaw, strFind, overIpairs, he, Val.isTable]
  · have hout : strFind (some (.table parr phash)) (some c) =
        search none (strFindScalar (some c)) (ipairsLeaves (.table parr phash)) := overIpairs_table _ _ _
    simp only [Option.any, Val.isTable, true_and, patternLeaves]
    cases hp : ipairsLeaves (.table parr phash) with
    | nil =>
      rw [hp] at hout
      refine (tableLaw_unmatched (r := (false, none)) hout ?_).trans (by simp)
      rintro l - ⟨b, hb⟩
      have hscalar : scalarOf env dicts ctx .STR_EXISTS (some (.table parr phash)) l =
          search none (strFindScalar (some (.leaf l))) (ipairsLeaves (.table parr phash)) := overIpairs_table _ _ _
      simp [hscalar, hp, search] at hb
    | cons q qs =>
      obtain ⟨e, he⟩ := strFindScalar_table hc q
      simp [TableLaw, hout, hp, search, unlessFound, he]

/-- The value a CIDR match returns is the collection, never one of its scalars. -/
theorem cidr_lawful (hc : c.isTable = true) :
    TableLaw (scalarOf env dicts ctx .CIDR_MATCH pattern) (cidrMatch env c pattern) c ↔
      (∀ l ∈ leaves c, ¬ Accepts (scalarOf env dicts ctx .CIDR_MATCH pattern) l) ∧
        env.ip_in_cidrs c (cidrsOf pattern) = false := by
  constructor
  · rintro ⟨r, hr, hmatch, hval⟩
    cases hr
    have hfalse : env.ip_in_cidrs c (cidrsOf pattern) = false := by
      by_contra h
      obtain ⟨l, -, hl⟩ := exists_of_firstAccepted (hval (by simpa using h))
      obtain ⟨arr, hash, rfl⟩ := isTable_iff.mp hc
      simp [scalarOf, lookup, cidrMatch] at hl
    refine ⟨fun l hl ha => ?_, hfalse⟩
    have := hmatch.mpr ⟨l, hl, ha⟩
    simp [hfalse] at this
  · rintro ⟨hno, hfalse⟩
    exact (tableLaw_unmatched rfl hno).mpr hfalse

theorem rbl_lawful (hc : c.isTable = true) :
    TableLaw (scalarOf env dicts ctx .RBL_LOOKUP pattern) (rblLookup env ctx c pattern) c ↔
      ∀ l ∈ leaves c, ¬ Accepts (scalarOf env dicts ctx .RBL_LOOKUP pattern) l := by
  have hout : rblLookup env ctx c pattern = .ok (false, none) := by
    obtain ⟨arr, hash, rfl⟩ := isTable_iff.mp hc
    unfold rblLookup
    split
    · split <;> simp_all
    · rfl
  constructor
  · rintro ⟨r, hr, hmatch, -⟩ l hl ha
    have := hmatch.mpr ⟨l, hl, ha⟩
    simp_all
  · intro hno
    exact (tableLaw_unmatched hout hno).mpr rfl

theorem scalarOf_pm (h : dictionary? dicts ctx pattern = some dict) :
    scalarOf env dicts ctx .PM pattern = acScalar env dict :=
  funext fun l => acLookup_of_dictionary env dicts ctx h (.leaf l)

theorem pm_lawful (hc : c.isTable = true) :
    TableLaw (scalarOf env dicts ctx .PM pattern) (acLookup env dicts ctx c pattern).1 c ↔
      (dictionary? dicts ctx pattern).isSome ∧ TakesToMatch env dicts ctx .PM pattern (ipairsLeaves c) ∧
        Reached (scalarOf env dicts ctx .PM pattern) c := by
  cases hdict : dictionary? dicts ctx pattern with
  | none =>
    obtain ⟨e, he⟩ := acLookup_of_none env dicts ctx hdict c
    simp [TableLaw, he]
  | some dict =>
    have hout : (acLookup env dicts ctx c pattern).1 =
        search none (scalarOf env dicts ctx .PM pattern) (ipairsLeaves c) := by
      obtain ⟨arr, hash, rfl⟩ := isTable_iff.mp hc
      rw [acLookup_of_dictionary env dicts ctx hdict, scalarOf_pm env dicts ctx hdict, overIpairs_table]
    rw [tableLaw_ipairs hout, clean_iff_takes env dicts ctx (by decide) fun _ => by simp [hdict]]
    simp

/-- The operators that search the elements in `ipairs` order. -/
theorem search_lawful {out : Except String Found}
    (hs : Searches operator) (hpm : operator ≠ .PM)
    (hout : out = search none (scalarOf env dicts ctx operator pattern) (ipairsLeaves c)) :
    TableLaw (scalarOf env dicts ctx operator pattern) out c ↔
      TakesToMatch env dicts ctx operator pattern (ipairsLeaves c) ∧
        Reached (scalarOf env dicts ctx operator pattern) c := by
  rw [tableLaw_ipairs hout, clean_iff_takes env dicts ctx hs fun h => absurd h hpm]

/-- **An operator obeys the law on exactly the tables that are `Lawful` for it.** -/
theorem tableLaw_iff (operator : Operator) (pattern : Option Val) (arr : List Val) (hash : List (Scalar × Val)) :
    TableLaw (scalarOf env dicts ctx operator pattern) (lookup env dicts ctx operator (.table arr hash) pattern).1
        (.table arr hash) ↔
      Lawful env dicts ctx operator pattern (.table arr hash) := by
  cases operator with
  | REGEX | REFIND | EQUALS | GREATER | LESS | GREATER_EQ | LESS_EQ | EXISTS | STR_CONTAINS | DETECT_SQLI |
    DETECT_XSS | STR_MATCH => exact search_lawful env dicts ctx (by decide) (by decide) (overIpairs_table _ arr hash)
  | CONTAINS => exact contains_lawful env dicts ctx rfl
  | STR_EXISTS => exact strExists_lawful env dicts ctx rfl
  | PM => exact pm_lawful env dicts ctx rfl
  | CIDR_MATCH => exact cidr_lawful env dicts ctx rfl
  | RBL_LOOKUP => exact rbl_lawful env dicts ctx rfl
  | VERIFY_CC =>
    have hout : verifyCc env (.table arr hash) pattern =
        search none (scalarOf env dicts ctx .VERIFY_CC pattern) (leaves (.table arr hash)) :=
          overPairs_table _ arr hash
    exact (tableLaw_pairs hout).trans (by
      rw [clean_iff_takes env dicts ctx (by decide) (by simp)]
      rfl)

/-- An engine that finds nothing. -/
def noEngine : OpEnv where
  re_match _ _ := none
  re_find _ _ := none
  ac_match _ _ := false
  ip_in_cidrs _ _ := false
  dns_new _ := none
  libinject_sqli _ := .ok (false, none)
  libinject_xss _ := .ok false

/-- `STR_EXISTS` finds `GET` in `GET POST`, and raises on the table of `GET`. -/
theorem not_tableLaw_strExists :
    ¬ ∀ (env : OpEnv) (dicts : Dicts) (ctx : OpCtx) (operator : Operator) (pattern : Option Val)
      (arr : List Val) (hash : List (Scalar × Val)),
      TableLaw (scalarOf env dicts ctx operator pattern) (lookup env dicts ctx operator (.table arr hash) pattern).1
        (.table arr hash) := by
  intro h
  obtain ⟨r, hr, -⟩ := h noEngine [] ⟨some (.num 1), none⟩ .STR_EXISTS (some (.leaf (.str "GET POST")))
    [.leaf (.str "GET")] []
  cases hr

end OpenResty.Waf
