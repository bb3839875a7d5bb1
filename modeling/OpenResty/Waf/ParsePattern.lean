/-
`resty.waf`: the pattern that the operator of a rule with `parsepattern` is given.

The loop over the variables keeps the parsed pattern in the variable it has parsed it
from, so that from the second variable on it is what an expansion gave that is expanded.
-/
import OpenResty.Waf.TransformCache

namespace OpenResty.Waf

open Lua Lib List

variable (env : Env)

/-- What the operator is given in place of a pattern, with the collections of a request. -/
def expand (r : Request) : Option Val → Except Stop (Option Val)
  | some (.leaf pattern) =>
    match parseDynamicValue r.collection pattern with
    | .ok pattern => .ok (some (.leaf pattern))
    | .error e => .error (.raised e)
  | _ => .error (.raised "bad argument #1 to 'gsub' (string expected)")

/-- A collection that `if not collection` does not turn away. -/
def present (collection : Option Val) : Option Val := collection.filter fun v => truthy (some v)

/-- `processVars` from a state, and what the expansions of the pattern give: one for each
variable that has a collection. -/
def trace (now : Rat) (place : Place) (rule : Rule) : Option Val → Option Nat → List Var → State →
    EStateM.Result Stop State (Option Nat) × List (Except Stop (Option Val))
  | _, offset, [], s => (.ok offset s, [])
  | pattern, _, var :: vars, s =>
    match collectionOf env rule.opts.transform var s with
    | .error e s => (.error e s, [])
    | .ok collection s =>
      match present collection with
      | none => trace now place rule pattern rule.offset_nomatch vars s
      | some collection =>
        match dynamicPattern rule pattern s with
        | .error e s => (.error e s, [.error e])
        | .ok pattern s =>
          match matchVar env rule var collection pattern s with
          | .error e s => (.error e s, [.ok pattern])
          | .ok (found, value) s =>
            if found != rule.op_negated then
              ((matchRule env now place rule var value >>= fun _ => pure rule.offset_match) s, [.ok pattern])
            else
              let (result, given) := trace now place rule pattern rule.offset_nomatch vars s
              (result, .ok pattern :: given)

/-- The state in which the loop begins. -/
def State.atRule (s : State) (rule : Rule) : State := s.setReq { s.req with id := rule.id, rule_status := none }

/-- What the expansions of a rule's pattern give, one for each variable that has a collection. -/
def given (now : Rat) (place : Place) (rule : Rule) (s : State) : List (Except Stop (Option Val)) :=
  match rule.vars with
  | none => []
  | some vars => (trace env now place rule rule.pattern rule.offset_nomatch vars.list (s.atRule rule)).2

/-- How many variables with a collection there are up to the first that matches, if the
operator is given the same pattern for each. -/
def reached (rule : Rule) (pattern : Option Val) : List Var → State → Nat
  | [], _ => 0
  | var :: vars, s =>
    match collectionOf env rule.opts.transform var s with
    | .error _ _ => 0
    | .ok collection s =>
      match present collection with
      | none => reached rule pattern vars s
      | some collection =>
        match matchVar env rule var collection pattern s with
        | .error _ _ => 1
        | .ok (found, _) s => if found != rule.op_negated then 1 else reached rule pattern vars s + 1

variable {env} {now : Rat} {place : Place} {rule : Rule} {s : State}

variable {c pattern : Option Val}

variable {s' : State}

/-- What a variable without a collection leaves of the loop -/
theorem processVars_absent {offset : Option Nat} {var : Var} {vars : List Var} (hcollection : collectionOf env rule.opts.transform var s = .ok c s') (h : present c = none) :
    processVars env now place rule pattern offset (var :: vars) s =
      processVars env now place rule pattern rule.offset_nomatch vars s' := by
  rw [processVars, bind_ok hcollection]
  rcases c with _ | ((_ | _) | _) | _
  · rfl
  all_goals first | rfl | cases h

theorem processVars_present {offset : Option Nat} {var : Var} {vars : List Var}
    {v : Val} (hcollection : collectionOf env rule.opts.transform var s = .ok c s') (h : present c = some v) :
    processVars env now place rule pattern offset (var :: vars) s =
      (do
        let pattern ← dynamicPattern rule pattern
        let (found, value) ← matchVar env rule var v pattern
        if found != rule.op_negated then
          matchRule env now place rule var value
          return rule.offset_match
        else processVars env now place rule pattern rule.offset_nomatch vars) s' := by
  rw [processVars, bind_ok hcollection]
  obtain ⟨rfl, htruthy⟩ := Option.filter_eq_some_iff.mp h
  rcases v with ((_ | _) | _) | _
  · cases htruthy
  all_goals rfl

/-- The first component is the loop as it runs. -/
theorem trace_fst (pattern : Option Val) (offset : Option Nat) (vars : List Var) (s : State) :
    (trace env now place rule pattern offset vars s).1 = processVars env now place rule pattern offset vars s := by
  induction vars generalizing pattern offset s with
  | nil => rfl
  | cons var vars ih =>
    cases hcollection : collectionOf env rule.opts.transform var s with
    | error e s' => rw [processVars, bind_error hcollection, trace, hcollection]
    | ok c s' =>
      cases hc : present c with
      | none =>
        rw [processVars_absent hcollection hc, ← ih, trace, hcollection]
        simp only [hc]
      | some v =>
        rw [processVars_present hcollection hc, trace, hcollection]
        simp only [hc]
        cases hpattern : dynamicPattern rule pattern s' with
        | error e s'' => rw [bind_error hpattern]
        | ok pattern s'' =>
          rw [bind_ok hpattern]
          cases hmatch : matchVar env rule var v pattern s'' with
          | error e s₃ =>
            rw [bind_error hmatch]
            simp only [hmatch]
          | ok found s₃ =>
            obtain ⟨found, value⟩ := found
            rw [bind_ok hmatch]
            simp only [hmatch]
            cases found != rule.op_negated with
            | true => rfl
            | false => exact ih ..

/-- What is recorded is what the rule does: its own run of the loop. -/
theorem processRule_trace {vars : Vars} (hvars : rule.vars = some vars) (s : State) :
    processRule env now place rule s =
      (trace env now place rule rule.pattern rule.offset_nomatch vars.list (s.atRule rule)).1 := by
  rw [processRule, bind_ok (update_run _ _), trace_fst, hvars]
  rfl

/-! ## One variable -/

theorem expand_congr {r r' : Request} (h : r'.collection = r.collection) (pattern : Option Val) :
    expand r' pattern = expand r pattern := by
  unfold expand
  rw [h]

theorem dynamicPattern_ok (hparse : rule.opts.parsepattern = true) {q p : Option Val} (h : expand s.req q = .ok p) :
    dynamicPattern rule q s = .ok p s := by
  rcases q with _ | _ | _
  · cases h
  · next key =>
    cases hvalue : parseDynamicValue s.req.collection key with
    | error e =>
      simp only [expand, hvalue] at h
      cases h
    | ok value =>
      simp only [expand, hvalue] at h
      cases h
      have hdynamic : dynamic key s = .ok value s := by
        rw [dynamic, bind_ok (read_run s), hvalue]
        rfl
      simp only [dynamicPattern, hparse, if_true]
      rw [bind_ok hdynamic]
      rfl
  · cases h

theorem dynamicPattern_error (hparse : rule.opts.parsepattern = true) {q : Option Val} {e : Stop}
    (h : expand s.req q = .error e) : dynamicPattern rule q s = .error e s := by
  rcases q with _ | _ | _
  · cases h
    simp only [dynamicPattern, hparse, if_true]
    rfl
  · next key =>
    cases hvalue : parseDynamicValue s.req.collection key with
    | error err =>
      simp only [expand, hvalue] at h
      cases h
      have hdynamic : dynamic key s = .error (.raised err) s := by
        rw [dynamic, bind_ok (read_run s), hvalue]
        rfl
      simp only [dynamicPattern, hparse, if_true]
      rw [bind_error hdynamic]
    | ok value =>
      simp only [expand, hvalue] at h
      cases h
  · cases h
    simp only [dynamicPattern, hparse, if_true]
    rfl

/-- To fetch a collection changes none. -/
theorem collectionOf_collection {transform : Option TransformOpt} {var : Var}
    (h : collectionOf env transform var s = .ok c s') : s'.req.collection = s.req.collection := by
  rcases collectionOf_cases env transform var s with ⟨-, hrun⟩ | ⟨-, e, -, hrun⟩ | ⟨-, c', r, hfetch, hrun⟩
  · rw [hrun] at h
    cases h
    rfl
  · rw [hrun] at h
    cases h
  · rw [hrun] at h
    cases h
    obtain ⟨cache, rfl⟩ := fetch_frame hfetch
    rfl

/-- To apply the operator changes none. -/
theorem matchVar_collection {var : Var} {v : Val} {found : Found}
    (h : matchVar env rule var v pattern s = .ok found s') : s'.req.collection = s.req.collection := by
  rw [matchVar] at h
  split at h
  · cases h
    rfl
  · obtain ⟨dicts, hframe⟩ := operate_frame env rule.operator v pattern s
    rw [finalState_ok h] at hframe
    rw [hframe]

/-- What a variable adds to the expansions, and to those that are reached with one pattern. -/
inductive Turn (env : Env) (now : Rat) (place : Place) (rule : Rule) (var : Var) (vars : List Var) (s : State) : Prop
  | raised (htrace : ∀ q offset, (trace env now place rule q offset (var :: vars) s).2 = [])
      (hreached : ∀ p, reached env rule p (var :: vars) s = 0)
  | absent (s' : State) (hsame : s'.req.collection = s.req.collection)
      (htrace : ∀ q offset, (trace env now place rule q offset (var :: vars) s).2 =
        (trace env now place rule q rule.offset_nomatch vars s').2)
      (hreached : ∀ p, reached env rule p (var :: vars) s = reached env rule p vars s')
  | present (hpos : ∀ p, 0 < reached env rule p (var :: vars) s)
      (herror : ∀ q offset e, expand s.req q = .error e →
        (trace env now place rule q offset (var :: vars) s).2 = [.error e])
      (hok : ∀ q offset p, expand s.req q = .ok p →
        (trace env now place rule q offset (var :: vars) s).2 = [.ok p] ∧ reached env rule p (var :: vars) s = 1 ∨
        ∃ s', s'.req.collection = s.req.collection ∧
          (trace env now place rule q offset (var :: vars) s).2 =
            .ok p :: (trace env now place rule p rule.offset_nomatch vars s').2 ∧
          reached env rule p (var :: vars) s = reached env rule p vars s' + 1)

variable (env now place) in
theorem turn_of_parsed (hparse : rule.opts.parsepattern = true) (var : Var) (vars : List Var) (s : State) :
    Turn env now place rule var vars s := by
  cases hcollection : collectionOf env rule.opts.transform var s with
  | error e s' =>
    refine .raised (fun q offset => ?_) fun p => ?_
    · rw [trace, hcollection]
    · rw [reached, hcollection]
  | ok c s' =>
    have hsame := collectionOf_collection hcollection
    cases hc : present c with
    | none =>
      refine .absent s' hsame (fun q offset => ?_) fun p => ?_
      · rw [trace, hcollection]
        simp only [hc]
      · rw [reached, hcollection]
        simp only [hc]
    | some v =>
      refine .present (fun p => ?_) (fun q offset e he => ?_) fun q offset p hp => ?_
      · rw [reached, hcollection]
        simp only [hc]
        split
        · exact Nat.one_pos
        · split
          · exact Nat.one_pos
          · exact Nat.succ_pos _
      · have hpattern := dynamicPattern_error hparse ((expand_congr hsame q).trans he)
        rw [trace, hcollection]
        simp only [hc, hpattern]
      · have hpattern := dynamicPattern_ok hparse ((expand_congr hsame q).trans hp)
        rw [trace, hcollection, reached, hcollection]
        simp only [hc, hpattern]
        cases hmatch : matchVar env rule var v p s' with
        | error e s'' => exact .inl ⟨rfl, rfl⟩
        | ok found s'' =>
          obtain ⟨found, value⟩ := found
          dsimp only
          cases found != rule.op_negated with
          | true => exact .inl ⟨rfl, rfl⟩
          | false => exact .inr ⟨s'', (matchVar_collection hmatch).trans hsame, rfl, rfl⟩

/-! ## All variables -/

/-- A pattern whose expansion is left as it is by another is expanded to it every time. -/
theorem trace_settled (hparse : rule.opts.parsepattern = true) {q : Option Val}
    (hq : ∀ p, expand s.req q = .ok p → expand s.req p = .ok p) (offset : Option Nat) (vars : List Var) :
    ∀ g ∈ (trace env now place rule q offset vars s).2, g = expand s.req q := by
  induction vars generalizing q offset s with
  | nil => exact fun _ h => absurd h not_mem_nil
  | cons var vars ih =>
    cases turn_of_parsed env now place hparse var vars s with
    | raised htrace _ => simp [htrace]
    | absent s' hsame htrace _ =>
      rw [htrace, ← expand_congr hsame]
      exact ih (fun p hp => (expand_congr hsame p).trans (hq p ((expand_congr hsame q).symm.trans hp))) _
    | present _ herror hok =>
      cases hexpand : expand s.req q with
      | error e => simp [herror q offset e hexpand]
      | ok p =>
        have hp := hq p hexpand
        rcases hok q offset p hexpand with ⟨htrace, -⟩ | ⟨s', hsame, htrace, -⟩
        · simp [htrace]
        · have hp' := (expand_congr hsame p).trans hp
          rw [htrace, forall_mem_cons, ← hp']
          refine ⟨rfl, ih (fun p' h => ?_) _⟩
          cases hp'.symm.trans h
          exact hp'

variable (env now place s) in
/-- As long as no variable is reached there is no expansion, and else the first is that of the pattern. -/
theorem trace_first (hparse : rule.opts.parsepattern = true) (p q : Option Val) (offset : Option Nat) (vars : List Var) :
    reached env rule p vars s = 0 ∧ (trace env now place rule q offset vars s).2 = [] ∨
      0 < reached env rule p vars s ∧ ∃ gs, (trace env now place rule q offset vars s).2 = expand s.req q :: gs := by
  induction vars generalizing offset s with
  | nil => exact .inl ⟨rfl, rfl⟩
  | cons var vars ih =>
    cases turn_of_parsed env now place hparse var vars s with
    | raised htrace hreached => exact .inl ⟨hreached p, htrace q offset⟩
    | absent s' hsame htrace hreached =>
      rw [htrace, hreached, ← expand_congr hsame]
      exact ih s' _
    | present hpos herror hok =>
      refine .inr ⟨hpos p, ?_⟩
      cases he : expand s.req q with
      | error e => exact ⟨[], herror q offset e he⟩
      | ok p' =>
        rcases hok q offset p' he with ⟨htrace, -⟩ | ⟨s', -, htrace, -⟩
        · exact ⟨[], htrace⟩
        · exact ⟨_, htrace⟩

variable (env now place) in
/-- With a second variable reached, the expansion itself is expanded. -/
theorem trace_second (hparse : rule.opts.parsepattern = true) {p q : Option Val} (hq : expand s.req q = .ok p)
    (offset : Option Nat) (vars : List Var) :
    reached env rule p vars s ≤ 1 ∧ (∀ g ∈ (trace env now place rule q offset vars s).2, g = .ok p) ∨
      1 < reached env rule p vars s ∧ expand s.req p ∈ (trace env now place rule q offset vars s).2 := by
  induction vars generalizing offset s with
  | nil => exact .inl ⟨Nat.zero_le _, fun _ h => absurd h not_mem_nil⟩
  | cons var vars ih =>
    cases turn_of_parsed env now place hparse var vars s with
    | raised htrace hreached =>
      refine .inl ⟨?_, ?_⟩
      · rw [hreached]
        exact Nat.zero_le _
      · simp [htrace]
    | absent s' hsame htrace hreached =>
      rw [htrace, hreached, ← expand_congr hsame]
      exact ih ((expand_congr hsame q).trans hq) _
    | present _ _ hok =>
      rcases hok q offset p hq with ⟨htrace, hreached⟩ | ⟨s', hsame, htrace, hreached⟩
      · refine .inl ⟨hreached.le, ?_⟩
        simp [htrace]
      · rw [htrace, hreached]
        rcases trace_first env now place s' hparse p p rule.offset_nomatch vars with
          ⟨hzero, hnil⟩ | ⟨hpos, gs, hgs⟩
        · refine .inl ⟨by omega, ?_⟩
          simp [hnil]
        · refine .inr ⟨by omega, ?_⟩
          rw [hgs, ← expand_congr hsame]
          exact mem_cons_of_mem _ mem_cons_self

/-! ## The rule -/

variable (env now place rule s) in
/-- Every variable with a collection gets the single expansion of the rule's own pattern. -/
def PatternRight : Prop := ∀ g ∈ given env now place rule s, g = expand s.req rule.pattern

variable (env rule s) in
/-- If the pattern can be expanded, its expansion is left as it is by another, or only one
variable with a collection gets its turn. -/
def PatternCareful : Prop :=
  ∀ p, expand s.req rule.pattern = .ok p →
    expand s.req p = .ok p ∨ ∀ vars, rule.vars = some vars → reached env rule p vars.list (s.atRule rule) ≤ 1

/-- **The operator of a rule with `parsepattern` is given the single expansion of the rule's
pattern for every variable exactly if a second expansion does not change it, or no second
variable is reached.** -/
theorem pattern_right_iff (now : Rat) (place : Place) (hparse : rule.opts.parsepattern = true) :
    PatternRight env now place rule s ↔ PatternCareful env rule s := by
  have hsame : ∀ q, expand (s.atRule rule).req q = expand s.req q := expand_congr rfl
  unfold PatternRight PatternCareful given
  cases hvars : rule.vars with
  | none => simp
  | some vars =>
    dsimp only
    rw [← hsame]
    by_cases hsettled : ∀ p, expand (s.atRule rule).req rule.pattern = .ok p → expand (s.atRule rule).req p = .ok p
    · refine iff_of_true (trace_settled hparse hsettled _ _) fun p hp => ?_
      exact .inl ((hsame p).symm.trans (hsettled p hp))
    · obtain ⟨p, hp, hnot⟩ : ∃ p, expand (s.atRule rule).req rule.pattern = .ok p ∧
          expand (s.atRule rule).req p ≠ .ok p := by
        simpa using hsettled
      rw [hp]
      rcases trace_second env now place hparse hp rule.offset_nomatch vars.list with
        ⟨hle, hall⟩ | ⟨hlt, hmem⟩
      · refine iff_of_true hall fun p' hp' => .inr fun vars' hvars' => ?_
        cases hp'
        cases hvars'
        exact hle
      · refine iff_of_false (fun hright => hnot (hright _ hmem)) fun hcareful => ?_
        rcases hcareful p rfl with hp' | hle
        · exact hnot ((hsame p).trans hp')
        · exact absurd (hle vars rfl) (Nat.not_le.mpr hlt)

/-! ## Examples -/

/-- A rule for two collections whose pattern is an argument of the request. -/
def argumentRule : Rule where
  id := some (.num 1)
  vars := some { list := [{ type := some "METHOD", collection_key := "METHOD|nil" },
                          { type := some "URI", collection_key := "URI|nil" }] }
  opts := { parsepattern := true }
  operator := some .EQUALS
  pattern := some (.leaf (.str "%{ARGS.a}"))
  actions := { disrupt := some .DENY }

/-- The request `GET /` with the argument `a`. -/
def withArgument (a : String) : State :=
  let s := State.begin (accessWorker [argumentRule]) (.empty .dict)
  s.setReq { s.req with collections :=
    [("METHOD", .val (.leaf (.str "GET"))), ("URI", .val (.leaf (.str "/"))),
     ("ARGS", .val (.table [] [(.str "a", .leaf (.str a))]))] }

/-- Where the only rule of `accessWorker` stands. -/
def onlyPlace : Place where
  ruleset := "rules"
  phase := .access
  pos := 1

/-- The text of what an expansion gave. -/
def textOf : Except Stop (Option Val) → Option String
  | .ok (some (.leaf (.str text))) => some text
  | _ => none

/-- An argument that is itself a macro is expanded for the second variable. -/
theorem pattern_not_right :
    ¬ ∀ (env : Env) (now : Rat) (place : Place) (rule : Rule) (s : State), rule.opts.parsepattern = true →
      PatternRight env now place rule s := by
  intro h
  have hgiven : (given (.default ["rules"]) 0 onlyPlace argumentRule (withArgument "%{METHOD}")).map textOf =
      [some "%{METHOD}", some "GET"] := by decide +kernel
  have hsingle : textOf (expand (withArgument "%{METHOD}").req argumentRule.pattern) = some "%{METHOD}" := by
    decide +kernel
  have hright := h (.default ["rules"]) 0 onlyPlace argumentRule (withArgument "%{METHOD}") rfl
  have hmem : some "GET" ∈
      (given (.default ["rules"]) 0 onlyPlace argumentRule (withArgument "%{METHOD}")).map textOf := by
    rw [hgiven]
    exact mem_cons_of_mem _ mem_cons_self
  obtain ⟨g, hg, htext⟩ := mem_map.mp hmem
  rw [hright g hg, hsingle] at htext
  exact absurd htext (by decide)

theorem pattern_right_iff_argument : argumentRule.opts.parsepattern = true ∧
    (PatternRight (.default ["rules"]) 0 onlyPlace argumentRule (withArgument "x") ↔
      PatternCareful (.default ["rules"]) argumentRule (withArgument "x")) :=
  ⟨rfl, pattern_right_iff 0 onlyPlace rfl⟩

end OpenResty.Waf
