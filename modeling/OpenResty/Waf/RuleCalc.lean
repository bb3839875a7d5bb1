/-
`resty.waf.rule_calc`: the collection keys and jump offsets of a rule list,
and the lookup tables of rule ids by message and tag.
-/
import OpenResty.Waf.Rule
import OpenResty.Lib.Chain

namespace OpenResty.Waf

open Lua Option
open List hiding getElem?_eq_some_iff

/-! ## Collection keys -/

def transformCollectionKey : Option TransformOpt → Option String
  | none => none
  | some (.one t) => some t.name
  | some (.many ts) => some (String.intercalate "," (ts.map (·.name)))

def ignoreCollectionKey (ignore : List (SieveMethod × String)) : String :=
  String.intercalate "," (ignore.map fun (m, v) => String.intercalate "," [m.name, v])

/-- `tostring` of what may be nil. -/
def tostring? : Option String → String
  | none => "nil"
  | some s => s

/-- The fields a collection key joins. -/
def keyFields (var : Var) (transform : Option TransformOpt) : List String :=
  [tostring? var.type] ++
  (match var.parse with
    | some (m, v) => [m.name, v.tostring]
    | none => []) ++
  (match var.ignore with
    | some ignore => [ignoreCollectionKey ignore]
    | none => []) ++
  [tostring? (transformCollectionKey transform)]

def buildCollectionKey (var : Var) (transform : Option TransformOpt) : String :=
  String.intercalate "|" (keyFields var transform)

/-! ## Offsets -/

/-- The offsets of a chain's rules. `offset` is the distance from a rule to the
first rule after the chain, `cur_offset` the number of rules before it. -/
def writeChainOffsets (max : Nat) : Nat → Nat → List Rule → List Rule
  | _, _, [] => []
  | cur_offset, offset, rule :: chain =>
    (if max ≤ offset + cur_offset then
      { rule with offset_nomatch := none, offset_match := if rule.isChain then some 1 else none }
    else { rule with offset_nomatch := some offset, offset_match := some 1 }) ::
      writeChainOffsets max (cur_offset + 1) (offset - 1) chain

def writeSkipOffset (rule : Rule) (max cur_offset : Nat) : Except String Rule :=
  match rule.skip.bind skipCount with
  | none => .error "attempt to perform arithmetic on field 'skip'"
  | some skip =>
    let offset := skip + 1
    .ok { rule with
      offset_nomatch := some 1, offset_match := if max < offset + cur_offset then none else some offset }

/-- The counter after the look ahead for `skip_after`: rules passed, the one
found included. -/
def readAhead (skip_after : Scalar) : List Rule → Nat
  | [] => 0
  | check_rule :: rest => if check_rule.id = some skip_after then 1 else 1 + readAhead skip_after rest

/-- The skip offset of a closing rule `rule`, at position `i` with `rest` after it. -/
def writeSkip (max i : Nat) (rest : List Rule) (rule : Rule) : Except String Rule :=
  if rule.skip.isSome then writeSkipOffset rule max i
  else
    match rule.skip_after with
    | some skip_after =>
      let ctr := readAhead skip_after (rule :: rest)
      writeSkipOffset { rule with skip := some (.num (ctr - 1 : Nat)) } max i
    | none => .ok rule

/-- Change the last element. -/
def onLast {α ε : Type} (f : α → Except ε α) : List α → Except ε (List α)
  | [] => .ok []
  | [a] => return [← f a]
  | a :: b :: l => return a :: (← onLast f (b :: l))

/-- Every variable gets its collection key. -/
def keyVars (rule : Rule) : Except String Rule :=
  match rule.vars with
  | none => .error "bad argument #1 to 'ipairs' (table expected, got nil)"
  | some vars => .ok { rule with
      vars := some { vars with list := vars.list.map fun var =>
        { var with collection_key := buildCollectionKey var rule.opts.transform } } }

/-- The loop over the rules from position `i` on; `chain` holds the rules of
the chain begun. Rules of a chain that is never closed get no offsets. -/
def calculateFrom (max : Nat) : Nat → List Rule → List Rule → Except String (List Rule)
  | _, chain, [] => .ok chain
  | i, chain, rule :: rest => do
    let rule ← keyVars rule
    let chain := chain ++ [rule]
    if rule.isChain then calculateFrom max (i + 1) chain rest
    else
      let chain := writeChainOffsets max (i - chain.length) chain.length chain
      let chain ← onLast (writeSkip max i rest) chain
      return chain ++ (← calculateFrom max (i + 1) [] rest)

def calculate (ruleset : List Rule) : Except String (List Rule) :=
  calculateFrom ruleset.length 1 [] ruleset

/-! What `calculate` writes: on a list of chains, every rule gets the offsets
`nomatchOffset` and `matchOffset` say, and nothing else of it changes but its
collection keys and a closing rule's `skip`. -/

open Lib

abbrev RuleChain := Chain Rule.isChain

/-- A rule with its variables' collection keys. -/
def Rule.keyed (r : Rule) : Rule :=
  { r with vars := r.vars.map fun vars => { vars with list := vars.list.map fun var =>
      { var with collection_key := buildCollectionKey var r.opts.transform } } }

theorem keyVars_eq {r : Rule} (h : r.vars.isSome) : keyVars r = .ok r.keyed := by
  obtain ⟨vars, hv⟩ := isSome_iff_exists.mp h
  simp [keyVars, Rule.keyed, hv]

@[simp] theorem Rule.keyed_id (r : Rule) : r.keyed.id = r.id := rfl
@[simp] theorem Rule.keyed_skip (r : Rule) : r.keyed.skip = r.skip := rfl
@[simp] theorem Rule.keyed_skip_after (r : Rule) : r.keyed.skip_after = r.skip_after := rfl
@[simp] theorem Rule.keyed_actions (r : Rule) : r.keyed.actions = r.actions := rfl
@[simp] theorem Rule.keyed_isChain (r : Rule) : r.keyed.isChain = r.isChain := rfl

/-- The rules a closing rule's full match passes, its own field first. -/
def skipOf (r : Rule) (rest : List Rule) : Option Nat :=
  if r.skip.isSome then r.skip.bind skipCount
  else r.skip_after.map fun skip_after => readAhead skip_after (r :: rest) - 1

/-- The no-match offset of the rule at `pos` of a chain ending at `e`. -/
def nomatchOffset (max e pos : Nat) (skip : Option Nat) : Option Nat :=
  if skip.isSome then some 1 else if max ≤ e then none else some (e + 1 - pos)

def matchOffset (max e : Nat) (skip : Option Nat) (isChain : Bool) : Option Nat :=
  match skip with
  | some n => if max < n + 1 + e then none else some (n + 1)
  | none => if max ≤ e ∧ isChain = false then none else some 1

/-- What `calculate` makes of the rule at `pos` of a chain ending at `e`. -/
def Rule.placed (max e pos : Nat) (skip : Option Nat) (field : Option Scalar) (r : Rule) : Rule :=
  { r.keyed with
    skip := field
    offset_nomatch := nomatchOffset max e pos skip
    offset_match := matchOffset max e skip r.isChain }

theorem writeChainOffsets_append (max : Nat) : ∀ (l l' : List Rule) (cur offset : Nat),
    writeChainOffsets max cur offset (l ++ l') =
      writeChainOffsets max cur offset l ++ writeChainOffsets max (cur + l.length) (offset - l.length) l'
  | [], _, _, _ => by simp [writeChainOffsets]
  | r :: l, l', cur, offset => by
    simp only [cons_append, writeChainOffsets, writeChainOffsets_append max l l', length_cons]
    rw [show cur + 1 + l.length = cur + (l.length + 1) by omega,
      show offset - 1 - l.length = offset - (l.length + 1) by omega]

theorem placed_of_offsets (max : Nat) {e pos : Nat} (r : Rule) (hp : 0 < pos) (hpos : pos ≤ e) :
    writeChainOffsets max (pos - 1) (e + 1 - pos) [r.keyed] = [r.placed max e pos none r.skip] := by
  simp only [writeChainOffsets, Rule.placed, nomatchOffset, matchOffset, Rule.keyed_isChain]
  rw [show e + 1 - pos + (pos - 1) = e by omega]
  by_cases hm : max ≤ e
  · by_cases hc : r.isChain = true <;> simp [hm, hc, Rule.keyed]
  · simp [hm, Rule.keyed]

/-- The rules `rs`, at positions from `pos` on, of a chain ending at `e`. -/
theorem writeChainOffsets_placed (max e : Nat) : ∀ (rs : List Rule) {pos : Nat}, 0 < pos → pos + rs.length ≤ e + 1 →
    writeChainOffsets max (pos - 1) (e + 1 - pos) (rs.map Rule.keyed) =
      rs.mapIdx fun i r => r.placed max e (pos + i) none r.skip
  | [], _, _, _ => rfl
  | r :: rs, pos, hp, hle => by
    simp only [length_cons] at hle
    have hone := placed_of_offsets max r hp (show pos ≤ e by omega)
    simp only [writeChainOffsets, List.cons.injEq, and_true] at hone
    have ih := writeChainOffsets_placed max e rs (show 0 < pos + 1 by omega) (by omega)
    rw [show pos + 1 - 1 = pos - 1 + 1 by omega, show e + 1 - (pos + 1) = e + 1 - pos - 1 by omega] at ih
    simp only [map_cons, writeChainOffsets, hone, ih, mapIdx_cons, Nat.add_zero, List.cons.injEq, true_and]
    refine congrArg (List.mapIdx · rs) (funext fun i => ?_)
    rw [show pos + 1 + i = pos + (i + 1) by omega]

theorem onLast_append {α ε : Type} (f : α → Except ε α) : ∀ (l : List α) (a : α),
    onLast f (l ++ [a]) = (f a).map fun a' => l ++ [a']
  | [], a => by cases h : f a <;> simp [onLast, h, Except.map, bind, Except.bind, pure, Except.pure]
  | [b], a => by
    cases h : f a <;> simp [onLast, h, Except.map, bind, Except.bind, pure, Except.pure]
  | b :: b' :: l, a => by
    have ih := onLast_append f (b' :: l) a
    simp only [cons_append] at ih ⊢
    simp only [onLast, ih]
    cases h : f a <;> simp [Except.map, bind, Except.bind, pure, Except.pure]

/-- The skip offset of a placed closing rule. -/
theorem writeSkip_placed {max e : Nat} {rest : List Rule} {r r' : Rule}
    (h : writeSkip max e rest (r.placed max e e none r.skip) = .ok r') :
    ∃ field, r' = r.placed max e e (skipOf r rest) field := by
  have hread : ∀ s, readAhead s (r.placed max e e none r.skip :: rest) = readAhead s (r :: rest) := fun s => rfl
  unfold writeSkip at h
  have hskip : (r.placed max e e none r.skip).skip = r.skip := rfl
  have hafter : (r.placed max e e none r.skip).skip_after = r.skip_after := rfl
  rw [hskip, hafter] at h
  cases hs : r.skip with
  | some s =>
    simp only [hs, isSome_some, if_true, writeSkipOffset] at h
    rw [show (r.placed max e e none (some s)).skip = some s from rfl] at h
    simp only [bind_some] at h
    cases hc : skipCount s with
    | none => rw [hc] at h; cases h
    | some n =>
      rw [hc] at h
      cases h
      exact ⟨some s, by simp [Rule.placed, skipOf, hs, hc, nomatchOffset, matchOffset]⟩
  | none =>
    simp only [hs, isSome_none, Bool.false_eq_true, if_false] at h
    cases ha : r.skip_after with
    | none =>
      rw [ha] at h
      cases h
      exact ⟨none, by simp [skipOf, hs, ha]⟩
    | some s =>
      rw [ha] at h
      rw [hs] at hread
      simp only [writeSkipOffset, bind_some, skipCount_num, hread] at h
      cases h
      exact ⟨some (.num (readAhead s (r :: rest) - 1 : Nat)),
        by simp [Rule.placed, skipOf, hs, ha, nomatchOffset, matchOffset]⟩

/-- The chains of `cs` after the first `b` rules, placed. -/
inductive PlacedFrom (max : Nat) : Nat → List RuleChain → List Rule → Prop
  | nil : PlacedFrom max b [] []
  | cons {b c cs out} field : PlacedFrom max (b + c.cells.length) cs out →
      PlacedFrom max b (c :: cs)
        ((c.body.mapIdx fun i r => r.placed max (b + c.cells.length) (b + 1 + i) none r.skip) ++
          c.close.placed max (b + c.cells.length) (b + c.cells.length)
            (skipOf c.close (Chain.flatten cs)) field :: out)

theorem calculateFrom_body {max : Nat} {rest : List Rule} : ∀ {body done : List Rule} {i : Nat},
    (∀ r ∈ body, r.isChain = true) → (∀ r ∈ body, r.vars.isSome) →
    calculateFrom max i done (body ++ rest) =
      calculateFrom max (i + body.length) (done ++ body.map Rule.keyed) rest
  | [], _, _, _, _ => by simp
  | r :: body, done, i, hc, hv => by
    have hr := hc r (by simp)
    simp only [cons_append, calculateFrom, keyVars_eq (hv r (by simp)), bind, Except.bind,
      Rule.keyed_isChain, hr, if_true]
    rw [calculateFrom_body (fun r h => hc r (by simp [h])) (fun r h => hv r (by simp [h]))]
    simp [Nat.add_assoc, Nat.add_comm 1]

theorem calculateFrom_chain {max b : Nat} {c : RuleChain} {rest : List Rule} (hv : ∀ r ∈ c.cells, r.vars.isSome) :
    calculateFrom max (b + 1) [] (c.cells ++ rest) = do
      let close ← writeSkip max (b + c.cells.length) rest
        (c.close.placed max (b + c.cells.length) (b + c.cells.length) none c.close.skip)
      let out ← calculateFrom max (b + c.cells.length + 1) [] rest
      return (c.body.mapIdx fun i r => r.placed max (b + c.cells.length) (b + 1 + i) none r.skip) ++ close ::
        out := by
  have hsplit : c.cells ++ rest = c.body ++ c.close :: rest := by simp [Chain.cells]
  rw [hsplit, calculateFrom_body c.body_continues fun r h => hv r (by simp [Chain.cells, h])]
  have hcv : c.close.vars.isSome := hv _ (by simp [Chain.cells])
  have hoff := writeChainOffsets_placed max (b + c.cells.length) c.body (show 0 < b + 1 by omega)
    (by simp only [Chain.length_cells]; omega)
  have hlast := placed_of_offsets max c.close
    (show 0 < b + c.cells.length by simp only [Chain.length_cells]; omega) (Nat.le_refl _)
  simp only [Chain.length_cells] at hoff hlast ⊢
  simp only [calculateFrom, keyVars_eq hcv, Rule.keyed_isChain, c.close_stops, nil_append,
    bind, Except.bind, Bool.false_eq_true, if_false, writeChainOffsets_append, length_append, length_map,
    length_singleton]
  rw [show b + 1 + c.body.length - (c.body.length + 1) = b + 1 - 1 by omega,
    show c.body.length + 1 = b + (c.body.length + 1) + 1 - (b + 1) by omega, hoff]
  rw [show b + 1 - 1 + c.body.length = b + (c.body.length + 1) - 1 by omega,
    show b + (c.body.length + 1) + 1 - (b + 1) - c.body.length =
      b + (c.body.length + 1) + 1 - (b + (c.body.length + 1)) by omega, hlast, onLast_append]
  rw [show b + 1 + c.body.length = b + (c.body.length + 1) by omega,
    show b + (b + (c.body.length + 1) + 1 - (b + 1)) = b + (c.body.length + 1) by omega]
  generalize writeSkip max (b + (c.body.length + 1)) rest _ = x
  cases x with
  | error e => rfl
  | ok close =>
    simp only [Except.map]
    generalize calculateFrom max (b + (c.body.length + 1) + 1) [] rest = y
    cases y <;> simp [pure, Except.pure]

theorem calculateFrom_placed {max b : Nat} {cs : List RuleChain} {out : List Rule}
    (hv : ∀ r ∈ Chain.flatten cs, r.vars.isSome) (h : calculateFrom max (b + 1) [] (Chain.flatten cs) = .ok out) :
    PlacedFrom max b cs out := by
  induction cs generalizing b out with
  | nil => cases h; exact .nil
  | cons c cs ih =>
    rw [Chain.flatten_cons, calculateFrom_chain fun r hr => hv r (by simp [hr])] at h
    simp only [bind, Except.bind] at h
    split at h
    · cases h
    · next close hclose =>
      split at h
      · cases h
      · next out' hout =>
        cases h
        obtain ⟨field, rfl⟩ := writeSkip_placed hclose
        exact .cons field (ih (fun r hr => hv r (by simp [hr])) hout)

theorem calculate_placed {cs : List RuleChain} {out : List Rule} (hv : ∀ r ∈ Chain.flatten cs, r.vars.isSome)
    (h : calculate (Chain.flatten cs) = .ok out) : PlacedFrom (Chain.flatten cs).length 0 cs out :=
  calculateFrom_placed (b := 0) hv h

/-- `calculate` fails on no list of chains whose rules have variables and whose skips are numbers. -/
theorem calculateFrom_total {max b : Nat} {cs : List RuleChain} (hv : ∀ r ∈ Chain.flatten cs, r.vars.isSome)
    (hs : ∀ c ∈ cs, ∀ s, c.close.skip = some s → (skipCount s).isSome) :
    ∃ out, calculateFrom max (b + 1) [] (Chain.flatten cs) = .ok out := by
  induction cs generalizing b with
  | nil => exact ⟨[], rfl⟩
  | cons c cs ih =>
    obtain ⟨out, hout⟩ := ih (b := b + c.cells.length)
      (fun r hr => hv r (by simp [hr])) fun c' hc => hs c' (by simp [hc])
    rw [Chain.flatten_cons, calculateFrom_chain fun r hr => hv r (by simp [hr]), hout]
    have : ∃ r', writeSkip max (b + c.cells.length) (Chain.flatten cs)
        (c.close.placed max (b + c.cells.length) (b + c.cells.length) none c.close.skip) = .ok r' := by
      have hskip : (c.close.placed max (b + c.cells.length) (b + c.cells.length) none c.close.skip).skip =
        c.close.skip := rfl
      unfold writeSkip
      rw [hskip]
      cases hc : c.close.skip with
      | some s =>
        obtain ⟨n, hn⟩ := isSome_iff_exists.mp (hs c (by simp) s hc)
        simp only [isSome_some, if_true, writeSkipOffset, Rule.placed, bind_some, hn]
        exact ⟨_, rfl⟩
      | none =>
        simp only [isSome_none, Bool.false_eq_true, if_false]
        split
        · simp only [writeSkipOffset, bind_some, skipCount_num]
          exact ⟨_, rfl⟩
        · exact ⟨_, rfl⟩
    obtain ⟨r', hr'⟩ := this
    rw [hr']
    exact ⟨_, rfl⟩

theorem calculate_total {cs : List RuleChain} (hv : ∀ r ∈ Chain.flatten cs, r.vars.isSome)
    (hs : ∀ c ∈ cs, ∀ s, c.close.skip = some s → (skipCount s).isSome) :
    ∃ out, calculate (Chain.flatten cs) = .ok out :=
  calculateFrom_total (b := 0) hv hs

theorem PlacedFrom.length {max b cs out} (h : PlacedFrom max b cs out) :
    out.length = (Chain.flatten cs).length := by
  induction h with
  | nil => rfl
  | cons field _ ih =>
    simp only [Chain.flatten_cons, length_append, length_mapIdx, length_cons, ih, Chain.length_cells]
    omega

/-- The rule of index `i` in the first chain, placed. -/
theorem PlacedFrom.head {max b c cs out} {i : Nat} {r : Rule} (h : PlacedFrom max b (c :: cs) out)
    (hr : c.cells[i]? = some r) :
    ∃ field, out[i]? = some (r.placed max (b + c.cells.length) (b + i + 1)
      (if i = c.body.length then skipOf r (Chain.flatten cs) else none) field) := by
  cases h with
  | cons field h =>
    by_cases hi : i < c.body.length
    · have hr' : c.body[i]? = some r := by rwa [Chain.cells, getElem?_append_left hi] at hr
      refine ⟨r.skip, ?_⟩
      rw [getElem?_append_left (by simpa using hi), getElem?_mapIdx, hr', if_neg (by omega),
        show b + 1 + i = b + i + 1 by omega]
      rfl
    · have hlen : i < c.cells.length := (List.getElem?_eq_some_iff.mp hr).1
      simp only [Chain.length_cells] at hlen
      obtain rfl : i = c.body.length := by omega
      have hr' : c.close = r := by simpa [Chain.cells] using hr
      subst hr'
      refine ⟨field, ?_⟩
      rw [getElem?_append_right (by simp)]
      simp [Nat.add_assoc]

theorem PlacedFrom.tail {max b c cs out} (h : PlacedFrom max b (c :: cs) out) :
    PlacedFrom max (b + c.cells.length) cs (out.drop c.cells.length) := by
  cases h with
  | cons field h =>
    rw [append_cons, drop_left' (by simp)]
    exact h

end OpenResty.Waf
