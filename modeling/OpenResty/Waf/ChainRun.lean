/-
The rule loop of `exec` over the offsets `calculate` writes, and the
evaluation of a rule list chain by chain that it is meant to be.

A no-match offset always leads to the first rule of the next chain. A skip
does not: it counts rules, not chains, so the loop keeps to the chains exactly
when every skip count passes whole chains (or everything that is left).
-/
import OpenResty.Waf.RuleCalc

namespace OpenResty.Waf

open Lua Lib
open List hiding getElem?_eq_some_iff
open Option hiding mem_map

/-- The offset the loop of `exec` adds after a rule's turn: an ignored rule is
passed as if it had not matched. -/
def turnOffset (ignored matched : Bool) (rule : Rule) : Option Nat :=
  if ignored then rule.offset_nomatch
  else if matched then rule.offset_match
  else rule.offset_nomatch

/-- A chain whose closing rule may carry `skip`, but no `skip_after`. -/
structure SkipChain extends Chain Rule.isChain where
  vars : ∀ r ∈ toChain.cells, r.vars.isSome
  skip_number : ∀ s, close.skip = some s → (skipCount s).isSome
  no_skip_after : close.skip_after = none

/-- The rule list the chains are laid out as. -/
def rulesOf (cs : List SkipChain) : List Rule := Chain.flatten (cs.map (·.toChain))

/-- The rules a closing rule's `skip` passes. -/
def skips (r : Rule) : Nat := (r.skip.bind skipCount).getD 0

section

/- Which rules are ignored (by position and id) and which match (by position). -/
variable (ignored : Nat → Option Scalar → Bool) (matched : Nat → Bool)

def succeeds (pos : Nat) (r : Rule) : Bool := !ignored pos r.id && matched pos

def loopOffset (pos : Nat) (r : Rule) : Option Nat := turnOffset (ignored pos r.id) (matched pos) r

theorem Rule.placed_leads (max : Nat) {e pos : Nat} (skip : Option Nat) (field) (r : Rule) (hpos : pos ≤ e)
    (hskip : skip.isSome → pos = e) :
    (succeeds ignored matched pos r = false →
      Leads max pos (loopOffset ignored matched pos (r.placed max e pos skip field)) (e + 1)) ∧
    (succeeds ignored matched pos r = true → r.isChain = true → skip = none →
      Leads max pos (loopOffset ignored matched pos (r.placed max e pos skip field)) (pos + 1)) ∧
    (succeeds ignored matched pos r = true → r.isChain = false → pos = e →
      Leads max pos (loopOffset ignored matched pos (r.placed max e pos skip field)) (e + skip.getD 0 + 1)) := by
  have hno : Leads max pos (nomatchOffset max e pos skip) (e + 1) := by
    unfold nomatchOffset
    cases skip with
    | some n => simp only [isSome_some, if_true, Leads, hskip rfl]
    | none =>
      simp only [isSome_none, Bool.false_eq_true, if_false]
      split <;> simp only [Leads] <;> omega
  have hid : (r.placed max e pos skip field).id = r.id := rfl
  unfold succeeds loopOffset turnOffset
  rw [hid]
  cases ignored pos r.id with
  | true => exact ⟨fun _ => hno, by simp, by simp⟩
  | false =>
    cases matched pos with
    | false => exact ⟨fun _ => hno, by simp, by simp⟩
    | true =>
      refine ⟨by simp, fun _ hc hs => ?_, fun _ hc hp => ?_⟩
      · simp [Rule.placed, matchOffset, hc, hs, Leads]
      · subst hp
        cases skip with
        | none =>
          simp only [Bool.false_eq_true, if_false, if_true, Rule.placed, matchOffset, hc, and_true]
          split
          · simp only [Leads, getD_none]; omega
          · simp only [Leads, getD_none, Nat.add_zero]
        | some n =>
          simp only [Bool.false_eq_true, if_false, if_true, Rule.placed, matchOffset]
          split
          · simp only [Leads, getD_some]; omega
          · simp only [Leads, getD_some]; omega

/-- The offset taken at a position of the calculated list. -/
def offsetAt (out : List Rule) (pos : Nat) : Option Nat := out[pos - 1]?.bind (loopOffset ignored matched pos)

variable {out rs : List Rule}

theorem flatRun_offsetAt (hlen : out.length = rs.length) (fuel pc : Nat) :
    flatRun rs (fun pos _ => offsetAt ignored matched out pos) fuel pc =
      flatRun out (loopOffset ignored matched) fuel pc := by
  induction fuel generalizing pc with
  | zero => rfl
  | succ fuel ih =>
    simp only [flatRun]
    by_cases hpc : pc - 1 < rs.length
    · rw [getElem?_eq_getElem hpc, getElem?_eq_getElem (hlen ▸ hpc)]
      simp only [offsetAt, getElem?_eq_getElem (hlen ▸ hpc), bind_some]
      cases loopOffset ignored matched pc out[pc - 1] with
      | none => rfl
      | some d => simp only [← ih]; rfl
    · rw [getElem?_eq_none (by omega), getElem?_eq_none (by omega)]

theorem lands_offsetAt (hlen : out.length = rs.length) {pc vs} :
    Lands rs (fun pos _ => offsetAt ignored matched out pos) pc vs ↔
      Lands out (loopOffset ignored matched) pc vs := by
  simp only [Lands, flatRun_offsetAt ignored matched hlen]

theorem PlacedFrom.allLead {max b : Nat} {cs : List SkipChain} (pre : List Rule)
    (h : PlacedFrom max b (cs.map (·.toChain)) out) (hb : pre.length = b) :
    AllLead max (succeeds ignored matched) (fun pos _ => offsetAt ignored matched (pre ++ out) pos) skips b
      (cs.map (·.toChain)) := by
  induction cs generalizing b pre out with
  | nil => trivial
  | cons c cs ih =>
    refine ⟨fun i r hr => ?_, ?_⟩
    · simp only
      obtain ⟨field, hf⟩ := h.head hr
      have hi := (List.getElem?_eq_some_iff.mp hr).1
      simp only [Chain.length_cells] at hi
      have hat : offsetAt ignored matched (pre ++ out) (b + i + 1) = loopOffset ignored matched (b + i + 1)
          (r.placed max (b + c.cells.length) (b + i + 1)
            (if i = c.body.length then skipOf r (Chain.flatten (cs.map (·.toChain))) else none) field) := by
        rw [offsetAt, getElem?_append_right (by omega), show b + i + 1 - 1 - pre.length = i by omega, hf]
        rfl
      rw [hat]
      by_cases hlast : i = c.body.length
      · subst hlast
        obtain rfl : c.close = r := by simpa [Chain.cells] using hr
        have hskip : (skipOf c.close (Chain.flatten (cs.map (·.toChain)))).getD 0 = skips c.close := by
          cases hs : c.close.skip <;> simp [skipOf, skips, hs, c.no_skip_after]
        obtain ⟨hfail, -, hclose⟩ := Rule.placed_leads ignored matched max
          (skipOf c.close (Chain.flatten (cs.map (·.toChain)))) field c.close
          (show b + c.body.length + 1 ≤ b + c.cells.length by simp [Nat.add_assoc])
          (fun _ => by simp [Nat.add_assoc])
        rw [if_pos rfl]
        refine ⟨hfail, fun _ h => absurd h (Nat.lt_irrefl _), fun hok _ => ?_⟩
        rw [← hskip]
        exact hclose hok c.close_stops (by simp [Nat.add_assoc])
      · rw [if_neg hlast]
        have hmem : r ∈ c.body := by
          simp only [Chain.cells] at hr
          rw [getElem?_append_left (show i < c.body.length by omega)] at hr
          exact mem_of_getElem? hr
        obtain ⟨hfail, hnext, -⟩ := Rule.placed_leads ignored matched max none field r
          (show b + i + 1 ≤ b + c.cells.length by simp; omega) (by simp)
        exact ⟨hfail, fun hok _ => hnext hok (c.body_continues r hmem) rfl, fun _ hi => absurd hi hlast⟩
    · have hlen : c.cells.length ≤ out.length := by rw [h.length]; simp
      have := ih (pre ++ out.take c.cells.length) h.tail
        (by rw [length_append, length_take, Nat.min_eq_left hlen, hb])
      rwa [append_assoc, take_append_drop] at this

end

/-- For all rules ignored and all match outcomes, the loop over the offsets
`calculate` writes ends and lands on the rules the chain-structured evaluation
lands on; chains are entered at their heads and no rule is landed on twice. -/
def KeepsToChains (cs : List SkipChain) : Prop :=
  ∃ out, calculate (rulesOf cs) = .ok out ∧
    ∀ (ignored : Nat → Option Scalar → Bool) (matched : Nat → Bool),
      Lands out (loopOffset ignored matched) 1
        (chainRun (succeeds ignored matched) skips 0 (cs.map (·.toChain))) ∧
      Enters (heads 0 (cs.map (·.toChain))) 0
        (chainRun (succeeds ignored matched) skips 0 (cs.map (·.toChain)))

/-- Every skip count passes whole chains, or everything that is left. -/
def SkipsWhole (cs : List SkipChain) : Prop := SkipsAligned skips (cs.map (·.toChain))

theorem calculate_skipChains (cs : List SkipChain) :
    ∃ out, calculate (rulesOf cs) = .ok out ∧
      PlacedFrom (rulesOf cs).length 0 (cs.map (·.toChain)) out := by
  have hv : ∀ r ∈ rulesOf cs, r.vars.isSome := by
    intro r hr
    simp only [rulesOf, Chain.flatten, mem_flatMap, mem_map] at hr
    obtain ⟨_, ⟨c, -, rfl⟩, hr⟩ := hr
    exact c.vars r hr
  obtain ⟨out, hout⟩ := calculate_total hv fun c hc s hs => by
    obtain ⟨c, -, rfl⟩ := mem_map.mp hc
    exact c.skip_number s hs
  exact ⟨out, hout, calculate_placed hv hout⟩

theorem keepsToChains_of_skipsWhole {cs : List SkipChain} (h : SkipsWhole cs) : KeepsToChains cs := by
  obtain ⟨out, hout, hp⟩ := calculate_skipChains cs
  refine ⟨out, hout, fun ignored matched => ⟨?_, chainRun_enters (Nat.le_refl _) (List.Subset.refl _)⟩⟩
  rw [← lands_offsetAt ignored matched hp.length]
  exact lands_chainRun [] rfl (hp.allLead ignored matched [] rfl) h

theorem skipsWhole_of_keepsToChains {cs : List SkipChain} (h : KeepsToChains cs) : SkipsWhole cs := by
  obtain ⟨out, hout, hp⟩ := calculate_skipChains cs
  obtain ⟨out', hout', hlands⟩ := h
  obtain rfl : out = out' := by simpa [hout] using hout'
  have hok : ∀ matched : Nat → Bool,
      succeeds (fun _ _ => false) matched = fun pos _ => matched pos := fun matched => by
    funext pos r
    simp [succeeds]
  have hlead := fun matched => hp.allLead (fun _ _ => false) matched [] rfl
  simp only [hok, nil_append] at hlead
  refine skipsAligned_of_lands rfl hlead fun matched => ?_
  rw [← hok]
  exact (lands_offsetAt _ matched hp.length).mpr (hlands _ matched).1

/-- **The loop of `exec` is the chain-structured evaluation exactly when the
skips pass whole chains.** -/
theorem keepsToChains_iff (cs : List SkipChain) : KeepsToChains cs ↔ SkipsWhole cs :=
  ⟨skipsWhole_of_keepsToChains, keepsToChains_of_skipsWhole⟩

theorem skipCount_one : skipCount (.num 1) = some 1 := by decide +kernel

/-- A rule that skips one rule, and a chain of two after it. -/
def skipIntoChain : List SkipChain :=
  let rule : Rule := { vars := some {}, actions := { disrupt := some .DENY } }
  let single : Rule := { rule with id := some (.num 1), skip := some (.num 1), actions := { disrupt := some .IGNORE } }
  [{ body := [], close := single
     body_continues := by simp, close_stops := by decide
     vars := by simp [Chain.cells, single, rule], skip_number := by simp [single, skipCount_one], no_skip_after := rfl },
   { body := [{ rule with id := some (.num 2), actions := { disrupt := some .CHAIN } }]
     close := { rule with id := some (.num 3) }
     body_continues := by decide, close_stops := by decide
     vars := by simp [Chain.cells, rule], skip_number := by simp [rule], no_skip_after := rfl }]

/-- A match of its first rule lands on the second rule of the chain. -/
theorem not_keepsToChains_skipIntoChain : ¬ KeepsToChains skipIntoChain := by
  intro h
  have := (skipsWhole_of_keepsToChains h).1
  simp [skips, skipCount_one, Aligned, Chain.cells] at this

end OpenResty.Waf
