/-
`resty.upstream.healthcheck`: the checks of the peers of one upstream, which
turn a peer down or up after as many outcomes of one kind in a row, and the
version by which the workers tell each other.

A check and its cycle are cut into the accesses to the dictionary, between
which other workers can come. The keys of the dictionary are fields here:
"nok:", "ok:" and "d:" with the upstream and the peer, and "v:" with the
upstream.
-/
import Mathlib.Logic.Function.Basic
import OpenResty.Lib.Transition

namespace OpenResty.Resty.Healthcheck

open Option Function

/-- The outcome of a check -/
inductive Side
  | fail
  | ok
  deriving DecidableEq

def Side.other : Side → Side
  | .fail => .ok
  | .ok => .fail

variable {P : Type} [DecidableEq P]

/-- The keys of the upstream; `P` are its peers. -/
structure Dict (P : Type) where
  /-- "nok:" and "ok:" -/
  streak : Side → P → Option Nat
  /-- "d:", which is true or not there -/
  d : P → Bool
  v : Option Nat

def Dict.setStreak (dict : Dict P) (side : Side) (p : P) (n : Option Nat) : Dict P :=
  { dict with streak := update dict.streak side (update (dict.streak side) p n) }

def Dict.setDown (dict : Dict P) (p : P) (value : Bool) : Dict P := { dict with d := update dict.d p value }

/-- `ctx.fall`, `ctx.rise`, and the primary and backup peers -/
structure Config (P : Type) where
  fall : Nat
  rise : Nat
  peers : List P

/-- What changes in `ctx`: `peer.down` of each peer, and the version. -/
structure Ctx (P : Type) where
  down : P → Bool
  version : Nat
  new_version : Bool

/-! ## A check -/

/-- The count is set to 1, or one is added to what is stored; with `fails` or
`succ`, which is one more than what was read. -/
def bump (dict : Dict P) (side : Side) (p : P) : Option Nat → Nat × Dict P
  | none => (1, dict.setStreak side p (some 1))
  | some n => (n + 1, dict.setStreak side p ((dict.streak side p).map (· + 1)))

/-- The other count is set to 0, unless it was read as that, or was not there. -/
def reset (dict : Dict P) (side : Side) (p : P) : Option Nat → Dict P
  | none | some 0 => dict
  | some _ => dict.setStreak side.other p (some 0)

def set_peer_down_globally (ctx : Ctx P) (dict : Dict P) (p : P) (value : Bool) : Ctx P × Dict P :=
  ({ ctx with down := update ctx.down p value, new_version := true }, dict.setDown p value)

/-- The peer is turned down, or up. -/
def turn (cfg : Config P) (ctx : Ctx P) (dict : Dict P) (side : Side) (p : P) (n : Nat) : Ctx P × Dict P :=
  match side with
  | .fail => if ctx.down p = false ∧ cfg.fall ≤ n then set_peer_down_globally ctx dict p true else (ctx, dict)
  | .ok => if ctx.down p = true ∧ cfg.rise ≤ n then set_peer_down_globally ctx dict p false else (ctx, dict)

def checked (side : Side) (cfg : Config P) (ctx : Ctx P) (dict : Dict P) (p : P) : Ctx P × Dict P :=
  let (n, dict) := bump dict side p (dict.streak side p)
  let dict := if n = 1 then reset dict side p (dict.streak side.other p) else dict
  turn cfg ctx dict side p n

def peer_fail (cfg : Config P) : Ctx P → Dict P → P → Ctx P × Dict P := checked .fail cfg

def peer_ok (cfg : Config P) : Ctx P → Dict P → P → Ctx P × Dict P := checked .ok cfg

/-! ## The checks of one peer -/

/-- What the outcomes, the last one first, make of a worker and a dictionary. -/
def after (cfg : Config P) (ctx : Ctx P) (dict : Dict P) (p : P) : List Side → Ctx P × Dict P
  | [] => (ctx, dict)
  | .fail :: outcomes =>
    let (ctx, dict) := after cfg ctx dict p outcomes
    peer_fail cfg ctx dict p
  | .ok :: outcomes =>
    let (ctx, dict) := after cfg ctx dict p outcomes
    peer_ok cfg ctx dict p

/-- How many of the last outcomes are of one kind. -/
def runOf (side : Side) (outcomes : List Side) : Nat := (outcomes.takeWhile (· = side)).length

variable {cfg : Config P} {ctx : Ctx P} {dict : Dict P} {side side' : Side} {p : P} {outcomes : List Side} {n : Nat}

@[simp] theorem runOf_self : runOf side (side :: outcomes) = runOf side outcomes + 1 := by simp [runOf]

@[simp] theorem runOf_of_ne (h : side' ≠ side) : runOf side' (side :: outcomes) = 0 := by
  simp [runOf, Ne.symm h]

/-- Only the kind of the last outcome has a run. -/
theorem runOf_eq_zero (h : runOf side outcomes ≠ 0) (hne : side' ≠ side) : runOf side' outcomes = 0 := by
  cases outcomes with
  | nil => rfl
  | cons o outcomes =>
    by_cases ho : o = side
    · subst ho
      exact runOf_of_ne hne
    · exact absurd (runOf_of_ne (Ne.symm ho)) h

theorem other_ne : side.other ≠ side := by cases side <;> exact Side.noConfusion

theorem ne_iff_other : side' ≠ side ↔ side' = side.other := by cases side <;> cases side' <;> decide

@[simp] theorem setStreak_self {m : Option Nat} :
    (dict.setStreak side p m).streak side p = m := by simp [Dict.setStreak]

@[simp] theorem setStreak_ne {m : Option Nat} (h : side' ≠ side) :
    (dict.setStreak side p m).streak side' = dict.streak side' := by
  simp [Dict.setStreak, h]

@[simp] theorem turn_streak : (turn cfg ctx dict side p n).2.streak = dict.streak := by
  unfold turn
  cases side <;> dsimp only <;> split <;> rfl

/-- Each count in the dictionary is the length of the run of its kind. -/
def Counted (dict : Dict P) (p : P) (outcomes : List Side) : Prop :=
  ∀ side, (dict.streak side p).getD 0 = runOf side outcomes

theorem bump_eq : bump dict side p (dict.streak side p) =
    ((dict.streak side p).getD 0 + 1, dict.setStreak side p (some ((dict.streak side p).getD 0 + 1))) := by
  unfold bump
  cases dict.streak side p <;> rfl

theorem reset_self : (reset dict side p (dict.streak side.other p)).streak side = dict.streak side := by
  unfold reset
  split
  · rfl
  · rfl
  · exact setStreak_ne other_ne.symm

theorem reset_other : ((reset dict side p (dict.streak side.other p)).streak side.other p).getD 0 = 0 := by
  unfold reset
  split
  · next hnone => rw [hnone, getD_none]
  · next hzero => rw [hzero, getD_some]
  · rw [setStreak_self, getD_some]

/-- A check continues the run of its kind, and ends the other. -/
theorem checked_counted (h : Counted dict p outcomes) :
    Counted (checked side cfg ctx dict p).2 p (side :: outcomes) := by
  intro side'
  unfold checked
  rw [bump_eq, h side]
  dsimp only
  rw [turn_streak]
  by_cases hside : side' = side
  · subst hside
    rw [runOf_self]
    split
    · rw [reset_self, setStreak_self, getD_some]
    · rw [setStreak_self, getD_some]
  · rw [runOf_of_ne hside, ne_iff_other.mp hside]
    split
    · exact reset_other
    · next hrun =>
      -- the other count was set to 0 when this run began
      rw [setStreak_ne other_ne, h side.other]
      exact runOf_eq_zero (by omega) other_ne

/-- What a check does to the peer's flag, by the run that it continues. -/
theorem checked_down (cfg : Config P) (ctx : Ctx P) (side : Side) (h : Counted dict p outcomes) :
    (checked side cfg ctx dict p).1.down p =
    match side with
    | .fail => if cfg.fall ≤ runOf .fail (.fail :: outcomes) then true else ctx.down p
    | .ok => if cfg.rise ≤ runOf .ok (.ok :: outcomes) then false else ctx.down p := by
  unfold checked
  rw [bump_eq, h side]
  unfold turn set_peer_down_globally
  cases side with
  | fail =>
    simp only [runOf_self]
    cases hdown : ctx.down p <;> by_cases hfall : cfg.fall ≤ runOf .fail outcomes + 1 <;> simp [hdown, hfall]
  | ok =>
    simp only [runOf_self]
    cases hdown : ctx.down p <;> by_cases hrise : cfg.rise ≤ runOf .ok outcomes + 1 <;> simp [hdown, hrise]

/-- The counts are right, and the run that would turn the peer is still short. -/
structure Streaks (cfg : Config P) (ctx : Ctx P) (dict : Dict P) (p : P) (outcomes : List Side) : Prop where
  counted : Counted dict p outcomes
  up : ctx.down p = false → runOf .fail outcomes < cfg.fall
  down : ctx.down p = true → runOf .ok outcomes < cfg.rise

theorem Streaks.checked (h : Streaks cfg ctx dict p outcomes) (hfall : 1 ≤ cfg.fall) (hrise : 1 ≤ cfg.rise)
    (side : Side) :
    Streaks cfg (checked side cfg ctx dict p).1 (checked side cfg ctx dict p).2 p (side :: outcomes) := by
  have hdown := checked_down cfg ctx side h.counted
  cases side with
  | fail =>
    dsimp only at hdown
    refine ⟨checked_counted h.counted, fun hup => ?_, fun _ => ?_⟩
    · rw [hdown] at hup
      split at hup
      · cases hup
      · next hshort => exact Nat.lt_of_not_le hshort
    · rw [runOf_of_ne Side.noConfusion]
      exact hrise
  | ok =>
    dsimp only at hdown
    refine ⟨checked_counted h.counted, fun _ => ?_, fun hup => ?_⟩
    · rw [runOf_of_ne Side.noConfusion]
      exact hfall
    · rw [hdown] at hup
      split at hup
      · cases hup
      · next hshort => exact Nat.lt_of_not_le hshort

/-- A worker and a dictionary that has no count of the peer yet. -/
def Fresh (dict : Dict P) (p : P) : Prop := ∀ side, dict.streak side p = none

theorem after_cons : after cfg ctx dict p (side :: outcomes) =
    checked side cfg (after cfg ctx dict p outcomes).1 (after cfg ctx dict p outcomes).2 p := by
  cases side <;> rfl

theorem streaks_after (hfall : 1 ≤ cfg.fall) (hrise : 1 ≤ cfg.rise) (hfresh : Fresh dict p) (outcomes : List Side) :
    Streaks cfg (after cfg ctx dict p outcomes).1 (after cfg ctx dict p outcomes).2 p outcomes := by
  induction outcomes with
  | nil => exact ⟨fun side => by rw [after, hfresh side]; rfl, fun _ => hfall, fun _ => hrise⟩
  | cons side outcomes ih =>
    rw [after_cons]
    exact ih.checked hfall hrise side

/-- **After any outcomes, the counts are the lengths of the current runs, and the
next outcome turns the peer exactly when it is the last of a run long enough.** -/
theorem turns_at_streak (hfall : 1 ≤ cfg.fall) (hrise : 1 ≤ cfg.rise) (hfresh : Fresh dict p)
    (outcomes : List Side) (side : Side) :
    let before := after cfg ctx dict p outcomes
    let now := after cfg ctx dict p (side :: outcomes)
    (before.1.down p = false → (now.1.down p = true ↔ side = .fail ∧ runOf .fail (side :: outcomes) = cfg.fall)) ∧
      (before.1.down p = true → (now.1.down p = false ↔ side = .ok ∧ runOf .ok (side :: outcomes) = cfg.rise)) ∧
      (∀ s, (now.2.streak s p).getD 0 = runOf s (side :: outcomes)) ∧ (now.2.streak side.other p).getD 0 = 0 := by
  intro before now
  have hbefore : Streaks cfg before.1 before.2 p outcomes := streaks_after hfall hrise hfresh outcomes
  have hnow : Streaks cfg now.1 now.2 p (side :: outcomes) := streaks_after hfall hrise hfresh (side :: outcomes)
  have hdown : now.1.down p = _ := (congrArg (·.1.down p) after_cons).trans (checked_down _ _ _ hbefore.counted)
  refine ⟨fun hup => ?_, fun hup => ?_, hnow.counted, ?_⟩
  · have hshort := hbefore.up hup
    rw [hdown]
    cases side with
    | fail =>
      dsimp only
      rw [runOf_self, hup]
      split
      · next hlong => exact ⟨fun _ => ⟨rfl, by omega⟩, fun _ => rfl⟩
      · next hlong => exact ⟨fun h => (by cases h), fun h => absurd h.2 (by omega)⟩
    | ok =>
      dsimp only
      rw [hup]
      split <;> exact ⟨fun h => (by cases h), fun h => (by cases h.1)⟩
  · have hshort := hbefore.down hup
    rw [hdown]
    cases side with
    | ok =>
      dsimp only
      rw [runOf_self, hup]
      split
      · next hlong => exact ⟨fun _ => ⟨rfl, by omega⟩, fun _ => rfl⟩
      · next hlong => exact ⟨fun h => (by cases h), fun h => absurd h.2 (by omega)⟩
    | fail =>
      dsimp only
      rw [hup]
      split <;> exact ⟨fun h => (by cases h), fun h => (by cases h.1)⟩
  · rw [hnow.counted, runOf_of_ne other_ne]

/-- The second failure of two turns the peer down. -/
theorem turns_at_streak_two :
    (after { fall := 2, rise := 2, peers := [0] } { down := fun _ => false, version := 0, new_version := false }
      { streak := fun _ _ => none, d := fun _ => false, v := none } 0 [.fail, .fail]).1.down 0 = true :=
  ((turns_at_streak (by decide) (by decide) (fun _ => rfl) [.fail] .fail).1 (by decide)).mpr ⟨rfl, by decide⟩

end OpenResty.Resty.Healthcheck
