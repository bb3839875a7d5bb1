/-
Two machines that run on the same events and put out the same, and computations
that fail together or give related results.
-/
import Mathlib.Logic.Basic

namespace OpenResty.Lib.Lockstep

variable {φ : Type}

/-- Both fail alike, or both give results that are related. -/
inductive Both {α β : Type} (R : α → β → Prop) : Except φ α → Except φ β → Prop
  | ok {a : α} {b : β} (h : R a b) : Both R (.ok a) (.ok b)
  | error (e : φ) : Both R (.error e) (.error e)

section

variable {α β α' β' : Type} {R : α → β → Prop} {R' : α' → β' → Prop} {x : Except φ α} {y : Except φ β}

theorem Both.bind {f : α → Except φ α'} {g : β → Except φ β'} (h : Both R x y)
    (hfg : ∀ a b, R a b → Both R' (f a) (g b)) : Both R' (x >>= f) (y >>= g) := by
  cases h with
  | ok hab => exact hfg _ _ hab
  | error e => exact .error e

theorem Both.refl (x : Except φ α) : Both (· = ·) x x := by
  cases x with
  | ok a => exact .ok rfl
  | error e => exact .error e

end

variable {σ τ ε ο : Type}

/-- What a machine puts out on the events, until it fails. -/
def outputs (step : σ → ε → Except φ (σ × ο)) : σ → List ε → List (Except φ ο)
  | _, [] => []
  | s, e :: es =>
    match step s e with
    | .error f => [.error f]
    | .ok (s, o) => .ok o :: outputs step s es

/-- Every step that the run comes to is `ok` in the state before it. -/
def Guarded (step : σ → ε → Except φ (σ × ο)) (ok : σ → ε → Prop) : σ → List ε → Prop
  | _, [] => True
  | s, e :: es => ok s e ∧ ∀ s' o, step s e = .ok (s', o) → Guarded step ok s' es

/-- The same is put out, in related states. -/
def Same (R : σ → τ → Prop) (p : σ × ο) (q : τ × ο) : Prop := R p.1 q.1 ∧ p.2 = q.2

variable {step : σ → ε → Except φ (σ × ο)} {step' : τ → ε → Except φ (τ × ο)} {ok : σ → ε → Prop} {R : σ → τ → Prop}

theorem guarded_of_forall {s : σ} {es : List ε} (h : ∀ s e, ok s e) : Guarded step ok s es := by
  induction es generalizing s with
  | nil => trivial
  | cons e es ih => exact ⟨h s e, fun _ _ _ => ih⟩

/-- Machines put out the same when each `ok` step keeps them related and puts out the same. -/
theorem outputs_eq {s : σ} {t : τ} {es : List ε}
    (hstep : ∀ s t e, R s t → ok s e → Both (Same R) (step s e) (step' t e)) (hR : R s t)
    (hok : Guarded step ok s es) : outputs step s es = outputs step' t es := by
  induction es generalizing s t with
  | nil => rfl
  | cons e es ih =>
    have hboth := hstep s t e hR hok.1
    rw [outputs, outputs]
    cases hs : step s e with
    | error f =>
      rw [hs] at hboth
      cases ht : step' t e with
      | error f' =>
        rw [ht] at hboth
        cases hboth
        rfl
      | ok q =>
        rw [ht] at hboth
        cases hboth
    | ok p =>
      rw [hs] at hboth
      cases ht : step' t e with
      | error f' =>
        rw [ht] at hboth
        cases hboth
      | ok q =>
        rw [ht] at hboth
        cases hboth with
        | ok h => exact congrArg₂ List.cons (congrArg Except.ok h.2) (ih h.1 (hok.2 _ _ hs))

/-- What related states and `ok` steps imply holds of every step of the run. -/
theorem Guarded.good {s : σ} {t : τ} {es : List ε} {good : σ → ε → Prop}
    (hstep : ∀ s t e, R s t → ok s e → Both (Same R) (step s e) (step' t e))
    (hgood : ∀ s t e, R s t → ok s e → good s e) (hR : R s t) (hok : Guarded step ok s es) : Guarded step good s es := by
  induction es generalizing s t with
  | nil => trivial
  | cons e es ih =>
    refine ⟨hgood s t e hR hok.1, fun s' o hs => ?_⟩
    have hboth := hstep s t e hR hok.1
    rw [hs] at hboth
    cases ht : step' t e with
    | error f =>
      rw [ht] at hboth
      cases hboth
    | ok q =>
      rw [ht] at hboth
      cases hboth with
      | ok h => exact ih h.1 (hok.2 s' o hs)

end OpenResty.Lib.Lockstep
