/-
Programs over a state that may stop early: what holds of the state a run ends
in, and of two runs side by side.

A program is `Built` from primitive ones. A property every primitive keeps is
kept by every program built from them, whether it stops or not.
-/
import Mathlib.Logic.Basic

namespace OpenResty.Lib

variable {ε σ α β : Type}

/-- The state a run ends in. -/
def finalState (m : EStateM ε σ α) (s : σ) : σ :=
  match m s with
  | .ok _ s => s
  | .error _ s => s

variable {m : EStateM ε σ α}

variable {s s' : σ}

theorem finalState_ok {a : α} (h : m s = .ok a s') : finalState m s = s' := by
  rw [finalState, h]

theorem finalState_error {e : ε} (h : m s = .error e s') : finalState m s = s' := by
  rw [finalState, h]

theorem bind_ok {a : α} (h : m s = .ok a s') (f : α → EStateM ε σ β) : (m >>= f) s = f a s' := by
  show EStateM.bind m f s = _
  simp only [EStateM.bind, h]

theorem bind_error {e : ε} (h : m s = .error e s') (f : α → EStateM ε σ β) : (m >>= f) s = .error e s' := by
  show EStateM.bind m f s = _
  simp only [EStateM.bind, h]

/-- A run of a sequence ends where its first part stops, or where its second part does. -/
theorem finalState_bind (m : EStateM ε σ α) (f : α → EStateM ε σ β) (s : σ) :
    (∃ a, m s = .ok a (finalState m s) ∧ finalState (m >>= f) s = finalState (f a) (finalState m s)) ∨
    (∃ e, m s = .error e (finalState m s) ∧ (m >>= f) s = .error e (finalState m s)) := by
  cases h : m s with
  | ok a s' =>
    rw [finalState_ok h]
    exact .inl ⟨a, rfl, by simp only [finalState, bind_ok h]⟩
  | error e s' =>
    rw [finalState_error h]
    exact .inr ⟨e, rfl, bind_error h f⟩

/-! ## Invariants -/

/-- Every run of `m` from a state with `I` ends in one with `I`. -/
def Keeps (I : σ → Prop) (m : EStateM ε σ α) : Prop := ∀ s, I s → I (finalState m s)

theorem Keeps.pure (I : σ → Prop) (a : α) : Keeps I (pure a : EStateM ε σ α) := fun _ h => h

theorem Keeps.throw (I : σ → Prop) (e : ε) : Keeps I (throw e : EStateM ε σ α) := fun _ h => h

variable {I off : σ → Prop}

theorem Keeps.bind {f : α → EStateM ε σ β} (hm : Keeps I m) (hf : ∀ a, Keeps I (f a)) : Keeps I (m >>= f) := by
  intro s h
  rcases finalState_bind m f s with ⟨a, -, hs⟩ | ⟨e, -, hs⟩
  · rw [hs]
    exact hf a _ (hm s h)
  · rw [finalState_error hs]
    exact hm s h

/-! ## Built programs -/

/-- The programs made of primitive ones by sequencing. -/
inductive Built (prim : ∀ α : Type, EStateM ε σ α → Prop) : ∀ α : Type, EStateM ε σ α → Prop
  | prim {α : Type} {m : EStateM ε σ α} (h : prim α m) : Built prim α m
  | pure {α : Type} (a : α) : Built prim α (pure a)
  | throw {α : Type} (e : ε) : Built prim α (throw e)
  | bind {α β : Type} {m : EStateM ε σ α} {f : α → EStateM ε σ β} (hm : Built prim α m)
      (hf : ∀ a, Built prim β (f a)) : Built prim β (m >>= f)

variable {prim : ∀ α : Type, EStateM ε σ α → Prop}

theorem Built.ite {c : Prop} [Decidable c] {n : EStateM ε σ α} (hm : Built prim α m) (hn : Built prim α n) :
    Built prim α (if c then m else n) := by
  split
  · exact hm
  · exact hn

theorem Built.keeps (h : Built prim α m)
    (hprim : ∀ {α : Type} {m : EStateM ε σ α}, prim α m → Keeps I m) : Keeps I m := by
  induction h with
  | prim h => exact hprim h
  | pure a => exact .pure I a
  | throw e => exact .throw I e
  | bind _ _ ihm ihf => exact .bind ihm ihf

/-- The same programs from other primitives. -/
theorem Built.mono {prim' : ∀ α : Type, EStateM ε σ α → Prop} (h : Built prim α m)
    (hprim : ∀ {α : Type} {m : EStateM ε σ α}, prim α m → Built prim' α m) : Built prim' α m := by
  induction h with
  | prim h => exact hprim h
  | pure a => exact .pure a
  | throw e => exact .throw e
  | bind _ _ ihm ihf => exact .bind ihm ihf

/-! ## Two runs -/

/-- Two results of one kind, with the same answer and states in `R`. -/
def SameResult (R : σ → σ → Prop) : EStateM.Result ε σ α → EStateM.Result ε σ α → Prop
  | .ok a s, .ok b t => a = b ∧ R s t
  | .error e s, .error e' t => e = e' ∧ R s t
  | _, _ => False

/-- Two runs of `m` from states in `R` stay in step, unless the first goes `off`. -/
def Lockstep (off : σ → Prop) (R : σ → σ → Prop) (m : EStateM ε σ α) : Prop :=
  ∀ s t, R s t → off (finalState m s) ∨ SameResult R (m s) (m t)

theorem Lockstep.bind {R : σ → σ → Prop} {f : α → EStateM ε σ β}
    (hm : Lockstep off R m) (hf : ∀ a, Lockstep off R (f a)) (hoff : ∀ a, Keeps off (f a)) :
    Lockstep off R (m >>= f) := by
  intro s t h
  rcases hm s t h with ho | hsame
  · left
    rcases finalState_bind m f s with ⟨a, -, hs⟩ | ⟨e, -, hs⟩
    · rw [hs]
      exact hoff a _ ho
    · rwa [finalState_error hs]
  · cases hms : m s with
    | ok a s' =>
      cases hmt : m t with
      | ok b t' =>
        simp only [hms, hmt, SameResult] at hsame
        obtain ⟨rfl, hst⟩ := hsame
        rw [finalState, bind_ok hms, bind_ok hmt]
        exact hf a s' t' hst
      | error e t' => simp only [hms, hmt, SameResult] at hsame
    | error e s' =>
      cases hmt : m t with
      | ok b t' => simp only [hms, hmt, SameResult] at hsame
      | error e' t' =>
        simp only [hms, hmt, SameResult] at hsame
        exact .inr (by rw [bind_error hms, bind_error hmt]; exact hsame)

theorem Built.lockstep {R : σ → σ → Prop} (h : Built prim α m)
    (hoff : ∀ {α : Type} {m : EStateM ε σ α}, prim α m → Keeps off m)
    (hprim : ∀ {α : Type} {m : EStateM ε σ α}, prim α m → Lockstep off R m) : Lockstep off R m := by
  induction h with
  | prim h => exact hprim h
  | pure a => exact fun s t h => .inr ⟨rfl, h⟩
  | throw e => exact fun s t h => .inr ⟨rfl, h⟩
  | bind _ hf ihm ihf => exact .bind ihm ihf fun a => (hf a).keeps hoff

/-! ## Traces -/

/-- Every entry of a trace, the last one first, is as `P` says after the ones before it. -/
def Each {ι : Type} (P : List ι → ι → Prop) : List ι → Prop
  | [] => True
  | e :: past => P past e ∧ Each P past

end OpenResty.Lib
