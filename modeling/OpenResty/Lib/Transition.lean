/-
Systems that take steps on events: what holds in every state a run reaches,
and what holds of every step it takes.
-/
import Mathlib.Logic.Basic

namespace OpenResty.Lib.Transition

variable {σ ε : Type}

/-- Where a run gets, when each of its events can happen. -/
def run (step : σ → ε → Option σ) : σ → List ε → Option σ
  | s, [] => some s
  | s, e :: es =>
    match step s e with
    | some s => run step s es
    | none => none

/-- `P` holds in every state that the run reaches. -/
def Always (step : σ → ε → Option σ) (P : σ → Prop) : σ → List ε → Prop
  | s, [] => P s
  | s, e :: es => P s ∧ ∀ s', step s e = some s' → Always step P s' es

/-- Every step that the run takes is `ok`, in the state before it. -/
def Along (step : σ → ε → Option σ) (ok : σ → ε → Prop) : σ → List ε → Prop
  | _, [] => True
  | s, e :: es => ∀ s', step s e = some s' → ok s e ∧ Along step ok s' es

/-- Every step that the run comes to is `ok`, also one that cannot be taken. -/
def Guarded (step : σ → ε → Option σ) (ok : σ → ε → Prop) : σ → List ε → Prop
  | _, [] => True
  | s, e :: es => ok s e ∧ ∀ s', step s e = some s' → Guarded step ok s' es

/-- Every step of the run can be taken, and is `good`. -/
def Goes (step : σ → ε → Option σ) (good : σ → ε → σ → Prop) : σ → List ε → Prop
  | _, [] => True
  | s, e :: es => ∃ s', step s e = some s' ∧ good s e s' ∧ Goes step good s' es

variable {step : σ → ε → Option σ} {ok : σ → ε → Prop} {I P : σ → Prop} {s s' : σ} {es : List ε}

instance decidableGuarded [∀ s e, Decidable (ok s e)] : ∀ s es, Decidable (Guarded step ok s es)
  | _, [] => .isTrue trivial
  | s, e :: es =>
    match hstep : step s e with
    | none => decidable_of_iff (ok s e) (by simp [Guarded, hstep])
    | some s' =>
      have := decidableGuarded s' es
      decidable_of_iff (ok s e ∧ Guarded step ok s' es) (by simp [Guarded, hstep])

theorem Always.here (h : Always step P s es) : P s := by
  cases es with
  | nil => exact h
  | cons e es => exact h.1

theorem Always.reached (h : Always step P s es) (hrun : run step s es = some s') : P s' := by
  induction es generalizing s with
  | nil =>
    cases hrun
    exact h
  | cons e es ih =>
    rw [run] at hrun
    split at hrun
    · next hstep => exact ih (h.2 _ hstep) hrun
    · cases hrun

theorem Always.mono {Q : σ → Prop} (h : Always step P s es) (hPQ : ∀ s, P s → Q s) : Always step Q s es := by
  induction es generalizing s with
  | nil => exact hPQ s h
  | cons e es ih => exact ⟨hPQ s h.1, fun s' hstep => ih (h.2 s' hstep)⟩

variable {es' : List ε}

/-- A run goes on from where its first part gets. -/
theorem run_append (h : run step s es = some s') : run step s (es ++ es') = run step s' es' := by
  induction es generalizing s with
  | nil =>
    cases h
    rfl
  | cons e es ih =>
    rw [run] at h
    split at h
    · next hstep =>
      rw [List.cons_append, run, hstep]
      exact ih h
    · cases h

/-- What holds at the start and is kept by every `ok` step holds always. -/
theorem always_of_along (hstep : ∀ s e s', I s → step s e = some s' → ok s e → I s') (hs : I s)
    (h : Along step ok s es) : Always step I s es := by
  induction es generalizing s with
  | nil => exact hs
  | cons e es ih =>
    refine ⟨hs, fun s' hs' => ?_⟩
    obtain ⟨hok, halong⟩ := h s' hs'
    exact ih (hstep s e s' hs hs' hok) halong

/-- What holds at the start and is kept by every step holds always. -/
theorem always_of_step (hstep : ∀ s e s', I s → step s e = some s' → I s') (hs : I s) : Always step I s es := by
  induction es generalizing s with
  | nil => exact hs
  | cons e es ih => exact ⟨hs, fun s' hs' => ih (hstep s e s' hs hs')⟩

/-- What holds at the start and is kept by every step makes every step `ok`. -/
theorem along_of_step (hok : ∀ s e, I s → ok s e) (hstep : ∀ s e s', I s → step s e = some s' → I s') (hs : I s) :
    Along step ok s es := by
  induction es generalizing s with
  | nil => trivial
  | cons e es ih => exact fun s' hs' => ⟨hok s e hs, ih (hstep s e s' hs hs')⟩

/-- A property that every `ok` step keeps, with an invariant, and that every
other step breaks. -/
theorem always_iff_along (hP : ∀ s, I s → P s) (hstep : ∀ s e s', I s → step s e = some s' → ok s e → I s')
    (hbreak : ∀ s e s', I s → step s e = some s' → P s' → ok s e) (hs : I s) :
    Always step P s es ↔ Along step ok s es := by
  constructor
  · intro h
    induction es generalizing s with
    | nil => trivial
    | cons e es ih =>
      intro s' hs'
      have hok := hbreak s e s' hs hs' (h.2 s' hs').here
      exact ⟨hok, ih (hstep s e s' hs hs' hok) (h.2 s' hs')⟩
  · intro h
    exact (always_of_along hstep hs h).mono hP

/-- A property of the steps that the `ok` steps have, and no others. -/
theorem along_iff_along {good : σ → ε → Prop} (hstep : ∀ s e s', I s → step s e = some s' → (ok s e ↔ good s e))
    (hkeep : ∀ s e s', I s → step s e = some s' → ok s e → I s') (hs : I s) :
    Along step ok s es ↔ Along step good s es := by
  induction es generalizing s with
  | nil => exact Iff.rfl
  | cons e es ih =>
    refine forall₂_congr fun s' hs' => ?_
    rw [hstep s e s' hs hs']
    exact and_congr_right fun hgood => ih (hkeep s e s' hs hs' ((hstep s e s' hs hs').mpr hgood))

theorem Along.and {ok' : σ → ε → Prop} (h : Along step ok s es) (h' : Along step ok' s es) :
    Along step (fun s e => ok s e ∧ ok' s e) s es := by
  induction es generalizing s with
  | nil => trivial
  | cons e es ih =>
    intro s' hs'
    obtain ⟨hok, hrest⟩ := h s' hs'
    obtain ⟨hok', hrest'⟩ := h' s' hs'
    exact ⟨⟨hok, hok'⟩, ih hrest hrest'⟩

theorem Along.cons {e : ε} (hstep : step s e = some s') (hok : ok s e) (h : Along step ok s' es) :
    Along step ok s (e :: es) := by
  intro t ht
  rw [hstep] at ht
  cases ht
  exact ⟨hok, h⟩

theorem run_cons {e : ε} (hstep : step s e = some s') : run step s (e :: es) = run step s' es := by
  rw [run, hstep]

theorem Guarded.along (h : Guarded step ok s es) : Along step ok s es := by
  induction es generalizing s with
  | nil => trivial
  | cons e es ih => exact fun s' hs' => ⟨h.1, ih (h.2 s' hs')⟩

/-- The rest of a run from a state that it reaches. -/
theorem Along.rest (h : Along step ok s (es ++ es')) (hrun : run step s es = some s') : Along step ok s' es' := by
  induction es generalizing s with
  | nil =>
    cases hrun
    exact h
  | cons e es ih =>
    rw [run] at hrun
    split at hrun
    · next hstep => exact ih (h _ hstep).2 hrun
    · cases hrun

theorem Always.rest (h : Always step P s (es ++ es')) (hrun : run step s es = some s') : Always step P s' es' := by
  induction es generalizing s with
  | nil =>
    cases hrun
    exact h
  | cons e es ih =>
    rw [run] at hrun
    split at hrun
    · next hstep => exact ih (h.2 _ hstep) hrun
    · cases hrun

variable {good : σ → ε → σ → Prop}

/-- Where every `ok` step can be taken, is `good` and keeps an invariant, a
guarded run goes well to its end. -/
theorem goes_of_guarded
    (hstep : ∀ s e, I s → ok s e → ∃ s', step s e = some s' ∧ good s e s' ∧ I s') (hs : I s)
    (h : Guarded step ok s es) : Goes step good s es := by
  induction es generalizing s with
  | nil => trivial
  | cons e es ih =>
    obtain ⟨hok, hrest⟩ := h
    obtain ⟨s', hs', hgood, hinv⟩ := hstep s e hs hok
    exact ⟨s', hs', hgood, ih hinv (hrest s' hs')⟩

theorem Goes.last {e : ε} (h : Goes step good s (es ++ [e])) :
    ∃ s₁ s₂, run step s (es ++ [e]) = some s₂ ∧ good s₁ e s₂ := by
  induction es generalizing s with
  | nil =>
    obtain ⟨s₂, hs₂, hgood, -⟩ := h
    exact ⟨s, s₂, by rw [List.nil_append, run, hs₂]; rfl, hgood⟩
  | cons e' es ih =>
    obtain ⟨s', hs', -, hrest⟩ := h
    obtain ⟨s₁, s₂, hrun, hgood⟩ := ih hrest
    exact ⟨s₁, s₂, by rw [List.cons_append, run, hs']; exact hrun, hgood⟩

end OpenResty.Lib.Transition
