/-
How long `lock` of `resty.lock` sleeps, with the other holders doing anything
to the dictionary between its attempts.

The constructor clips the first step to the timeout only where both options
are given, and never to `max_step`; the steps after it are clipped to both.
-/
import Mathlib.Algebra.BigOperators.Group.Finset.Basic
import Mathlib.Algebra.Order.Archimedean.Basic
import OpenResty.Resty.Lock

namespace OpenResty.Resty.Lock

open Option Function

variable {K : Type} [DecidableEq K]

/-- What an attempt to lock finds. -/
structure Found (K : Type) where
  now : Nat
  dict : Dict K
  memory : Bool

variable {self : Obj K} {key : K} {found : Nat → Found K} {opts : Opts} {w w' : Wait K} {now n : Nat} {dict : Dict K}
  {memory : Bool}

/-! ## One attempt -/

theorem wake_waiting (h : (wake self now dict memory w).2.1.waiting = some w') :
    0 < w.timeout - w.step ∧ w'.timeout = w.timeout - w.step ∧
      w'.step = min (min (max (1 / 1000) (w.step * self.ratio)) (w.timeout - w.step)) self.max_step := by
  unfold wake at h
  dsimp only at h
  split at h
  · cases h
  · split at h
    · cases h
    · next htimeout =>
      cases h
      exact ⟨lt_of_not_ge htimeout, rfl, rfl⟩
  · cases h

/-! ## The loop -/

/-- A sleep within what is left of the timeout and `max_step` -/
structure Wait.Inside (w : Wait K) (obj : Obj K) : Prop where
  pos : 0 < w.step
  left : w.step ≤ w.timeout
  most : w.step ≤ obj.max_step

/-- The step lemma: the next sleep is inside as well, and is not short, or all that is left. -/
theorem Wait.Inside.wake (h : w.Inside self) (hw : (wake self now dict memory w).2.1.waiting = some w') :
    w'.Inside self ∧ (min (1 / 1000) self.max_step ≤ w'.step ∨ w'.step = w'.timeout) := by
  obtain ⟨hleft, htimeout, hstep⟩ := wake_waiting hw
  have hmax : 0 < self.max_step := h.pos.trans_le h.most
  have hlong : (0 : Rat) < max (1 / 1000) (w.step * self.ratio) := lt_max_of_lt_left (by norm_num)
  refine ⟨⟨?_, ?_, ?_⟩, ?_⟩
  · rw [hstep]
    exact lt_min (lt_min hlong hleft) hmax
  · rw [hstep, htimeout]
    exact (min_le_left _ _).trans (min_le_right _ _)
  · rw [hstep]
    exact min_le_right _ _
  · rw [hstep, htimeout]
    rcases le_total (max (1 / 1000) (w.step * self.ratio)) (w.timeout - w.step) with hle | hle
    · rw [min_eq_left hle]
      exact .inl (min_le_min_right _ (le_max_left _ _))
    · rw [min_eq_right hle]
      rcases le_total (w.timeout - w.step) self.max_step with hle' | hle'
      · exact .inr (min_eq_left hle')
      · rw [min_eq_right hle']
        exact .inl (min_le_right _ _)

end OpenResty.Resty.Lock
