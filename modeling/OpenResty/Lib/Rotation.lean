/-
Weighted rotation: in each turn every member gains its weight, and the member
that then has the most pays the sum of all weights.
-/
import Mathlib.Algebra.BigOperators.Group.Finset.Piecewise
import Mathlib.Algebra.Order.BigOperators.Group.Finset
import Mathlib.Tactic.Linarith
import Mathlib.Tactic.Ring

namespace OpenResty.Lib.Rotation

variable {ι : Type} [Fintype ι] [DecidableEq ι]

def turn (w c : ι → Int) (b : ι) (i : ι) : Int := c i + w i - if i = b then ∑ j, w j else 0

/-- `bs` are the members that pay, one after the other. -/
inductive Turns (w : ι → Int) : (ι → Int) → List ι → (ι → Int) → Prop
  | nil c : Turns w c [] c
  | cons {c b bs c'} : (∀ i, c i + w i ≤ c b + w b) → Turns w (turn w c b) bs c' → Turns w c (b :: bs) c'

variable {w c c' : ι → Int} {bs : List ι}

theorem sum_turn (b : ι) : ∑ i, turn w c b i = ∑ i, c i := by
  simp [turn, Finset.sum_sub_distrib, Finset.sum_add_distrib]

theorem Turns.balance (h : Turns w c bs c') (i : ι) : c' i = c i + bs.length * w i - bs.count i * ∑ j, w j := by
  induction h with
  | nil c => simp
  | @cons c b bs c' _ _ ih =>
    rw [ih, turn, List.length_cons, List.count_cons]
    by_cases hi : i = b
    · subst hi
      simp only [if_true, beq_self_eq_true]
      push_cast
      ring
    · rw [if_neg hi, if_neg (by simpa using Ne.symm hi)]
      push_cast
      ring

/-- Nobody owes a whole round, since who pays has something when the members
together have nothing before their gains. -/
theorem Turns.above (h : Turns w c bs c') (hw : ∀ i, 0 ≤ w i) (hpos : 0 < ∑ j, w j) (hsum : ∑ i, c i = 0)
    (hc : ∀ i, -∑ j, w j < c i) : ∑ i, c' i = 0 ∧ ∀ i, -∑ j, w j < c' i := by
  induction h with
  | nil c => exact ⟨hsum, hc⟩
  | @cons c b bs c' hb _ ih =>
    refine ih ((sum_turn b).trans hsum) fun i => ?_
    have hlead : 0 < c b + w b := by
      by_contra hnot
      have hle : ∑ i, (c i + w i) ≤ 0 := Finset.sum_nonpos fun i _ => (hb i).trans (not_lt.mp hnot)
      rw [Finset.sum_add_distrib, hsum] at hle
      omega
    by_cases hi : i = b
    · subst hi
      rw [turn, if_pos rfl]
      omega
    · have := hc i
      have := hw i
      rw [turn, if_neg hi]
      omega

/-- A member is never a whole turn ahead of its share. -/
theorem Turns.count_lt (h : Turns w 0 bs c') (hw : ∀ i, 0 ≤ w i) (hpos : 0 < ∑ j, w j) (i : ι) :
    bs.count i * ∑ j, w j < bs.length * w i + ∑ j, w j := by
  have hbalance := h.balance i
  have habove := (h.above hw hpos (by simp) fun _ => by simpa using hpos).2 i
  rw [Pi.zero_apply] at hbalance
  omega

/-- After whole rounds everybody has had exactly its share, and has nothing. -/
theorem Turns.count_eq (h : Turns w 0 bs c') (hw : ∀ i, 0 ≤ w i) (hpos : 0 < ∑ j, w j) {k : Nat}
    (hlen : (bs.length : Int) = k * ∑ j, w j) (i : ι) : bs.count i = k * w i ∧ c' i = 0 := by
  have hbalance (i : ι) : c' i = (k * w i - bs.count i) * ∑ j, w j := by
    rw [h.balance i, hlen, Pi.zero_apply]
    ring
  have hle (i : ι) : 0 ≤ c' i := by
    have hlt := h.count_lt hw hpos i
    rw [hlen] at hlt
    have hshare : (bs.count i : Int) < k * w i + 1 := lt_of_mul_lt_mul_right (by linarith) hpos.le
    rw [hbalance]
    exact mul_nonneg (by omega) hpos.le
  have hsum := (h.above hw hpos (by simp) fun _ => by simpa using hpos).1
  have hzero := (Finset.sum_eq_zero_iff_of_nonneg fun i _ => hle i).mp hsum i (Finset.mem_univ i)
  have hshare := (mul_eq_zero.mp ((hbalance i).symm.trans hzero)).resolve_right hpos.ne'
  exact ⟨by omega, hzero⟩

end OpenResty.Lib.Rotation
