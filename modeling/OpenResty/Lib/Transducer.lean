/-
Machines that read a text item by item and write something for each, and texts that
were made item by item, so that a machine comes back to where it was after each.
-/
import Mathlib.Data.List.Basic

namespace OpenResty.Lib.Transducer

open Option

variable {σ α β γ : Type} (step : σ → α → Option (List β × σ))

/-- What is written for a text, and the state behind it; `none` where an item is refused. -/
def outputs : σ → List α → Option (List β × σ)
  | s, [] => some ([], s)
  | s, a :: as => (step s a).bind fun (out, s') => (outputs s' as).map fun (more, s'') => (out ++ more, s'')

/-- What a whole text means, when the machine may stop behind it. -/
def reading (start : σ) (stops : σ → Bool) (text : List α) : Option (List β) :=
  match outputs step start text with
  | some (out, s) => if stops s then some out else none
  | none => none

variable {step} {s s' : σ}

theorem outputs_cons (s : σ) (a : α) (as : List α) :
    outputs step s (a :: as) =
      (step s a).bind fun (out, s') => (outputs step s' as).map fun (more, s'') => (out ++ more, s'') := rfl

variable {out : List β}

theorem outputs_one {a : α} (h : step s a = some (out, s')) : outputs step s [a] = some (out, s') := by
  rw [outputs_cons, h, bind_some]
  simp only [outputs, map_some, List.append_nil]

theorem outputs_append {xs ys : List α} (h : outputs step s xs = some (out, s')) :
    outputs step s (xs ++ ys) = (outputs step s' ys).map fun (more, s'') => (out ++ more, s'') := by
  induction xs generalizing s out with
  | nil =>
    cases h
    simp
  | cons a xs ih =>
    rw [outputs_cons] at h
    obtain ⟨⟨first, t⟩, hstep, h⟩ := bind_eq_some_iff.mp h
    obtain ⟨⟨rest, t'⟩, hrest, heq⟩ := map_eq_some_iff.mp h
    obtain ⟨rfl, rfl⟩ := Prod.mk.inj heq
    rw [List.cons_append, outputs_cons, hstep, bind_some]
    simp only [ih hrest, map_map]
    refine congrArg (Option.map · _) (funext fun p => ?_)
    simp

/-- **A text made of pieces behind each of which the machine is where it was.** -/
theorem outputs_flatMap {write : γ → List α} {means : γ → List β} {cs : List γ}
    (h : ∀ c ∈ cs, outputs step s (write c) = some (means c, s)) :
    outputs step s (cs.flatMap write) = some (cs.flatMap means, s) := by
  induction cs with
  | nil => rfl
  | cons c cs ih =>
    rw [List.flatMap_cons, outputs_append (h c List.mem_cons_self),
      ih fun c' hc' => h c' (List.mem_cons_of_mem c hc')]
    rfl

theorem reading_eq {start : σ} {stops : σ → Bool} {text : List α}
    (h : outputs step start text = some (out, s)) (hs : stops s = true) : reading step start stops text = some out := by
  rw [reading, h]
  exact if_pos hs

end OpenResty.Lib.Transducer
