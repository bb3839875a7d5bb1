/-
Records in a memory, one behind the other with room for padding, and a loop that
steps from one record to the next until a zero word.
-/
import OpenResty.Lib.Memory

namespace OpenResty.Lib

namespace Memory

/-- The word of eight bytes at an address. -/
def word (mem : Memory) (off : Nat) : Nat := fromBytes (mem.load off 8)

end Memory

namespace Layout

variable {α σ : Type}

/-- Records of type `α`: their bytes, and how much room they take. -/
structure Format (α : Type) where
  bytes : α → Bytes
  size : α → Nat
  fits : ∀ c, (bytes c).length ≤ size c

variable {F : Format α} {mem : Memory} {off : Nat} {c : α} {cs : List α} {bs : Bytes}

/-- The records lie in the memory from `off` on. -/
def Laid (F : Format α) (mem : Memory) : Nat → List α → Prop
  | _, [] => True
  | off, c :: cs => mem.load off (F.bytes c).length = F.bytes c ∧ Laid F mem (off + F.size c) cs

/-- The address behind the records. -/
def Format.finish (F : Format α) (off : Nat) (cs : List α) : Nat := off + (cs.map F.size).sum

/-- The addresses of the records, with the one behind them. -/
def Format.offsets (F : Format α) : Nat → List α → List Nat
  | off, [] => [off]
  | off, c :: cs => off :: F.offsets (off + F.size c) cs

theorem Format.finish_cons (off : Nat) (c : α) (cs : List α) :
    F.finish off (c :: cs) = F.finish (off + F.size c) cs := by
  rw [Format.finish, Format.finish, List.map_cons, List.sum_cons, Nat.add_assoc]

theorem Format.finish_append (off : Nat) (cs cs' : List α) :
    F.finish off (cs ++ cs') = F.finish (F.finish off cs) cs' := by
  simp only [Format.finish, List.map_append, List.sum_append, Nat.add_assoc]

/-- What is stored behind the records leaves them alone. -/
theorem Laid.store (h : Laid F mem off cs) {o : Nat} (ho : F.finish off cs ≤ o) (bs : Bytes) :
    Laid F (mem.store o bs) off cs := by
  induction cs generalizing off with
  | nil => trivial
  | cons c cs ih =>
    rw [Format.finish_cons] at ho
    have hroom : off + F.size c ≤ F.finish (off + F.size c) cs := Nat.le_add_right _ _
    refine ⟨?_, ih h.2 ho⟩
    have hfits := F.fits c
    rw [mem.load_store_beside (.inl (by omega))]
    exact h.1

theorem Laid.append (h : Laid F mem off cs) {cs' : List α} (h' : Laid F mem (F.finish off cs) cs') :
    Laid F mem off (cs ++ cs') := by
  induction cs generalizing off with
  | nil => exact h'
  | cons c cs ih =>
    rw [Format.finish_cons] at h'
    exact ⟨h.1, ih h.2 h'⟩

/-- A record written behind the others. -/
theorem Laid.snoc (h : Laid F mem off cs) (c : α) :
    Laid F (mem.store (F.finish off cs) (F.bytes c)) off (cs ++ [c]) :=
  (h.store (Nat.le_refl _) _).append ⟨mem.load_store _ _, trivial⟩

/-! ## The loop -/

/-- Steps until the word at the pointer is zero: the state at the end, and where the pointer has been. -/
def walk (mem : Memory) (ip : σ → Nat) (step : σ → Option σ) : Nat → σ → Option (σ × List Nat)
  | 0, _ => none
  | turns + 1, s =>
    if mem.word (ip s) = 0 then some (s, [ip s])
    else do
      let (s', ips) ← walk mem ip step turns (← step s)
      return (s', ip s :: ips)

/-- The loop takes each record for one step, and ends at the zero word behind them. -/
theorem walk_laid (ip : σ → Nat) (step : σ → Option σ) {f : σ → α → σ} {I : σ → Prop}
    (hstep : ∀ c ∈ cs, ∀ s, I s → mem.load (ip s) (F.bytes c).length = F.bytes c →
      mem.word (ip s) ≠ 0 ∧ step s = some (f s c) ∧ ip (f s c) = ip s + F.size c ∧ I (f s c))
    {s : σ} (hI : I s) (h : Laid F mem (ip s) cs) (hend : mem.word (F.finish (ip s) cs) = 0) {turns : Nat}
    (hturns : cs.length < turns) :
    walk mem ip step turns s = some (cs.foldl f s, F.offsets (ip s) cs) := by
  induction cs generalizing s turns with
  | nil =>
    obtain ⟨turns, rfl⟩ := Nat.exists_eq_add_one_of_ne_zero (Nat.ne_of_gt hturns)
    rw [walk]
    exact if_pos hend
  | cons c cs ih =>
    obtain ⟨turns, rfl⟩ := Nat.exists_eq_add_one_of_ne_zero (Nat.ne_zero_of_lt hturns)
    obtain ⟨hword, hs, hip, hI'⟩ := hstep c (.head cs) s hI h.1
    rw [Format.finish_cons, ← hip] at hend
    have htail := ih (fun c hc => hstep c (.tail _ hc)) hI' (hip ▸ h.2) hend (Nat.lt_of_succ_lt_succ hturns)
    rw [walk, if_neg hword, hs]
    change (walk mem ip step turns (f s c) >>= _) = _
    rw [htail, hip]
    rfl

end Layout

end OpenResty.Lib
