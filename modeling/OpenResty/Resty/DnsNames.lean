/-
Which names `_decode_name` accepts.

A byte with one of its two high bits is taken for the first of a pointer, and
after 128 pointers the loop ends as if the name had ended: a name with another
label type, or whose pointers run in a circle, comes out as one that is right.
-/
import OpenResty.Resty.DnsMessages

namespace OpenResty.Resty.DnsResolver

open Lib

/-- From `p` on, with `n` pointers followed, a byte is missing before the
128th pointer, where any of the two high bits makes a pointer. -/
inductive RunsOff (buf : Bytes) : Nat → Nat → Prop
  | first {n p : Nat} (hn : n < 128) (h : byte buf p = none) : RunsOff buf n p
  | second {n p fst : Nat} (hn : n < 128) (h : byte buf p = some fst) (hbits : fst &&& 0xc0 ≠ 0)
      (hsnd : byte buf (p + 1) = none) : RunsOff buf n p
  | pointer {n p fst snd : Nat} (hn : n < 128) (h : byte buf p = some fst) (hbits : fst &&& 0xc0 ≠ 0)
      (hsnd : byte buf (p + 1) = some snd) (rest : RunsOff buf (n + 1) ((fst &&& 0x3f) * 2 ^ 8 + snd + 1)) :
      RunsOff buf n p
  | label {n p fst : Nat} (hn : n < 128) (h : byte buf p = some fst) (hpos : fst ≠ 0) (hbits : fst &&& 0xc0 = 0)
      (rest : RunsOff buf n (p + fst + 1)) : RunsOff buf n p

variable {buf : Bytes} {n p pos : Nat}

theorem decodeLoop_of_runsOff (h : RunsOff buf n p) (pos : Nat) (ls : List Bytes) :
    decodeLoop buf n p pos ls = none := by
  induction h generalizing pos ls with
  | first hn h =>
    rw [decodeLoop, if_pos hn]
    split
    · rfl
    · next h' => cases h.symm.trans h'
  | second hn h hbits hsnd =>
    rw [decodeLoop, if_pos hn]
    split
    · rfl
    · next h' =>
      cases h.symm.trans h'
      rw [if_neg (fun hzero => hbits (by rw [hzero]; rfl)), if_pos hbits, hsnd]
  | pointer hn h hbits hsnd rest ih =>
    rw [decodeLoop, if_pos hn]
    split
    · rfl
    · next h' =>
      cases h.symm.trans h'
      rw [if_neg (fun hzero => hbits (by rw [hzero]; rfl)), if_pos hbits, hsnd]
      exact ih _ _
  | label hn h hpos hbits rest ih =>
    rw [decodeLoop, if_pos hn]
    split
    · rfl
    · next h' =>
      cases h.symm.trans h'
      rw [if_neg hpos, if_neg (not_not.mpr hbits)]
      exact ih _ _

theorem runsOff_of_decodeLoop (ls : List Bytes) (h : decodeLoop buf n p pos ls = none) : RunsOff buf n p := by
  fun_induction decodeLoop buf n p pos ls with
  | case1 n p pos ls hn hfst => exact .first hn hfst
  | case2 n p pos ls hn hfst => cases h
  | case3 n p pos ls hn fst hfst hpos hbits hsnd => exact .second hn hfst hbits hsnd
  | case4 n p pos ls hn fst hfst hpos hbits snd hsnd ih => exact .pointer hn hfst hbits hsnd (ih h)
  | case5 n p pos ls hn fst hfst hpos hbits ih => exact .label hn hfst hpos (not_not.mp hbits) (ih h)
  | case6 n p pos ls hn => cases h

/-- What is accepted is a name, and comes out as its labels with the position behind it. -/
def DecodedRight (buf : Bytes) (pos : Nat) : Prop :=
  ∀ r, decode_name buf pos = some r →
    ∃ items, NameAt buf pos items ∧ r = (concat (labels items), pos + nameSize items)

/-- **Names are decoded right exactly where a byte is missing, or where a name
stands that ends and has no label behind its 128th pointer.** -/
theorem decode_name_iff (buf : Bytes) (pos : Nat) :
    DecodedRight buf pos ↔ RunsOff buf 0 pos ∨ ∃ items, NameAt buf pos items ∧ Near items := by
  constructor
  · intro h
    cases hr : decode_name buf pos with
    | none => exact .inl (runsOff_of_decodeLoop [] hr)
    | some r =>
      obtain ⟨items, hname, rfl⟩ := h r hr
      rw [decode_name_at hname, Option.some.injEq, Prod.mk.injEq] at hr
      exact .inr ⟨items, hname, (near_iff hname).mp hr.1⟩
  · rintro (hoff | ⟨items, hname, hnear⟩) r hr
    · cases (decodeLoop_of_runsOff hoff pos []).symm.trans hr
    · rw [decode_name_at hname, hnear] at hr
      exact ⟨items, hname, (Option.some.inj hr).symm⟩

/-- A pointer to itself. -/
theorem not_runsOff_circle {n p : Nat} (h : RunsOff [0xc0, 0] n p) : p ≠ 1 := by
  induction h with
  | first hn h =>
    rintro rfl
    cases h
  | second hn h hbits hsnd =>
    rintro rfl
    cases hsnd
  | pointer hn h hbits hsnd rest ih =>
    rintro rfl
    cases h
    cases hsnd
    exact ih rfl
  | label hn h hpos hbits rest ih =>
    rintro rfl
    cases h
    exact absurd hbits (by decide)

theorem not_nameAt_circle {p : Nat} {items : List Item} (h : NameAt [0xc0, 0] p items) : p ≠ 1 := by
  induction h with
  | root h =>
    rintro rfl
    cases h
  | label h hpos hsmall hin rest ih =>
    rintro rfl
    cases h
    exact absurd hsmall (by decide)
  | pointer hhi hbits hlo rest ih =>
    rintro rfl
    cases hhi
    cases hlo
    exact ih rfl

/-- The name whose pointer points to itself is accepted. -/
theorem decode_name_circle : ¬ DecodedRight [0xc0, 0] 1 := by
  intro h
  cases hr : decode_name [0xc0, 0] 1 with
  | none => exact not_runsOff_circle (runsOff_of_decodeLoop [] hr) rfl
  | some r =>
    obtain ⟨items, hname, -⟩ := h r hr
    exact not_nameAt_circle hname rfl

end OpenResty.Resty.DnsResolver
