/-
The allocator of semaphores over every order of creations and frees: the
counter of a block is how many of its slots are live, the free queue has the
other slots of the blocks, and a block is only released without a live slot.
-/
import Mathlib.Data.List.Nodup
import OpenResty.NgxLua.SemaphorePoolFacts

namespace OpenResty.NgxLua.Semaphore

open Lib.Transition List

/-- The slots of block `b`. -/
def Mm.slots (mm : Mm) (b : Nat) : List Nat := range' (b * mm.num_per_block) mm.num_per_block

/-- The allocator, and which slots are handed out. -/
structure Slots where
  mm : Mm
  live : Nat → Bool

namespace Slots

def init : Slots := { mm := .init, live := fun _ => false }

inductive Event
  /-- `ngx_http_lua_ffi_sema_new`; `fresh` is the memory that a new block would get -/
  | create (fresh : Option Nat)
  /-- `ngx_http_lua_ffi_sema_gc` -/
  | free (sem : Nat)

/-- Memory for a new block is not in use, and only a live semaphore is freed. -/
def step (s : Slots) : Event → Option Slots
  | .create fresh =>
    if ∀ b ∈ fresh, s.mm.blocks b = none then
      match s.mm.allocSema fresh with
      | some (sem, mm) => some { mm, live := Function.update s.live sem true }
      | none => some s
    else none
  | .free sem =>
    if s.live sem then some { mm := s.mm.freeSema sem, live := Function.update s.live sem false } else none

/-- The counters and the queue agree with what is live. -/
structure Accounted (s : Slots) : Prop where
  used : ∀ b block, s.mm.blocks b = some block → block.used = ((s.mm.slots b).filter fun sem => s.live sem).length
  nodup : s.mm.free_queue.Nodup
  free : ∀ sem, sem ∈ s.mm.free_queue ↔ (s.mm.blocks (s.mm.block sem)).isSome ∧ s.live sem = false
  held : ∀ sem, s.live sem = true → (s.mm.blocks (s.mm.block sem)).isSome

/-- A slot that is handed out was not live, and a block that is released has
no live slot and leaves none in the queue. -/
def Sound (s : Slots) (e : Event) : Prop :=
  ∀ s', s.step e = some s' →
    (∀ fresh sem mm, e = .create fresh → s.mm.allocSema fresh = some (sem, mm) → s.live sem = false) ∧
      ∀ b, (s.mm.blocks b).isSome → s'.mm.blocks b = none →
        (∀ sem ∈ s.mm.slots b, s'.live sem = false) ∧ ∀ sem ∈ s'.mm.free_queue, s'.mm.block sem ≠ b

variable {s s' : Slots} {e : Event}

theorem mem_slots {mm : Mm} (hpos : 0 < mm.num_per_block) (b sem : Nat) : sem ∈ mm.slots b ↔ mm.block sem = b := by
  rw [Mm.slots, mem_range'_1, Mm.block, Nat.div_eq_iff hpos]
  omega

/-- A slot of a block is live or in the queue. -/
theorem accounted_of_ok (h : s.mm.Ok s.live) : s.Accounted where
  used := by
    intro b block hblock
    have hsome : (s.mm.blocks b).isSome := by rw [hblock]; rfl
    have hfree : (s.mm.free_queue.filter (s.mm.block · = b)).Perm
        ((s.mm.slots b).filter fun sem => ! s.live sem) := by
      refine (perm_ext_iff_of_nodup (h.nodup.filter _) (Nodup.filter _ nodup_range')).mpr fun sem => ?_
      rw [mem_filter, mem_filter, ← Mm.slots, mem_slots h.pos, decide_eq_true_eq, Bool.not_eq_true', Bool.eq_false_iff,
        ne_eq, h.live]
      constructor
      · rintro ⟨hmem, hb⟩
        exact ⟨hb, fun hlive => hlive.2 hmem⟩
      · rintro ⟨hb, hdead⟩
        refine ⟨by_contra fun hnot => hdead ⟨?_, hnot⟩, hb⟩
        rwa [hb]
    have hall := length_eq_length_filter_add (l := s.mm.slots b) (fun sem => s.live sem)
    rw [Mm.slots, length_range', ← Mm.slots] at hall
    have hcount := h.used b block hblock
    rw [hfree.length_eq] at hcount
    omega
  nodup := h.nodup
  free := by
    intro sem
    rw [Bool.eq_false_iff, ne_eq, h.live, not_and, not_not]
    exact ⟨fun hmem => ⟨h.free sem hmem, fun _ => hmem⟩, fun hfree => hfree.2 hfree.1⟩
  held := fun sem hlive => ((h.live sem).mp hlive).1

theorem ok_step (h : s.mm.Ok s.live) (hstep : s.step e = some s') : s'.mm.Ok s'.live := by
  cases e with
  | create fresh =>
    rw [step] at hstep
    split at hstep
    · next hfresh =>
      split at hstep
      · next sem mm halloc =>
        cases hstep
        exact (h.allocSema hfresh halloc).2
      · cases hstep
        exact h
    · cases hstep
  | free sem =>
    rw [step] at hstep
    split at hstep
    · next hlive =>
      cases hstep
      exact h.freeSema hlive
    · cases hstep

theorem num_per_block_step (hstep : s.step e = some s') : s'.mm.num_per_block = s.mm.num_per_block := by
  cases e with
  | create fresh =>
    rw [step] at hstep
    split at hstep
    · split at hstep
      · next sem mm halloc =>
        cases hstep
        unfold Mm.allocSema at halloc
        split at halloc
        · cases halloc
          rfl
        · split at halloc
          · cases halloc
          · cases halloc
            rfl
      · cases hstep
        rfl
    · cases hstep
  | free sem =>
    rw [step] at hstep
    split at hstep
    · cases hstep
      dsimp only [Mm.freeSema]
      split
      · rfl
      · split <;> rfl
    · cases hstep

theorem sound_of_ok (h : s.mm.Ok s.live) : s.Sound e := by
  intro s' hstep
  refine ⟨?_, fun b hblock hgone => ?_⟩
  · rintro fresh sem mm rfl halloc
    rw [step] at hstep
    split at hstep
    · next hfresh => exact (h.allocSema hfresh halloc).1
    · cases hstep
  · have h' := ok_step h hstep
    have hslot : ∀ sem ∈ s.mm.slots b, s'.mm.block sem = b := by
      intro sem hsem
      rw [Mm.block, num_per_block_step hstep]
      exact (mem_slots h.pos b sem).mp hsem
    refine ⟨fun sem hsem => ?_, fun sem hsem hb => ?_⟩
    · rw [Bool.eq_false_iff, ne_eq, h'.live, hslot sem hsem, hgone]
      exact fun hlive => Bool.false_ne_true hlive.1
    · have hsome := h'.free sem hsem
      rw [hb, hgone] at hsome
      cases hsome

/-- **In every order of creations and frees the counters and the queue agree
with the live slots**, and every step is sound. -/
theorem slots_accounted (events : List Event) :
    Always step Accounted init events ∧ Along step Sound init events := by
  have hkeep : ∀ s e s', s.mm.Ok s.live → step s e = some s' → s'.mm.Ok s'.live := fun _ _ _ h => ok_step h
  have halways : Always step (fun s => s.mm.Ok s.live) init events := always_of_step hkeep Mm.ok_init
  refine ⟨halways.mono fun _ => accounted_of_ok, ?_⟩
  exact along_of_step (fun _ _ h => sound_of_ok h) hkeep Mm.ok_init

end Slots

end OpenResty.NgxLua.Semaphore
