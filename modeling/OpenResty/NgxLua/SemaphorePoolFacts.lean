/-
What the worker keeps in every order of events: the slots of the allocator,
and when a posted event finds its semaphore.

An event stays posted when the threads it was posted for are gone. Its
semaphore can then be collected, and its slot used again, before the handler
runs; and the handler goes on when a thread it resumes has the semaphore
collected.
-/
import Mathlib.Data.List.Perm.Subperm
import OpenResty.Lib.Transition
import OpenResty.NgxLua.SemaphorePool

namespace OpenResty.NgxLua.Semaphore

open Lib.Transition Option Nat List
open Function (update_of_ne update_self)

/-! ## The slots -/

namespace Mm

/-- The slots of the allocated blocks are free or live, and each block knows
how many are live. -/
structure Ok (mm : Mm) (live : Nat → Bool) : Prop where
  pos : 0 < mm.num_per_block
  nodup : mm.free_queue.Nodup
  free : ∀ sem ∈ mm.free_queue, (mm.blocks (mm.block sem)).isSome
  live : ∀ sem, live sem = true ↔ (mm.blocks (mm.block sem)).isSome ∧ sem ∉ mm.free_queue
  used : ∀ b block, mm.blocks b = some block →
    block.used + (mm.free_queue.filter (mm.block · = b)).length = mm.num_per_block

variable {mm mm' : Mm} {live : Nat → Bool} {sem : Nat}

theorem ok_init : Mm.init.Ok fun _ => false where
  pos := by decide
  nodup := nodup_nil
  free := fun _ h => by cases h
  live := fun _ => by simp [init]
  used := fun _ _ h => by cases h

/-- A block without a live slot has all its slots in the queue. -/
theorem Ok.all_free (h : mm.Ok live) {block : Block} (hblock : mm.blocks (mm.block sem) = some block)
    (hused : block.used = 0) : sem ∈ mm.free_queue := by
  have hlen := h.used _ block hblock
  rw [hused, Nat.zero_add] at hlen
  have hsub : mm.free_queue.filter (mm.block · = mm.block sem) ⊆
      range' (mm.block sem * mm.num_per_block) mm.num_per_block := by
    intro iter hiter
    have hb := of_decide_eq_true (mem_filter.mp hiter).2
    rw [mem_range'_1]
    unfold Mm.block at hb ⊢
    have hmod := div_add_mod iter mm.num_per_block
    have hlt := mod_lt iter h.pos
    rw [← hb, Nat.mul_comm]
    omega
  have hall : (range' (mm.block sem * mm.num_per_block) mm.num_per_block).length ≤
      (mm.free_queue.filter (mm.block · = mm.block sem)).length :=
    Nat.le_of_eq (length_range'.trans hlen.symm)
  have hperm := (subperm_of_subset (h.nodup.filter _) hsub).perm_of_length_le hall
  have hmem : sem ∈ range' (mm.block sem * mm.num_per_block) mm.num_per_block := by
    rw [mem_range'_1]
    unfold Mm.block
    have hmod := div_add_mod sem mm.num_per_block
    have hlt := mod_lt sem h.pos
    rw [Nat.mul_comm]
    omega
  exact (mem_filter.mp (hperm.mem_iff.mpr hmem)).1

/-- A slot is taken from the queue. -/
theorem Ok.take {free_queue : List Nat} (h : mm.Ok live) (hqueue : mm.free_queue = sem :: free_queue) :
    live sem = false ∧
      Ok { mm.setUsed (mm.block sem) (· + 1) with free_queue, used := mm.used + 1 }
        (Function.update live sem true) := by
  obtain ⟨hpos, hnodup, hfree, hlive, hused⟩ := h
  rw [hqueue] at hnodup hfree hlive hused
  obtain ⟨hnot, hnodup'⟩ := nodup_cons.mp hnodup
  obtain ⟨block, hblock⟩ := isSome_iff_exists.mp (hfree sem mem_cons_self)
  have hdead : live sem = false := by
    rw [Bool.eq_false_iff, ne_eq, hlive]
    exact fun h => h.2 mem_cons_self
  -- the blocks stay
  have hsame : ∀ b, ((mm.setUsed (mm.block sem) (· + 1)).blocks b).isSome = (mm.blocks b).isSome := by
    intro b
    by_cases hb : b = mm.block sem
    · subst hb
      simp [setUsed, hblock]
    · simp [setUsed, update_of_ne hb]
  refine ⟨hdead, hpos, hnodup', ?_, ?_, ?_⟩
  · intro iter hiter
    exact (hsame _).trans (hfree iter (mem_cons_of_mem _ hiter))
  · intro iter
    by_cases hiter : iter = sem
    · subst hiter
      rw [update_self]
      exact iff_of_true rfl ⟨(hsame _).trans (hfree iter mem_cons_self), hnot⟩
    · rw [update_of_ne hiter, hlive]
      refine and_congr (Bool.eq_iff_iff.mp (hsame _).symm) ?_
      simp [hiter]
  · intro b block' hb
    by_cases hbb : b = mm.block sem
    · subst hbb
      simp only [setUsed, update_self, hblock, map_some, some.injEq] at hb
      subst hb
      have := hused _ block hblock
      rw [filter_cons_of_pos (by simp), length_cons] at this
      change block.used + 1 + (free_queue.filter (mm.block · = mm.block sem)).length = mm.num_per_block
      omega
    · simp only [setUsed, update_of_ne hbb] at hb
      have := hused _ block' hb
      rw [filter_cons_of_neg (by simpa using Ne.symm hbb)] at this
      exact this

/-- A slot of a new block. -/
theorem Ok.grow {b : Nat} (h : mm.Ok live) (hqueue : mm.free_queue = []) (hfresh : mm.blocks b = none) :
    live (b * mm.num_per_block) = false ∧
      Ok { mm with
          cur_epoch := mm.cur_epoch + 1
          total := mm.total + mm.num_per_block
          used := mm.used + 1
          blocks := Function.update mm.blocks b (some { used := 1, epoch := mm.cur_epoch + 1 })
          free_queue := range' (b * mm.num_per_block + 1) (mm.num_per_block - 1) }
        (Function.update live (b * mm.num_per_block) true) := by
  obtain ⟨hpos, -, -, hlive, hused⟩ := h
  rw [hqueue] at hlive hused
  have hfirst : mm.block (b * mm.num_per_block) = b := Nat.mul_div_cancel b hpos
  have hslots : ∀ iter, iter ∈ range' (b * mm.num_per_block + 1) (mm.num_per_block - 1) ↔
      mm.block iter = b ∧ iter ≠ b * mm.num_per_block := by
    intro iter
    have hdiv : mm.block iter = b ↔ b * mm.num_per_block ≤ iter ∧ iter < b * mm.num_per_block + mm.num_per_block := by
      unfold Mm.block
      rw [Nat.div_eq_iff hpos]
      omega
    rw [mem_range'_1, hdiv]
    omega
  have hdead : live (b * mm.num_per_block) = false := by
    rw [Bool.eq_false_iff, ne_eq, hlive, hfirst, hfresh]
    exact fun h => absurd h.1 Bool.false_ne_true
  refine ⟨hdead, hpos, nodup_range', ?_, ?_, ?_⟩
  · intro iter hiter
    change (Function.update mm.blocks b _ (mm.block iter)).isSome
    rw [((hslots iter).mp hiter).1, update_self]
    rfl
  · intro iter
    change _ ↔ (Function.update mm.blocks b _ (mm.block iter)).isSome ∧ iter ∉ _
    rw [hslots]
    by_cases hiter : iter = b * mm.num_per_block
    · subst hiter
      simp [hfirst]
    · rw [update_of_ne hiter, hlive]
      by_cases hb : mm.block iter = b
      · simp [hb, hfresh, hiter]
      · simp [hb]
  · intro b' block hb'
    change block.used + ((range' _ _).filter (mm.block · = b')).length = mm.num_per_block
    by_cases hbb : b' = b
    · subst hbb
      simp only [update_self, some.injEq] at hb'
      subst hb'
      rw [filter_eq_self.mpr fun iter hiter => decide_eq_true ((hslots iter).mp hiter).1, length_range']
      dsimp only
      omega
    · simp only [update_of_ne hbb] at hb'
      rw [filter_eq_nil_iff.mpr]
      · exact hused b' block hb'
      · intro iter hiter
        rw [((hslots iter).mp hiter).1]
        simpa using Ne.symm hbb

/-- **What is allocated was not live**, and the slots are kept. -/
theorem Ok.allocSema {fresh : Option Nat} (h : mm.Ok live) (hfresh : ∀ b ∈ fresh, mm.blocks b = none)
    (halloc : mm.allocSema fresh = some (sem, mm')) : live sem = false ∧ mm'.Ok (Function.update live sem true) := by
  unfold Mm.allocSema at halloc
  split at halloc
  · next hqueue =>
    cases halloc
    exact h.take hqueue
  · next hqueue =>
    cases fresh with
    | none => cases halloc
    | some b =>
      cases halloc
      exact h.grow hqueue (hfresh b rfl)

/-- A live slot is put back into the queue. -/
theorem Ok.put {free_queue : List Nat} (h : mm.Ok live) (hsem : live sem = true)
    (hqueue : free_queue.Perm (sem :: mm.free_queue)) :
    Ok { mm.setUsed (mm.block sem) (· - 1) with free_queue, used := mm.used - 1 }
      (Function.update live sem false) := by
  have hempty := @h.all_free
  obtain ⟨hpos, hnodup, hfree, hlive, hused⟩ := h
  obtain ⟨hsome, hnot⟩ := (hlive sem).mp hsem
  obtain ⟨block, hblock⟩ := isSome_iff_exists.mp hsome
  have hsame : ∀ b, ((mm.setUsed (mm.block sem) (· - 1)).blocks b).isSome = (mm.blocks b).isSome := by
    intro b
    by_cases hb : b = mm.block sem
    · subst hb
      simp [setUsed, hblock]
    · simp [setUsed, update_of_ne hb]
  have hmem : ∀ iter, iter ∈ free_queue ↔ iter = sem ∨ iter ∈ mm.free_queue := by
    intro iter
    rw [hqueue.mem_iff, mem_cons]
  have hcount : ∀ b, (free_queue.filter (mm.block · = b)).length =
      ((sem :: mm.free_queue).filter (mm.block · = b)).length := fun b => (hqueue.filter _).length_eq
  refine ⟨hpos, hqueue.nodup_iff.mpr (nodup_cons.mpr ⟨hnot, hnodup⟩), ?_, ?_, ?_⟩
  · intro iter hiter
    refine (hsame _).trans ?_
    rcases (hmem iter).mp hiter with rfl | hiter
    · exact hsome
    · exact hfree iter hiter
  · intro iter
    change _ ↔ ((mm.setUsed (mm.block sem) (· - 1)).blocks (mm.block iter)).isSome = true ∧ iter ∉ free_queue
    rw [hsame, hmem]
    by_cases hiter : iter = sem
    · subst hiter
      simp
    · rw [update_of_ne hiter, hlive]
      simp [hiter]
  · intro b block' hb
    change block'.used + (free_queue.filter (mm.block · = b)).length = mm.num_per_block
    rw [hcount]
    by_cases hbb : b = mm.block sem
    · subst hbb
      simp only [setUsed, update_self, hblock, map_some, some.injEq] at hb
      subst hb
      have hcounted := hused _ block hblock
      have hne : block.used ≠ 0 := fun hzero => hnot (hempty _ hblock hzero)
      rw [filter_cons_of_pos (by simp), length_cons]
      dsimp only
      omega
    · simp only [setUsed, update_of_ne hbb] at hb
      rw [filter_cons_of_neg (by simpa using Ne.symm hbb)]
      exact hused b block' hb

/-- A block without a live slot is given back. -/
theorem Ok.release {b : Nat} {block : Block} (h : mm.Ok live) (hblock : mm.blocks b = some block)
    (hused : block.used = 0) : (mm.release b).Ok live := by
  have hempty := @h.all_free
  obtain ⟨hpos, hnodup, hfree, hlive, hcount⟩ := h
  refine ⟨hpos, hnodup.filter _, ?_, ?_, ?_⟩
  · intro iter hiter
    obtain ⟨hmem, hb⟩ := mem_filter.mp hiter
    change (Function.update mm.blocks b none (mm.block iter)).isSome = true
    rw [update_of_ne (of_decide_eq_true hb)]
    exact hfree iter hmem
  · intro iter
    change _ ↔ (Function.update mm.blocks b none (mm.block iter)).isSome = true ∧ iter ∉ mm.free_queue.filter _
    rw [hlive, mem_filter]
    by_cases hb : mm.block iter = b
    · subst hb
      have := hempty iter hblock hused
      simp [this]
    · simp [hb]
  · intro b' block' hb'
    change Function.update mm.blocks b none b' = some block' at hb'
    change block'.used + ((mm.free_queue.filter _).filter (mm.block · = b')).length = mm.num_per_block
    by_cases hbb : b' = b
    · subst hbb
      simp at hb'
    · simp only [update_of_ne hbb] at hb'
      rw [List.filter_filter, ← hcount b' block' hb']
      congr 2
      refine filter_congr fun iter _ => ?_
      by_cases hiter : mm.block iter = b'
      · simp [hiter, hbb]
      · simp [hiter]

/-- **What is freed is live no more**, and the slots are kept. -/
theorem Ok.freeSema (h : mm.Ok live) (hsem : live sem = true) :
    (mm.freeSema sem).Ok (Function.update live sem false) := by
  obtain ⟨block, hblock⟩ := isSome_iff_exists.mp ((h.live sem).mp hsem).1
  have hblock' : (mm.setUsed (mm.block sem) (· - 1)).blocks (mm.block sem) =
      some { block with used := block.used - 1 } := by
    simp [setUsed, hblock]
  have hput : Ok { mm.setUsed (mm.block sem) (· - 1) with
      used := mm.used - 1
      free_queue :=
        if block.epoch < mm.cur_epoch - (mm.total / mm.num_per_block) / 2 then mm.free_queue ++ [sem]
        else sem :: mm.free_queue } (Function.update live sem false) := by
    refine h.put hsem ?_
    split
    · exact perm_append_comm
    · exact Perm.refl _
  unfold Mm.freeSema
  simp only [hblock']
  split
  · next hrelease => exact hput.release hblock' hrelease.1
  · exact hput

end Mm

/-! ## One step of one semaphore -/

/-- Only `post` posts the event, for the threads that wait, and only the
handler takes it down. -/
theorem step_posted {addr : Nat} {s s' : State} {e : Semaphore.Event} {o : Outcome} (he : e ≠ .handler)
    (hstep : step addr s e = some (s', o)) :
    (s'.sem.posted = true → s.sem.posted = true ∨ (s'.sem.wait_queue ≠ [] ∧ ∃ n, e = .post n)) ∧
      (s.sem.posted = true → s'.sem.posted = true) ∧ (s'.running = true → s.running = true) := by
  cases e with
  | post n =>
    cases hstep
    refine ⟨fun hposted => ?_, fun hposted => ?_, id⟩
    · simp only [Sema.post] at hposted ⊢
      split
      · next hnil =>
        rw [if_pos hnil] at hposted
        exact .inl hposted
      · next hne => exact .inr ⟨hne, n, rfl⟩
    · simp only [Sema.post]
      split
      · exact hposted
      · rfl
  | wait who wait_ms =>
    simp only [step] at hstep
    split at hstep
    · cases hstep
    · simp only [State.wait] at hstep
      split at hstep
      · cases hstep
        exact ⟨.inl, id, id⟩
      · split at hstep
        · cases hstep
          exact ⟨.inl, id, id⟩
        · cases hstep
          exact ⟨.inl, id, id⟩
  | timeout who =>
    simp only [step] at hstep
    split at hstep
    · cases hstep
      exact ⟨.inl, id, id⟩
    · cases hstep
  | kill who =>
    simp only [step] at hstep
    split at hstep
    · cases hstep
      exact ⟨.inl, id, id⟩
    · cases hstep
  | handler => exact absurd rfl he
  | turn =>
    simp only [step] at hstep
    split at hstep
    · next hrunning =>
      simp only [State.turn] at hstep
      split at hstep
      · split at hstep
        · cases hstep
          exact ⟨.inl, id, id⟩
        · cases hstep
          exact ⟨.inl, id, fun _ => hrunning⟩
      · cases hstep
        exact ⟨.inl, id, fun _ => hrunning⟩
    · cases hstep

/-! ## What a run is watched for -/

/-- Told apart beside a run: the semaphores that had a slot one after the
other, the one that the event of a slot was posted for, and the events whose
last thread has gone since they were posted. -/
structure Watch where
  count : Nat
  serial : Nat → Nat
  owner : Nat → Nat
  orphaned : Nat → Bool

def Watch.init : Watch := { count := 0, serial := fun _ => 0, owner := fun _ => 0, orphaned := fun _ => false }

/-- The step from `p` to `p'`, watched. -/
def Watch.next (w : Watch) (p p' : Pool) : Pool.Event → Watch
  | .new _ fresh =>
    match p.mm.allocSema fresh with
    | some (sem, _) =>
      { w with
        count := w.count + 1
        serial := Function.update w.serial sem (w.count + 1)
        orphaned := Function.update w.orphaned sem false }
    | none => w
  | .gc _ => w
  | .process =>
    match p.posted_events with
    | sem :: _ => { w with orphaned := Function.update w.orphaned sem false }
    | [] => w
  | .on sem _ =>
    { w with
      owner := if (p'.sema sem).posted ∧ ¬ (p.sema sem).posted then Function.update w.owner sem
        (w.serial sem) else w.owner
      orphaned :=
        if (p.sema sem).posted ∧ (p.sema sem).wait_queue ≠ [] ∧ (p'.sema sem).wait_queue = [] then
          Function.update w.orphaned sem true
        else w.orphaned }

def watchStep (x : Pool × Watch) (e : Pool.Event) : Option (Pool × Watch) :=
  (x.1.step e).map fun p => (p, x.2.next x.1 p e)

/-- A posted event, or one whose handler runs, has the semaphore it was posted
for: its slot was not freed. -/
def Safe (x : Pool × Watch) : Prop :=
  ∀ sem, sem ∈ x.1.posted_events ∨ x.1.running = some sem →
    (x.1.mm.blocks (x.1.mm.block sem)).isSome ∧ sem ∉ x.1.mm.free_queue ∧ x.2.owner sem = x.2.serial sem

/-- No semaphore is collected after the last thread has gone that its event
was posted for and before the event is handled, nor by what its handler runs. -/
def Careful (x : Pool × Watch) : Pool.Event → Prop
  | .gc sem => x.2.orphaned sem = false ∧ x.1.running ≠ some sem
  | _ => True

instance (x : Pool × Watch) : (e : Pool.Event) → Decidable (Careful x e)
  | .gc sem => inferInstanceAs (Decidable (x.2.orphaned sem = false ∧ x.1.running ≠ some sem))
  | .new _ _ | .process | .on _ _ => inferInstanceAs (Decidable True)

/-- What is kept. -/
structure PoolInv (x : Pool × Watch) : Prop where
  mm : x.1.mm.Ok x.1.live
  nodup : x.1.posted_events.Nodup
  alive : ∀ sem, sem ∈ x.1.posted_events ∨ x.1.running = some sem →
    x.1.live sem = true ∧ x.2.owner sem = x.2.serial sem
  flag : ∀ sem, x.1.live sem = true → ((x.1.sema sem).posted = true ↔ sem ∈ x.1.posted_events)
  waited : ∀ sem, x.1.live sem = true → (x.1.sema sem).posted = true →
    (x.1.sema sem).wait_queue ≠ [] ∨ x.2.orphaned sem = true
  orphaned : ∀ sem, x.1.live sem = true → x.2.orphaned sem = true → (x.1.sema sem).posted = true

variable {p p' : Pool} {w : Watch} {sem : Nat}

variable {x x' : Pool × Watch}

theorem PoolInv.safe (h : PoolInv x) : Safe x := by
  intro sem hsem
  obtain ⟨hlive, howner⟩ := h.alive sem hsem
  obtain ⟨hblock, hnot⟩ := (h.mm.live sem).mp hlive
  exact ⟨hblock, hnot, howner⟩

theorem inv_new {n : Int} {fresh : Option Nat} (h : PoolInv (p, w)) (hstep : p.step (.new n fresh) = some p') :
    PoolInv (p', w.next p p' (.new n fresh)) := by
  obtain ⟨hmm, hnodup, halive, hflag, hwaited, horphaned⟩ := h
  simp only [Pool.step] at hstep
  split at hstep
  · next hfresh =>
    obtain ⟨⟨sem, mm⟩, halloc, hp'⟩ := map_eq_some_iff.mp hstep
    obtain ⟨hdead, hok⟩ := hmm.allocSema hfresh halloc
    subst hp'
    simp only [Watch.next, halloc]
    -- the events are those of other slots
    have hother : ∀ iter, iter ∈ p.posted_events ∨ p.running = some iter → iter ≠ sem := by
      intro iter hiter heq
      subst heq
      rw [(halive iter hiter).1] at hdead
      cases hdead
    refine ⟨hok, hnodup, ?_, ?_, ?_, ?_⟩
    · intro iter hiter
      dsimp only
      rw [update_of_ne (hother iter hiter), update_of_ne (hother iter hiter)]
      exact halive iter hiter
    · intro iter hlive
      dsimp only at hlive ⊢
      by_cases hiter : iter = sem
      · subst hiter
        rw [update_self]
        exact iff_of_false Bool.false_ne_true fun hmem => hother iter (.inl hmem) rfl
      · rw [update_of_ne hiter] at hlive ⊢
        exact hflag iter hlive
    · intro iter hlive hposted
      dsimp only at hlive hposted ⊢
      by_cases hiter : iter = sem
      · subst hiter
        rw [update_self] at hposted
        cases hposted
      · rw [update_of_ne hiter] at hlive hposted ⊢
        rw [update_of_ne hiter]
        exact hwaited iter hlive hposted
    · intro iter hlive horphan
      dsimp only at hlive horphan ⊢
      by_cases hiter : iter = sem
      · subst hiter
        rw [update_self] at horphan
        cases horphan
      · rw [update_of_ne hiter] at hlive horphan ⊢
        exact horphaned iter hlive horphan
  · cases hstep

theorem inv_gc (h : PoolInv (p, w)) (hstep : p.step (.gc sem) = some p') (hcareful : Careful (p, w) (.gc sem)) :
    PoolInv (p', w.next p p' (.gc sem)) := by
  obtain ⟨hmm, hnodup, halive, hflag, hwaited, horphaned⟩ := h
  simp only [Pool.step] at hstep
  split at hstep
  · next hgc =>
    cases hstep
    obtain ⟨hlive, hnil⟩ := hgc
    obtain ⟨horphan, hrunning⟩ := hcareful
    have hquiet : sem ∉ p.posted_events := by
      intro hmem
      rcases hwaited sem hlive ((hflag sem hlive).mpr hmem) with hne | horphan'
      · exact hne hnil
      · rw [horphan] at horphan'
        cases horphan'
    have hother : ∀ iter, Function.update p.live sem false iter = true → iter ≠ sem ∧ p.live iter = true := by
      intro iter hiter
      by_cases heq : iter = sem
      · subst heq
        rw [update_self] at hiter
        cases hiter
      · rw [update_of_ne heq] at hiter
        exact ⟨heq, hiter⟩
    refine ⟨hmm.freeSema hlive, hnodup, ?_, ?_, ?_, ?_⟩
    · intro iter hiter
      dsimp only at hiter ⊢
      have hne : iter ≠ sem := by
        intro heq
        subst heq
        exact hiter.elim hquiet hrunning
      rw [update_of_ne hne]
      exact halive iter hiter
    · exact fun iter hiter => hflag iter (hother iter hiter).2
    · exact fun iter hiter => hwaited iter (hother iter hiter).2
    · exact fun iter hiter => horphaned iter (hother iter hiter).2
  · cases hstep

theorem inv_process (h : PoolInv (p, w)) (hstep : p.step .process = some p') :
    PoolInv (p', w.next p p' .process) := by
  obtain ⟨hmm, hnodup, halive, hflag, hwaited, horphaned⟩ := h
  simp only [Pool.step] at hstep
  split at hstep
  · cases hstep
  · next sem posted_events hqueue =>
    dsimp only at hnodup halive hflag
    split at hstep
    · next hidle =>
      cases hstep
      simp only [Watch.next, hqueue]
      rw [hqueue] at hnodup halive hflag
      obtain ⟨hnot, hnodup'⟩ := nodup_cons.mp hnodup
      refine ⟨hmm, hnodup', ?_, ?_, ?_, ?_⟩
      · intro iter hiter
        refine halive iter (.inl ?_)
        rcases hiter with hiter | hiter
        · exact mem_cons_of_mem _ hiter
        · cases hiter
          exact mem_cons_self
      · intro iter hlive
        dsimp only
        by_cases heq : iter = sem
        · subst heq
          rw [update_self]
          exact iff_of_false Bool.false_ne_true hnot
        · rw [update_of_ne heq, hflag iter hlive]
          simp [heq]
      · intro iter hlive hposted
        dsimp only at hposted ⊢
        by_cases heq : iter = sem
        · subst heq
          rw [update_self] at hposted
          cases hposted
        · rw [update_of_ne heq] at hposted ⊢
          rw [update_of_ne heq]
          exact hwaited iter hlive hposted
      · intro iter hlive horphan
        dsimp only at horphan ⊢
        by_cases heq : iter = sem
        · subst heq
          rw [update_self] at horphan
          cases horphan
        · rw [update_of_ne heq] at horphan ⊢
          exact horphaned iter hlive horphan
    · cases hstep

theorem inv_on {e : Semaphore.Event} (h : PoolInv (p, w)) (hstep : p.step (.on sem e) = some p') :
    PoolInv (p', w.next p p' (.on sem e)) := by
  obtain ⟨hmm, hnodup, halive, hflag, hwaited, horphaned⟩ := h
  simp only [Pool.step] at hstep
  split at hstep
  · next hcan =>
    obtain ⟨⟨s, o⟩, hs, hp'⟩ := map_eq_some_iff.mp hstep
    subst hp'
    have he : e ≠ .handler := by
      intro he
      rw [he] at hcan
      cases hcan
    obtain ⟨hnew, hkeep, hrunning⟩ := step_posted he hs
    dsimp only [Pool.view] at hnew hkeep
    -- an event is posted anew by the object of its semaphore
    have hpost : s.sem.posted = true → (p.sema sem).posted ≠ true → p.live sem = true ∧ s.sem.wait_queue ≠ [] := by
      intro hafter hbefore
      obtain ⟨hne, n, rfl⟩ := (hnew hafter).resolve_left hbefore
      exact ⟨hcan, hne⟩
    have hrun : ∀ iter, (p.write sem s).running = some iter → p.running = some iter := by
      intro iter hiter
      simp only [Pool.write] at hiter
      split at hiter
      · cases hiter
      · exact hiter
    have hself : (p.write sem s).sema sem = s.sem := update_self ..
    have hother : ∀ iter, iter ≠ sem → (p.write sem s).sema iter = p.sema iter := fun iter hiter =>
      update_of_ne hiter ..
    have hmem : ∀ iter, iter ∈ (p.write sem s).posted_events ↔
        iter ∈ p.posted_events ∨ (iter = sem ∧ s.sem.posted = true ∧ ¬ (p.sema sem).posted = true) := by
      intro iter
      simp only [Pool.write]
      split
      · next hanew => simp [hanew]
      · next hanew => exact ⟨.inl, fun hin => hin.resolve_right fun h => hanew h.2⟩
    simp only [Watch.next, hself]
    refine ⟨hmm, ?_, ?_, ?_, ?_, ?_⟩
    · simp only [Pool.write]
      split
      · next hanew =>
        have hnot : sem ∉ p.posted_events := fun hin => hanew.2 ((hflag sem (hpost hanew.1 hanew.2).1).mpr hin)
        exact nodup_append.mpr ⟨hnodup, by simp, fun a ha b hb hab => hnot (by simp at hb; rwa [← hb, ← hab])⟩
      · exact hnodup
    · intro iter hiter
      by_cases hanew : s.sem.posted = true ∧ ¬ (p.sema sem).posted = true
      · dsimp only
        rw [if_pos hanew]
        by_cases heq : iter = sem
        · subst heq
          exact ⟨(hpost hanew.1 hanew.2).1, update_self ..⟩
        · rw [update_of_ne heq]
          refine halive iter (hiter.imp (fun hin => ?_) (hrun iter))
          exact ((hmem iter).mp hin).resolve_right fun h => heq h.1
      · dsimp only
        rw [if_neg hanew]
        refine halive iter (hiter.imp (fun hin => ?_) (hrun iter))
        exact ((hmem iter).mp hin).resolve_right fun h => hanew h.2
    · intro iter hlive
      dsimp only at hlive ⊢
      rw [hmem]
      by_cases heq : iter = sem
      · subst heq
        rw [hself, ← hflag iter hlive]
        cases hbefore : (p.sema iter).posted with
        | true => exact iff_of_true (hkeep hbefore) (.inl rfl)
        | false => simp
      · rw [hother iter heq, hflag iter hlive]
        simp [heq]
    · intro iter hlive hposted
      dsimp only at hlive hposted ⊢
      by_cases heq : iter = sem
      · subst heq
        rw [hself] at hposted ⊢
        by_cases hbefore : (p.sema iter).posted = true
        · -- the last thread may have gone
          by_cases hnil : s.sem.wait_queue = []
          · refine .inr ?_
            split
            · rw [update_self]
            · next hgone =>
              rcases hwaited iter hlive hbefore with hne | horphan
              · exact absurd ⟨hbefore, hne, hnil⟩ hgone
              · exact horphan
          · exact .inl hnil
        · exact .inl (hpost hposted hbefore).2
      · rw [hother iter heq] at hposted ⊢
        refine (hwaited iter hlive hposted).imp id fun horphan => ?_
        split
        · rwa [update_of_ne heq]
        · exact horphan
    · intro iter hlive horphan
      dsimp only at hlive horphan ⊢
      by_cases heq : iter = sem
      · subst heq
        rw [hself]
        split at horphan
        · next hgone => exact hkeep hgone.1
        · exact hkeep (horphaned iter hlive horphan)
      · rw [hother iter heq]
        refine horphaned iter hlive ?_
        split at horphan
        · rwa [update_of_ne heq] at horphan
        · exact horphan
  · cases hstep

/-- **Every careful step keeps the posted events with their semaphores.** -/
theorem poolInv_step {e : Pool.Event} (h : PoolInv x) (hstep : watchStep x e = some x')
    (hcareful : Careful x e) : PoolInv x' := by
  obtain ⟨p, w⟩ := x
  obtain ⟨p', hp', rfl⟩ := map_eq_some_iff.mp hstep
  cases e with
  | new n fresh => exact inv_new h hp'
  | gc sem => exact inv_gc h hp' hcareful
  | process => exact inv_process h hp'
  | on sem e => exact inv_on h hp'

/-- A slot that is freed is in the queue, or its block is gone. -/
theorem freed_freeSema {mm : Mm} {live : Nat → Bool} (h : mm.Ok live) (hsem : live sem = true) :
    ¬ (((mm.freeSema sem).blocks ((mm.freeSema sem).block sem)).isSome ∧ sem ∉ (mm.freeSema sem).free_queue) := by
  rw [← (h.freeSema hsem).live sem, update_self]
  exact Bool.false_ne_true

/-- Any other step frees the slot of an event. -/
theorem careful_of_safe {e : Pool.Event} (h : PoolInv x) (hstep : watchStep x e = some x')
    (hsafe : Safe x') : Careful x e := by
  obtain ⟨p, w⟩ := x
  obtain ⟨p', hp', rfl⟩ := map_eq_some_iff.mp hstep
  cases e with
  | gc sem =>
    simp only [Pool.step] at hp'
    split at hp'
    · next hgc =>
      cases hp'
      have hfreed := freed_freeSema h.mm hgc.1
      refine ⟨?_, fun hrunning => ?_⟩
      · cases horphan : w.orphaned sem with
        | false => rfl
        | true =>
          have hposted := h.orphaned sem hgc.1 horphan
          obtain ⟨hblock, hnot, -⟩ := hsafe sem (.inl ((h.flag sem hgc.1).mp hposted))
          exact absurd ⟨hblock, hnot⟩ hfreed
      · obtain ⟨hblock, hnot, -⟩ := hsafe sem (.inr hrunning)
        exact hfreed ⟨hblock, hnot⟩
    · cases hp'
  | new n fresh => trivial
  | process => trivial
  | on sem e => trivial

theorem poolInv_init (sema : Nat → Sema) : PoolInv (Pool.init sema, Watch.init) where
  mm := Mm.ok_init
  nodup := nodup_nil
  alive := fun sem hsem => by
    rcases hsem with hsem | hsem
    · cases hsem
    · cases hsem
  flag := fun sem hlive => by cases hlive
  waited := fun sem hlive => by cases hlive
  orphaned := fun sem hlive => by cases hlive

/-- **A posted event finds the semaphore it was posted for, in every order of
events, exactly as long as no semaphore is collected** between the going of
the last thread that its event was posted for and the end of its handler. -/
theorem posted_events_safe_iff (sema : Nat → Sema) (events : List Pool.Event) :
    Always watchStep Safe (Pool.init sema, Watch.init) events ↔
      Along watchStep Careful (Pool.init sema, Watch.init) events :=
  always_iff_along (fun _ h => PoolInv.safe h) (fun _ _ _ h hstep hcareful => poolInv_step h hstep hcareful)
    (fun _ _ _ h hstep hsafe => careful_of_safe h hstep hsafe) (poolInv_init sema)

/-- The only thread that waits is killed when the event is already posted, and
the semaphore is collected before the handler runs. -/
theorem posted_events_orphan :
    ¬ ∀ events, Always watchStep Safe (Pool.init fun _ => Sema.new 0, Watch.init) events := by
  intro h
  have hall := h [.new 0 (some 0), .on 0 (.wait 1 100), .on 0 (.post 1), .on 0 (.kill 1), .gc 0]
  have hsafe := ((((hall.2 _ rfl).2 _ rfl).2 _ rfl).2 _ rfl).2 _ rfl
  exact (hsafe 0 (.inl (by decide))).2.1 (by decide)

end OpenResty.NgxLua.Semaphore
