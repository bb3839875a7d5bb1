/-
What a semaphore keeps in every order of events: its counters, the order in
which threads are served, and that none is left waiting for a resource.

The books beside a run give every call of `wait` a number and say how it
ended. They are kept in order as long as no counter overflows, and only then.
-/
import Mathlib.Data.List.Range
import OpenResty.Lib.Transition
import OpenResty.NgxLua.Semaphore

namespace OpenResty.NgxLua.Semaphore

open Lib.Transition List Function

/-! ## The books -/

/-- What was posted and asked for, and how the calls of `wait` ended. -/
structure Account where
  /-- the initial count and all posts -/
  total : Int
  calls : Nat
  /-- the last call of each thread that had to wait -/
  ticket : Nat → Nat
  /-- the calls that were successful, in the order they became so -/
  served : List Nat
  /-- the calls that were declined, timed out or killed -/
  dropped : List Nat

def Account.new (n : Int) : Account := { total := n, calls := 0, ticket := fun _ => 0, served := [], dropped := [] }

/-- An event and its outcome, entered. -/
def Account.enter (a : Account) : Event → Outcome → Account
  | .post n, _ => { a with total := a.total + n }
  | .wait _ _, .ok => { a with calls := a.calls + 1, served := a.served ++ [a.calls] }
  | .wait _ _, .declined => { a with calls := a.calls + 1, dropped := a.dropped ++ [a.calls] }
  | .wait who _, .again => { a with calls := a.calls + 1, ticket := update a.ticket who a.calls }
  | _, .resumed who .succ => { a with served := a.served ++ [a.ticket who] }
  | _, .resumed who .timeout => { a with dropped := a.dropped ++ [a.ticket who] }
  | _, .cleaned who => { a with dropped := a.dropped ++ [a.ticket who] }
  | _, _ => a

/-- A step, with its entry. -/
def enterStep (addr : Nat) (x : State × Account) (e : Event) : Option (State × Account) :=
  (step addr x.1 e).map fun (s, o) => (s, x.2.enter e o)

/-- The calls of the threads that wait, in the order of the queue. -/
def waiting (x : State × Account) : List Nat := x.1.sem.wait_queue.map x.2.ticket

/-- What is promised of a semaphore. -/
structure Sound (x : State × Account) : Prop where
  counted : x.1.sem.wait_count = x.1.sem.wait_queue.length
  conserved : x.2.total = x.2.served.length + x.1.sem.resource_count
  /-- calls are served in the order they were made, and before those that wait -/
  fifo : (x.2.served ++ waiting x).Pairwise (· < ·)
  /-- every call was served, or dropped, or waits: one of them, and once -/
  once : (x.2.served ++ waiting x ++ x.2.dropped).Perm (List.range x.2.calls)
  /-- no wake-up is lost -/
  posted : x.1.sem.wait_queue ≠ [] → 0 < x.1.sem.resource_count → x.1.sem.posted = true ∨ x.1.running = true

/-- No counter overflows: `resource_count` stays an `int`, and fewer than
2^32 threads wait. -/
def Fits (x : State × Account) : Event → Prop
  | .post n => -2 ^ 31 ≤ x.1.sem.resource_count + n ∧ x.1.sem.resource_count + n < 2 ^ 31
  | .wait _ wait_ms => wait_ms ≠ 0 → x.1.sem.wait_queue.length + 1 < 2 ^ 32
  | _ => True

instance (x : State × Account) : (e : Event) → Decidable (Fits x e)
  | .post n =>
    inferInstanceAs (Decidable (-2 ^ 31 ≤ x.1.sem.resource_count + n ∧ x.1.sem.resource_count + n < 2 ^ 31))
  | .wait _ wait_ms => inferInstanceAs (Decidable (wait_ms ≠ 0 → x.1.sem.wait_queue.length + 1 < 2 ^ 32))
  | .timeout _ | .kill _ | .handler | .turn => inferInstanceAs (Decidable True)

/-! ## The queue and the threads in it -/

/-- The queue holds the threads that wait, each with a timer and a cleanup. -/
structure Queued (addr : Nat) (s : State) : Prop where
  counted : s.sem.wait_count = s.sem.wait_queue.length
  short : s.sem.wait_queue.length < 2 ^ 32
  nodup : s.sem.wait_queue.Nodup
  data : ∀ who ∈ s.sem.wait_queue, (s.co who).data = addr
  timer : ∀ who, (s.co who).data = addr → ((s.co who).timer_set = true ↔ who ∈ s.sem.wait_queue)
  cleanup : ∀ who, (s.co who).data = addr → ((s.co who).cleanup = true ↔ who ∈ s.sem.wait_queue)

variable {addr : Nat} {s s' : State} {a : Account} {who : Nat}

/-- Only the queue, its length and the threads matter. -/
theorem Queued.congr (h : Queued addr s) (hqueue : s'.sem.wait_queue = s.sem.wait_queue)
    (hcount : s'.sem.wait_count = s.sem.wait_count) (hco : s'.co = s.co) : Queued addr s' := by
  obtain ⟨hcounted, hshort, hnodup, hdata, htimer, hcleanup⟩ := h
  constructor
  · rw [hcount, hqueue, hcounted]
  · rw [hqueue]
    exact hshort
  · rw [hqueue]
    exact hnodup
  · rw [hqueue, hco]
    exact hdata
  · rw [hqueue, hco]
    exact htimer
  · rw [hqueue, hco]
    exact hcleanup

/-- A thread that waits leaves the queue. -/
theorem Queued.leave (h : Queued addr s) (hwho : who ∈ s.sem.wait_queue) :
    Queued addr ({ s with sem := s.sem.leave who }.setCo who
      { s.co who with timer_set := false, cleanup := false }) := by
  obtain ⟨hcounted, hshort, hnodup, hdata, htimer, hcleanup⟩ := h
  have hlen := length_erase_of_mem hwho
  have hpos := length_pos_of_mem hwho
  have hmem : ∀ w, w ∈ s.sem.wait_queue.erase who ↔ w ≠ who ∧ w ∈ s.sem.wait_queue := fun w => hnodup.mem_erase_iff
  constructor
  · simp only [State.setCo, Sema.leave, hlen, hcounted]
    omega
  · simp only [State.setCo, Sema.leave, hlen]
    omega
  · exact hnodup.erase who
  · intro w hw
    simp only [State.setCo, Sema.leave, hmem] at hw ⊢
    rw [update_of_ne hw.1]
    exact hdata w hw.2
  · intro w hw
    simp only [State.setCo, Sema.leave, hmem] at hw ⊢
    by_cases hww : w = who
    · subst hww
      simp
    · rw [update_of_ne hww] at hw ⊢
      rw [htimer w hw]
      simp [hww]
  · intro w hw
    simp only [State.setCo, Sema.leave, hmem] at hw ⊢
    by_cases hww : w = who
    · subst hww
      simp
    · rw [update_of_ne hww] at hw ⊢
      rw [hcleanup w hw]
      simp [hww]

/-- A thread that does not wait joins the queue. -/
theorem Queued.join (h : Queued addr s) (hwho : (s.co who).cleanup = false)
    (hshort : s.sem.wait_queue.length + 1 < 2 ^ 32) :
    who ∉ s.sem.wait_queue ∧
      Queued addr ({ s with sem := s.sem.join who }.setCo who
        { timer_set := true, cleanup := true, data := addr }) := by
  obtain ⟨hcounted, -, hnodup, hdata, htimer, hcleanup⟩ := h
  have hnot : who ∉ s.sem.wait_queue := by
    intro hmem
    rw [(hcleanup who (hdata who hmem)).mpr hmem] at hwho
    cases hwho
  have hmem : ∀ w, w ∈ s.sem.wait_queue ++ [who] ↔ w ∈ s.sem.wait_queue ∨ w = who := by simp
  refine ⟨hnot, ?_⟩
  constructor
  · simp only [State.setCo, Sema.join, length_append, length_singleton, hcounted]
    omega
  · simpa [State.setCo, Sema.join] using hshort
  · simp only [State.setCo, Sema.join]
    exact nodup_append.mpr ⟨hnodup, by simp, fun w hw v hv h => hnot (by simp at hv; rwa [← hv, ← h])⟩
  · intro w hw
    simp only [State.setCo, Sema.join, hmem] at hw ⊢
    by_cases hww : w = who
    · subst hww
      rw [update_self]
    · rw [update_of_ne hww]
      exact hdata w (hw.resolve_right hww)
  · intro w hw
    simp only [State.setCo, Sema.join, hmem] at hw ⊢
    by_cases hww : w = who
    · subst hww
      simp
    · rw [update_of_ne hww] at hw ⊢
      rw [htimer w hw]
      simp [hww]
  · intro w hw
    simp only [State.setCo, Sema.join, hmem] at hw ⊢
    by_cases hww : w = who
    · subst hww
      simp
    · rw [update_of_ne hww] at hw ⊢
      rw [hcleanup w hw]
      simp [hww]

/-! ## One step -/

/-- What is kept: the queue, an `int` in `resource_count`, and the promise. -/
structure Inv (addr : Nat) (x : State × Account) : Prop where
  queued : Queued addr x.1
  int : -2 ^ 31 ≤ x.1.sem.resource_count ∧ x.1.sem.resource_count < 2 ^ 31
  sound : Sound x

theorem int_of_fits {n : Int} (h : -2 ^ 31 ≤ n ∧ n < 2 ^ 31) : int n = n := by
  rw [int]
  omega

theorem inv_post (h : Inv addr (s, a)) (n : Int) (hfits : Fits (s, a) (.post n)) :
    Inv addr ({ s with sem := s.sem.post n }, a.enter (.post n) .done) := by
  obtain ⟨hqueued, -, hcounted, hconserved, hfifo, honce, hposted⟩ := h
  have hint := int_of_fits hfits
  have hcount : (s.sem.post n).resource_count = s.sem.resource_count + n := by
    rw [Sema.post]
    dsimp only
    split <;> exact hint
  have hqueue : (s.sem.post n).wait_queue = s.sem.wait_queue ∧ (s.sem.post n).wait_count = s.sem.wait_count := by
    rw [Sema.post]
    dsimp only
    split <;> exact ⟨rfl, rfl⟩
  refine ⟨hqueued.congr hqueue.1 hqueue.2 rfl, ?_, ?_, ?_, ?_, ?_, ?_⟩
  · rw [hcount]
    exact hfits
  · rw [hqueue.1, hqueue.2]
    exact hcounted
  · dsimp only [Account.enter] at hconserved ⊢
    rw [hcount, hconserved]
    omega
  · simp only [waiting, hqueue.1, Account.enter]
    exact hfifo
  · simp only [waiting, hqueue.1, Account.enter]
    exact honce
  · intro hne _
    rw [hqueue.1] at hne
    refine .inl ?_
    rw [Sema.post]
    dsimp only
    rw [if_neg hne]

/-- A thread leaves the queue without a resource. -/
theorem inv_dropped (h : Inv addr (s, a)) (hwho : who ∈ s.sem.wait_queue) :
    Inv addr ({ s with sem := s.sem.leave who }.setCo who { s.co who with timer_set := false, cleanup := false },
      { a with dropped := a.dropped ++ [a.ticket who] }) := by
  obtain ⟨hqueued, hint, hcounted, hconserved, hfifo, honce, hposted⟩ := h
  have hqueued' := hqueued.leave hwho
  have hperm : (s.sem.wait_queue.map a.ticket).Perm (a.ticket who :: (s.sem.wait_queue.erase who).map a.ticket) :=
    (perm_cons_erase hwho).map a.ticket
  refine ⟨hqueued', hint, hqueued'.counted, hconserved, ?_, ?_, ?_⟩
  · refine hfifo.sublist (Sublist.append_left ?_ _)
    exact (erase_sublist).map a.ticket
  · refine Perm.trans ?_ honce
    simp only [waiting, State.setCo, Sema.leave]
    refine Perm.trans ?_ ((hperm.symm.append_left a.served).append_right a.dropped)
    simp only [append_assoc, cons_append]
    refine Perm.append_left _ ?_
    rw [← append_assoc]
    exact perm_append_comm
  · intro hne hpos
    refine hposted ?_ hpos
    intro hnil
    rw [hnil] at hwho
    cases hwho

/-- The thread that has waited longest gets a resource. -/
theorem inv_served {queue : List Nat} (h : Inv addr (s, a)) (hrunning : s.running = true)
    (hqueue : s.sem.wait_queue = who :: queue) (hpos : 0 < s.sem.resource_count) :
    Inv addr ({ s with sem := { s.sem.leave who with resource_count := s.sem.resource_count - 1 } }.setCo who
        { s.co who with timer_set := false, cleanup := false },
      { a with served := a.served ++ [a.ticket who] }) := by
  obtain ⟨hqueued, hint, hcounted, hconserved, hfifo, honce, hposted⟩ := h
  dsimp only at hint hconserved
  have hwho : who ∈ s.sem.wait_queue := by rw [hqueue]; exact mem_cons_self
  have hqueued' := hqueued.leave hwho
  have herase : s.sem.wait_queue.erase who = queue := by rw [hqueue, erase_cons_head]
  have hwaiting : waiting (s, a) = a.ticket who :: queue.map a.ticket := by rw [waiting, hqueue, map_cons]
  rw [hwaiting] at hfifo honce
  refine ⟨hqueued'.congr rfl rfl rfl, ?_, hqueued'.counted, ?_, ?_, ?_, fun _ _ => .inr hrunning⟩
  · dsimp only [State.setCo]
    omega
  · dsimp only [State.setCo]
    rw [hconserved, length_append, length_singleton]
    omega
  · simpa only [waiting, State.setCo, Sema.leave, herase, append_assoc, singleton_append] using hfifo
  · simpa only [waiting, State.setCo, Sema.leave, herase, append_assoc, singleton_append] using honce

/-- One more call. -/
theorem perm_range_succ {l r : List Nat} {n : Nat} (h : (l ++ r).Perm (List.range n)) :
    (l ++ [n] ++ r).Perm (List.range (n + 1)) := by
  rw [range_succ]
  refine Perm.trans ?_ (h.append_right [n])
  rw [append_assoc, append_assoc]
  exact perm_append_comm.append_left l

/-- A call is served at once: nobody waits. -/
theorem inv_wait_ok (h : Inv addr (s, a)) (hnil : s.sem.wait_queue = []) (hpos : 0 < s.sem.resource_count) :
    Inv addr ({ s with sem := { s.sem with resource_count := s.sem.resource_count - 1 } },
      { a with calls := a.calls + 1, served := a.served ++ [a.calls] }) := by
  obtain ⟨hqueued, hint, hcounted, hconserved, hfifo, honce, hposted⟩ := h
  dsimp only at hint hconserved
  have hwaiting : waiting (s, a) = [] := by rw [waiting, hnil, map_nil]
  rw [hwaiting, append_nil] at hfifo honce
  refine ⟨hqueued.congr rfl rfl rfl, ?_, hcounted, ?_, ?_, ?_, fun hne _ => absurd hnil hne⟩
  · dsimp only
    omega
  · dsimp only
    rw [hconserved, length_append, length_singleton]
    omega
  · have hlt : ∀ n ∈ a.served, n < a.calls := fun n hn =>
      List.mem_range.mp (honce.mem_iff.mp (mem_append_left _ hn))
    rw [show waiting (_, _) = [] by rw [waiting, hnil, map_nil], append_nil]
    exact pairwise_append.mpr ⟨hfifo, pairwise_singleton _ _, by simpa using hlt⟩
  · rw [show waiting (_, _) = [] by rw [waiting, hnil, map_nil], append_nil]
    exact perm_range_succ honce

theorem inv_wait_declined (h : Inv addr (s, a)) :
    Inv addr (s, { a with calls := a.calls + 1, dropped := a.dropped ++ [a.calls] }) := by
  obtain ⟨hqueued, hint, hcounted, hconserved, hfifo, honce, hposted⟩ := h
  refine ⟨hqueued, hint, hcounted, hconserved, hfifo, ?_, hposted⟩
  rw [← append_nil (_ ++ waiting (s, a) ++ a.dropped)] at honce
  have hmore := perm_range_succ honce
  rw [append_nil, append_assoc] at hmore
  exact hmore

/-- A call has to wait, behind all others. -/
theorem inv_wait_again (h : Inv addr (s, a)) (hwho : (s.co who).cleanup = false)
    (hmust : ¬ (s.sem.wait_queue = [] ∧ 0 < s.sem.resource_count)) (hshort : s.sem.wait_queue.length + 1 < 2 ^ 32) :
    Inv addr ({ s with sem := s.sem.join who }.setCo who { timer_set := true, cleanup := true, data := addr },
      { a with calls := a.calls + 1, ticket := update a.ticket who a.calls }) := by
  obtain ⟨hqueued, hint, hcounted, hconserved, hfifo, honce, hposted⟩ := h
  obtain ⟨hnot, hqueued'⟩ := hqueued.join hwho hshort
  have hwaiting : (s.sem.wait_queue ++ [who]).map (update a.ticket who a.calls) =
      waiting (s, a) ++ [a.calls] := by
    rw [map_append, map_singleton, update_self, waiting]
    refine congrArg (· ++ [a.calls]) (map_congr_left fun w hw => ?_)
    exact update_of_ne (ne_of_mem_of_not_mem hw hnot) _ _
  have hlt : ∀ n ∈ a.served ++ waiting (s, a), n < a.calls := fun n hn =>
    List.mem_range.mp (honce.mem_iff.mp (mem_append_left _ hn))
  refine ⟨hqueued', hint, hqueued'.counted, hconserved, ?_, ?_, ?_⟩
  · simp only [waiting, State.setCo, Sema.join] at hwaiting hlt ⊢
    rw [hwaiting, ← append_assoc]
    exact pairwise_append.mpr ⟨hfifo, pairwise_singleton _ _, fun n hn m hm => by
      rw [mem_singleton.mp hm]
      exact hlt n hn⟩
  · simp only [waiting, State.setCo, Sema.join, hwaiting]
    rw [← append_assoc]
    exact perm_range_succ honce
  · intro _ hpos
    refine hposted (fun hnil => hmust ⟨hnil, hpos⟩) hpos

/-- **Every step keeps the promise**, when no counter overflows. -/
theorem inv_step {x x' : State × Account} {e : Event} (h : Inv addr x) (hstep : enterStep addr x e = some x')
    (hfits : Fits x e) : Inv addr x' := by
  obtain ⟨s, a⟩ := x
  obtain ⟨⟨s', o⟩, hs', rfl⟩ := Option.map_eq_some_iff.mp hstep
  cases e with
  | post n =>
    cases hs'
    exact inv_post h n hfits
  | wait who wait_ms =>
    simp only [step] at hs'
    split at hs'
    · cases hs'
    · next hidle =>
      simp only [State.wait] at hs'
      split at hs'
      · next hfree =>
        cases hs'
        exact inv_wait_ok h hfree.1 hfree.2
      · next hmust =>
        split at hs'
        · cases hs'
          exact inv_wait_declined h
        · next hms =>
          cases hs'
          exact inv_wait_again h (by simpa using hidle) hmust (hfits hms)
  | timeout who =>
    simp only [step] at hs'
    split at hs'
    · next hset =>
      cases hs'
      exact inv_dropped h ((h.queued.timer who hset.2.1).mp hset.1)
    · cases hs'
  | kill who =>
    simp only [step] at hs'
    split at hs'
    · next hset =>
      cases hs'
      exact inv_dropped h ((h.queued.cleanup who hset.2).mp hset.1)
    · cases hs'
  | handler =>
    simp only [step] at hs'
    split at hs'
    · cases hs'
      obtain ⟨hqueued, hint, hcounted, hconserved, hfifo, honce, hposted⟩ := h
      exact ⟨hqueued.congr rfl rfl rfl, hint, hcounted, hconserved, hfifo, honce, fun _ _ => .inr rfl⟩
    · cases hs'
  | turn =>
    simp only [step] at hs'
    split at hs'
    · next hrunning =>
      simp only [State.turn] at hs'
      split at hs'
      · next hqueue =>
        split at hs'
        · next hpos =>
          cases hs'
          exact inv_served h hrunning hqueue hpos
        · next hnone =>
          cases hs'
          obtain ⟨hqueued, hint, hcounted, hconserved, hfifo, honce, hposted⟩ := h
          exact ⟨hqueued.congr rfl rfl rfl, hint, hcounted, hconserved, hfifo, honce, fun _ hpos => absurd hpos hnone⟩
      · next hnil =>
        cases hs'
        obtain ⟨hqueued, hint, hcounted, hconserved, hfifo, honce, hposted⟩ := h
        exact ⟨hqueued.congr rfl rfl rfl, hint, hcounted, hconserved, hfifo, honce, fun hne _ => absurd hnil hne⟩
    · cases hs'

/-- A counter that overflows breaks the promise. -/
theorem fits_of_sound {x x' : State × Account} {e : Event} (h : Inv addr x) (hstep : enterStep addr x e = some x')
    (hsound : Sound x') : Fits x e := by
  obtain ⟨s, a⟩ := x
  obtain ⟨⟨s', o⟩, hs', rfl⟩ := Option.map_eq_some_iff.mp hstep
  cases e with
  | post n =>
    cases hs'
    have hbefore := h.sound.conserved
    have hafter := hsound.conserved
    have hcount : (s.sem.post n).resource_count = int (s.sem.resource_count + n) := by
      rw [Sema.post]
      dsimp only
      split <;> rfl
    dsimp only [Account.enter] at hbefore hafter
    rw [hcount, int] at hafter
    unfold Fits
    dsimp only
    omega
  | wait who wait_ms =>
    intro hms
    have hshort := h.queued.short
    have hbefore := h.sound.counted
    have hafter := hsound.counted
    dsimp only at hshort hbefore hafter ⊢
    by_cases hnil : s.sem.wait_queue = []
    · rw [hnil]
      decide
    · simp only [step] at hs'
      split at hs'
      · cases hs'
      · rw [State.wait, if_neg (fun hfree => hnil hfree.1), if_neg hms] at hs'
        cases hs'
        simp only [State.setCo, Sema.join, length_append, length_singleton] at hafter
        omega
  | timeout who => trivial
  | kill who => trivial
  | handler => trivial
  | turn => trivial

/-! ## Every run -/

/-- A new semaphore, and the books on it. -/
def start (n : Int) (co : Nat → CoCtx) : State × Account := ({ sem := .new n, co, running := false }, .new n)

theorem inv_start {n : Int} {co : Nat → CoCtx} (hn : -2 ^ 31 ≤ n ∧ n < 2 ^ 31)
    (hco : ∀ who, (co who).data = addr → (co who).timer_set = false ∧ (co who).cleanup = false) :
    Inv addr (start n co) where
  queued :=
    { counted := rfl
      short := Nat.two_pow_pos 32
      nodup := nodup_nil
      data := by simp [start, Sema.new]
      timer := fun who hwho => by simp [start, Sema.new, hco who hwho]
      cleanup := fun who hwho => by simp [start, Sema.new, hco who hwho] }
  int := hn
  sound :=
    { counted := rfl
      conserved := by simp [start, Sema.new, Account.new]
      fifo := List.Pairwise.nil
      once := Perm.refl _
      posted := fun hne => absurd rfl hne }

/-- **A semaphore keeps its promise in every order of events exactly as long
as no counter overflows.** -/
theorem semaphore_sound_iff (addr : Nat) {n : Int} (hn : -2 ^ 31 ≤ n ∧ n < 2 ^ 31) {co : Nat → CoCtx}
    (hco : ∀ who, (co who).data = addr → (co who).timer_set = false ∧ (co who).cleanup = false)
    (events : List Event) :
    Always (enterStep addr) Sound (start n co) events ↔ Along (enterStep addr) Fits (start n co) events :=
  always_iff_along (fun _ h => Inv.sound h) (fun _ _ _ h hstep hfits => inv_step h hstep hfits)
    (fun _ _ _ h hstep hsound => fits_of_sound h hstep hsound) (inv_start hn hco)

/-- Two threads wait, one is killed, and the other gets what is posted. -/
theorem semaphore_sound_two :
    Always (enterStep 1) Sound (start 0 fun _ => ⟨false, false, 0⟩)
      [.wait 5 100, .wait 6 100, .post 1, .kill 5, .handler, .turn, .turn] := by
  refine (semaphore_sound_iff 1 (by decide) (fun _ h => absurd h (by decide)) _).mpr ?_
  intro s₁ h₁; cases h₁; refine ⟨by decide, ?_⟩
  intro s₂ h₂; cases h₂; refine ⟨by decide, ?_⟩
  intro s₃ h₃; cases h₃; refine ⟨by decide, ?_⟩
  intro s₄ h₄; cases h₄; refine ⟨by decide, ?_⟩
  intro s₅ h₅; cases h₅; refine ⟨by decide, ?_⟩
  intro s₆ h₆; cases h₆; refine ⟨by decide, ?_⟩
  intro s₇ h₇; cases h₇; exact ⟨by decide, trivial⟩

/-- A post on a semaphore with as many resources as an `int` holds. -/
theorem semaphore_overflow :
    ¬ ∀ (n : Int) (events : List Event), -2 ^ 31 ≤ n ∧ n < 2 ^ 31 →
      Always (enterStep 1) Sound (start n fun _ => ⟨false, false, 0⟩) events := by
  intro h
  have hsound := ((h 2147483647 [.post 1] (by decide)).2 _ rfl).here.conserved
  revert hsound
  decide

end OpenResty.NgxLua.Semaphore
