/-
`kong.plugins.galileo.buffer`: the queue of ALFs that wait to be sent to the
collector, and the timer that sends them one by one.

Every ALF that is flushed has a number, and what becomes of it is written down
beside the buffer. A handler of the send timer ends in one step, with what the
connection, the handshake, the request and the response came to.
-/
import Mathlib.Algebra.Order.Ring.Nat
import Mathlib.Data.List.Nodup
import OpenResty.Lib.Transition

namespace OpenResty.Kong.GalileoBuffer

open Lib.Transition Prod
open List hiding getElem?_eq_some_iff

def _buffer_max_mb : Nat := 200

def _buffer_max_size : Nat := _buffer_max_mb * 2 ^ 20

def _retry_max_delay : Nat := 60

/-- A serialized ALF, which is a JSON object. -/
structure AlfJson where
  bytes : List UInt8
  nonempty : bytes ≠ []

structure Conf where
  https : Bool
  retry_count : Nat
  /-- in milliseconds -/
  flush_timeout : Nat
  queue_size : Nat

/-- An element of the sending queue. -/
structure Alf where
  id : Nat
  payload : AlfJson
  retries : Nat

structure SendTimer where
  to_send : Alf
  delay : Nat

/-- Why an ALF is no longer kept. -/
inductive Reason
  /-- the collector answered with no error -/
  | accepted
  | refused
  | retried
  | full

structure Buffer where
  now : Nat
  /-- the entries of `cur_alf` -/
  entries : Nat
  sending_queue : List Alf
  sending_queue_size : Int
  /-- `none` for `math.huge` -/
  last_t : Option Nat
  timer_flush_pending : Bool
  timer_send_pending : Bool
  /-- how many delayed flush timers there are -/
  flush_timers : Nat
  /-- the send timers that are pending or running -/
  send_timers : List SendTimer
  retry_delay_idx : Nat
  /-- how many ALFs have been flushed -/
  flushed : Nat
  removed : List (Nat × Reason)

def new (now : Nat) : Buffer where
  now                 := now
  entries             := 0
  sending_queue       := []
  sending_queue_size  := 0
  last_t              := none
  timer_flush_pending := false
  timer_send_pending  := false
  flush_timers        := 0
  send_timers         := []
  retry_delay_idx     := 1
  flushed             := 0
  removed             := []

/-- What a handler of the send timer came to. -/
inductive Outcome
  | connectFailed
  | handshakeFailed
  | requestFailed
  | response (status : Nat)
  deriving DecidableEq

namespace Buffer

def createDelayedTimer (self : Buffer) : Buffer :=
  { self with flush_timers := self.flush_timers + 1, timer_flush_pending := true }

def createSendTimer (self : Buffer) (to_send : Alf) (delay : Nat) : Buffer :=
  { self with send_timers := self.send_timers ++ [{ to_send, delay }], timer_send_pending := true }

/-- Takes the oldest ALF of the queue, when no timer is sending. -/
def send (self : Buffer) : Buffer :=
  match self.sending_queue with
  | [] => self
  | to_send :: sending_queue =>
    if self.timer_send_pending then self else ({ self with sending_queue }).createSendTimer to_send 1

/-- With what `serialize` returned, if it did. Returns whether the ALF is queued. -/
def flush (self : Buffer) (alf_json : Option AlfJson) : Buffer × Bool :=
  let self := { self with entries := 0 }
  match alf_json with
  | none => (self, false)
  | some alf_json =>
    if self.sending_queue_size + alf_json.bytes.length > _buffer_max_size then
      ({ self with flushed := self.flushed + 1, removed := self.removed ++ [(self.flushed, .full)] }, false)
    else
      (send
        { self with
          sending_queue_size := self.sending_queue_size + alf_json.bytes.length
          sending_queue      := self.sending_queue ++ [{ id := self.flushed, payload := alf_json, retries := 0 }]
          flushed            := self.flushed + 1 }, true)

/-- Where the serializer does not take the entry, nothing happens. -/
def add_entry (conf : Conf) (self : Buffer) (ok : Bool) (alf_json : Option AlfJson) : Buffer :=
  if !ok then self
  else
    let self := { self with entries := self.entries + 1 }
    if self.entries ≥ conf.queue_size then
      let (self, ok) := self.flush alf_json
      if ok then { self with last_t := some self.now } else self
    else
      let self := if !self.timer_flush_pending then self.createDelayedTimer else self
      { self with last_t := some self.now }

/-- The handler of the delayed flush timer. -/
def delayedFlush (conf : Conf) (self : Buffer) (alf_json : Option AlfJson) : Buffer :=
  let self := { self with flush_timers := self.flush_timers - 1 }
  match self.last_t with
  | none => self.createDelayedTimer
  | some last_t =>
    if self.now - last_t < conf.flush_timeout then self.createDelayedTimer
    else { (self.flush alf_json).1 with timer_flush_pending := false }

/-- The end of the handler: more to send, or not. -/
def sendNext (self : Buffer) (next_retry_delay : Nat) : Buffer :=
  match self.sending_queue with
  | to_send :: sending_queue => ({ self with sending_queue }).createSendTimer to_send next_retry_delay
  | [] => { self with timer_send_pending := false }

/-- The ALF is tried again later, or dropped. -/
def retry (conf : Conf) (self : Buffer) (to_send : Alf) : Buffer :=
  let retry_delay_idx := self.retry_delay_idx + 1
  let to_send := { to_send with retries := to_send.retries + 1 }
  let self := { self with retry_delay_idx }
  let self :=
    if to_send.retries < conf.retry_count then { self with sending_queue := self.sending_queue ++ [to_send] }
    else { self with removed := self.removed ++ [(to_send.id, .retried)] }
  self.sendNext (min _retry_max_delay (retry_delay_idx ^ 2))

/-- The ALF was sent or discarded. -/
def success (self : Buffer) (to_send : Alf) (reason : Reason) : Buffer :=
  ({ self with
    retry_delay_idx    := 1
    sending_queue_size := self.sending_queue_size - to_send.payload.bytes.length
    removed            := self.removed ++ [(to_send.id, reason)] }).sendNext 1

/-- The handler of a send timer that has fired. -/
def sent (conf : Conf) (self : Buffer) (to_send : Alf) : Outcome → Buffer
  | .connectFailed | .requestFailed => self.retry conf to_send
  | .handshakeFailed => self
  | .response status =>
    if status ≥ 400 ∧ status < 500 then self.success to_send .refused
    else if status ≥ 500 then self.retry conf to_send
    else self.success to_send .accepted

end Buffer

inductive Event
  | tick (milliseconds : Nat)
  | addEntry (ok : Bool) (alf_json : Option AlfJson)
  | flush (alf_json : Option AlfJson)
  | send
  | delayedFlush (alf_json : Option AlfJson)
  /-- the handler of a send timer ends -/
  | sent (i : Nat) (outcome : Outcome)

def step (conf : Conf) (s : Buffer) : Event → Option Buffer
  | .tick milliseconds => some { s with now := s.now + milliseconds }
  | .addEntry ok alf_json => some (s.add_entry conf ok alf_json)
  | .flush alf_json => some (s.flush alf_json).1
  | .send => some s.send
  | .delayedFlush alf_json => if 0 < s.flush_timers then some (s.delayedFlush conf alf_json) else none
  | .sent i outcome =>
    match s.send_timers[i]? with
    | some timer =>
      -- there is a handshake with https only
      if outcome = .handshakeFailed ∧ !conf.https then none
      else some (({ s with send_timers := s.send_timers.eraseIdx i }).sent conf timer.to_send outcome)
    | none => none

/-- The ALFs in flight and in the queue. -/
def Buffer.line (s : Buffer) : List Alf := s.send_timers.map SendTimer.to_send ++ s.sending_queue

def total (alfs : List Alf) : Nat := (alfs.map fun alf => alf.payload.bytes.length).sum

structure Right (s : Buffer) : Prop where
  size : s.sending_queue_size = total s.line
  sending : s.sending_queue ≠ [] → s.send_timers ≠ []
  /-- every flushed ALF is in flight, in the queue or removed, and only once -/
  alfs : Perm (s.line.map Alf.id ++ s.removed.map fst) (List.range s.flushed)

/-- No handshake fails, and no ALF has been tried as often as it may be. -/
def Careful (conf : Conf) (s : Buffer) : Event → Prop
  | .sent i outcome =>
    outcome ≠ .handshakeFailed ∧
      ∀ timer, s.send_timers[i]? = some timer →
        (outcome = .connectFailed ∨ outcome = .requestFailed ∨ ∃ status, outcome = .response status ∧ status ≥ 500) →
          timer.to_send.retries + 1 < conf.retry_count
  | _ => True

/-! ## What a step does to the line -/

theorem total_append (l m : List Alf) : total (l ++ m) = total l + total m := by simp [total]

/-- A send timer has its flag, and without one nothing is queued. -/
def Shape (s : Buffer) : Prop :=
  s.timer_send_pending = true ∧ (∃ timer, s.send_timers = [timer]) ∨
    s.timer_send_pending = false ∧ s.send_timers = [] ∧ s.sending_queue = []

/-- The two differ only in what does not concern the ALFs. -/
structure SameAlfs (s s' : Buffer) : Prop where
  queue : s'.sending_queue = s.sending_queue
  timers : s'.send_timers = s.send_timers
  pending : s'.timer_send_pending = s.timer_send_pending
  size : s'.sending_queue_size = s.sending_queue_size
  flushed : s'.flushed = s.flushed
  removed : s'.removed = s.removed

/-- A step that does not hear from the collector, by what it does to the ALFs. -/
inductive Quiet (s s' : Buffer) : Prop
  | same (h : SameAlfs s s')
  | full (hqueue : s'.sending_queue = s.sending_queue) (htimers : s'.send_timers = s.send_timers)
      (hpending : s'.timer_send_pending = s.timer_send_pending) (hsize : s'.sending_queue_size = s.sending_queue_size)
      (hflushed : s'.flushed = s.flushed + 1) (hremoved : s'.removed = s.removed ++ [(s.flushed, .full)])
  | queued (alf : Alf) (hid : alf.id = s.flushed) (hshape : Shape s') (hline : s'.line = s.line ++ [alf])
      (hsize : s'.sending_queue_size = s.sending_queue_size + alf.payload.bytes.length)
      (hmax : s'.sending_queue_size ≤ _buffer_max_size) (hflushed : s'.flushed = s.flushed + 1)
      (hremoved : s'.removed = s.removed)

variable {conf : Conf} {s s' s'' : Buffer}

theorem SameAlfs.refl (s : Buffer) : SameAlfs s s := ⟨rfl, rfl, rfl, rfl, rfl, rfl⟩

theorem SameAlfs.line (h : SameAlfs s s') : s'.line = s.line := by
  rw [Buffer.line, Buffer.line, h.queue, h.timers]

theorem SameAlfs.shape (h : SameAlfs s s') (hs : Shape s) : Shape s' := by
  unfold Shape
  rw [h.queue, h.timers, h.pending]
  exact hs

theorem Quiet.comp (hsame : SameAlfs s s') (h : Quiet s' s'') : Quiet s s'' := by
  cases h with
  | same h =>
    exact .same
      { queue   := h.queue.trans hsame.queue
        timers  := h.timers.trans hsame.timers
        pending := h.pending.trans hsame.pending
        size    := h.size.trans hsame.size
        flushed := h.flushed.trans hsame.flushed
        removed := h.removed.trans hsame.removed }
  | full hqueue htimers hpending hsize hflushed hremoved =>
    exact .full (hqueue.trans hsame.queue) (htimers.trans hsame.timers) (hpending.trans hsame.pending)
      (hsize.trans hsame.size) (by rw [hflushed, hsame.flushed]) (by rw [hremoved, hsame.removed, hsame.flushed])
  | queued alf hid hshape hline hsize hmax hflushed hremoved =>
    exact .queued alf (hid.trans hsame.flushed) hshape (by rw [hline, hsame.line]) (by rw [hsize, hsame.size]) hmax
      (by rw [hflushed, hsame.flushed]) (hremoved.trans hsame.removed)

theorem Quiet.then (h : Quiet s s') (hsame : SameAlfs s' s'') : Quiet s s'' := by
  cases h with
  | same h => exact Quiet.comp h (.same hsame)
  | full hqueue htimers hpending hsize hflushed hremoved =>
    exact .full (hsame.queue.trans hqueue) (hsame.timers.trans htimers) (hsame.pending.trans hpending)
      (hsame.size.trans hsize) (hsame.flushed.trans hflushed) (hsame.removed.trans hremoved)
  | queued alf hid hshape hline hsize hmax hflushed hremoved =>
    exact .queued alf hid (hsame.shape hshape) (hsame.line.trans hline) (hsame.size.trans hsize)
      (by rw [hsame.size]; exact hmax) (hsame.flushed.trans hflushed) (hsame.removed.trans hremoved)

theorem send_size (s : Buffer) : s.send.sending_queue_size = s.sending_queue_size := by
  unfold Buffer.send
  split
  · rfl
  · split <;> rfl

theorem send_flushed (s : Buffer) : s.send.flushed = s.flushed := by
  unfold Buffer.send
  split
  · rfl
  · split <;> rfl

theorem send_removed (s : Buffer) : s.send.removed = s.removed := by
  unfold Buffer.send
  split
  · rfl
  · split <;> rfl

theorem Shape.send (h : Shape s) : s.send = s := by
  unfold Buffer.send
  rcases h with ⟨hpending, -⟩ | ⟨-, -, hqueue⟩
  · split
    · rfl
    · rw [if_pos hpending]
  · rw [hqueue]

/-- An ALF that is put in the queue is taken at once, when no timer is sending. -/
theorem Shape.send_queued (h : Shape s) (alf : Alf) :
    Shape ({ s with sending_queue := s.sending_queue ++ [alf] } : Buffer).send ∧
      ({ s with sending_queue := s.sending_queue ++ [alf] } : Buffer).send.line = s.line ++ [alf] := by
  rcases h with ⟨hpending, timer, htimer⟩ | ⟨hpending, htimers, hqueue⟩
  · have hsend : ({ s with sending_queue := s.sending_queue ++ [alf] } : Buffer).send =
        { s with sending_queue := s.sending_queue ++ [alf] } :=
      Shape.send (.inl ⟨hpending, timer, htimer⟩)
    rw [hsend]
    exact ⟨.inl ⟨hpending, timer, htimer⟩, by simp [Buffer.line]⟩
  · have hsend : ({ s with sending_queue := s.sending_queue ++ [alf] } : Buffer).send =
        ({ s with sending_queue := [] } : Buffer).createSendTimer alf 1 := by
      simp [Buffer.send, hqueue, hpending]
    rw [hsend]
    exact ⟨.inl ⟨rfl, ⟨alf, 1⟩, by simp [Buffer.createSendTimer, htimers]⟩,
      by simp [Buffer.line, Buffer.createSendTimer, htimers, hqueue]⟩

theorem Shape.flush (h : Shape s) (alf_json : Option AlfJson) : Quiet s (s.flush alf_json).1 := by
  unfold Buffer.flush
  cases alf_json with
  | none => exact .same ⟨rfl, rfl, rfl, rfl, rfl, rfl⟩
  | some alf_json =>
    simp only
    split
    · exact .full rfl rfl rfl rfl rfl rfl
    · next hmax =>
      obtain ⟨hshape, hline⟩ := Shape.send_queued
        (s := { s with entries := 0, sending_queue_size := s.sending_queue_size + alf_json.bytes.length, flushed := s.flushed + 1 })
        h { id := s.flushed, payload := alf_json, retries := 0 }
      exact .queued _ rfl hshape hline (send_size _) (by rw [send_size]; exact Int.not_lt.mp hmax) (send_flushed _)
        (send_removed _)

theorem Shape.add_entry (h : Shape s) (ok : Bool) (alf_json : Option AlfJson) :
    Quiet s (s.add_entry conf ok alf_json) := by
  unfold Buffer.add_entry
  split
  · exact .same (.refl s)
  · simp only
    split
    · have hflush := Shape.flush (s := { s with entries := s.entries + 1 }) h alf_json
      refine Quiet.comp (show SameAlfs s { s with entries := s.entries + 1 } from ⟨rfl, rfl, rfl, rfl, rfl, rfl⟩) ?_
      split
      · exact hflush.then ⟨rfl, rfl, rfl, rfl, rfl, rfl⟩
      · exact hflush
    · split <;> exact .same ⟨rfl, rfl, rfl, rfl, rfl, rfl⟩

theorem Shape.delayedFlush (h : Shape s) (alf_json : Option AlfJson) :
    Quiet s (s.delayedFlush conf alf_json) := by
  unfold Buffer.delayedFlush
  simp only
  split
  · exact .same ⟨rfl, rfl, rfl, rfl, rfl, rfl⟩
  · split
    · exact .same ⟨rfl, rfl, rfl, rfl, rfl, rfl⟩
    · have hflush := Shape.flush (s := { s with flush_timers := s.flush_timers - 1 }) h alf_json
      refine Quiet.comp (show SameAlfs s { s with flush_timers := s.flush_timers - 1 } from ⟨rfl, rfl, rfl, rfl, rfl, rfl⟩) ?_
      exact hflush.then ⟨rfl, rfl, rfl, rfl, rfl, rfl⟩

/-- The end of a handler that was sending `x`, by what it does to the ALFs. -/
inductive Heard (conf : Conf) (s s' : Buffer) (e : Event) (x : Alf) (rest : List Alf) : Prop
  | success (reason : Reason) (hcareful : Careful conf s e) (hshape : Shape s') (hline : s'.line = rest)
      (hsize : s'.sending_queue_size = s.sending_queue_size - x.payload.bytes.length)
      (hflushed : s'.flushed = s.flushed) (hremoved : s'.removed = s.removed ++ [(x.id, reason)])
  | retried (hcareful : Careful conf s e) (hshape : Shape s')
      (hline : s'.line = rest ++ [{ x with retries := x.retries + 1 }])
      (hsize : s'.sending_queue_size = s.sending_queue_size) (hflushed : s'.flushed = s.flushed)
      (hremoved : s'.removed = s.removed) (hlt : x.retries + 1 < conf.retry_count)
  | dropped (hcareful : ¬Careful conf s e) (hline : s'.line = rest)
      (hsize : s'.sending_queue_size = s.sending_queue_size)
  | lost (hcareful : ¬Careful conf s e) (hline : s'.line = rest) (hflushed : s'.flushed = s.flushed)
      (hremoved : s'.removed = s.removed)

/-- The next ALF of the queue is sent by a timer of its own. -/
theorem sendNext_spec (h : s.send_timers = []) (delay : Nat) :
    Shape (s.sendNext delay) ∧ (s.sendNext delay).line = s.sending_queue ∧
      (s.sendNext delay).sending_queue_size = s.sending_queue_size ∧ (s.sendNext delay).flushed = s.flushed ∧
      (s.sendNext delay).removed = s.removed := by
  unfold Buffer.sendNext
  split
  · next to_send queue hqueue =>
    exact ⟨.inl ⟨rfl, ⟨to_send, delay⟩, by simp [Buffer.createSendTimer, h]⟩,
      by simp [Buffer.line, Buffer.createSendTimer, h, hqueue], rfl, rfl, rfl⟩
  · next hqueue => exact ⟨.inr ⟨rfl, h, hqueue⟩, by simp [Buffer.line, h], rfl, rfl, rfl⟩

theorem retry_spec {i : Nat} {outcome : Outcome} {timer : SendTimer} (hi : s.send_timers[i]? = some timer)
    (hfail : outcome = .connectFailed ∨ outcome = .requestFailed ∨ ∃ status, outcome = .response status ∧ status ≥ 500) :
    Heard conf s (({ s with send_timers := [] } : Buffer).retry conf timer.to_send) (.sent i outcome) timer.to_send
      s.sending_queue := by
  have houtcome : outcome ≠ .handshakeFailed := by
    rintro rfl
    simp at hfail
  unfold Buffer.retry
  simp only
  split
  · next hlt =>
    obtain ⟨hshape, hline, hsize, hflushed, hremoved⟩ := sendNext_spec
      (s := { s with
        send_timers     := []
        retry_delay_idx := s.retry_delay_idx + 1
        sending_queue   := s.sending_queue ++ [{ timer.to_send with retries := timer.to_send.retries + 1 }] })
      rfl (min _retry_max_delay ((s.retry_delay_idx + 1) ^ 2))
    refine .retried ⟨houtcome, fun timer' hi' _ => ?_⟩ hshape hline hsize hflushed hremoved hlt
    rw [hi] at hi'
    cases hi'
    exact hlt
  · next hlt =>
    obtain ⟨-, hline, hsize, -, -⟩ := sendNext_spec
      (s := { s with
        send_timers     := []
        retry_delay_idx := s.retry_delay_idx + 1
        removed         := s.removed ++ [(timer.to_send.id, .retried)] })
      rfl (min _retry_max_delay ((s.retry_delay_idx + 1) ^ 2))
    exact .dropped (fun hcareful => hlt (hcareful.2 timer hi hfail)) hline hsize

theorem success_spec {i status : Nat} {timer : SendTimer} (hstatus : status < 500) (reason : Reason) :
    Heard conf s (({ s with send_timers := [] } : Buffer).success timer.to_send reason) (.sent i (.response status))
      timer.to_send s.sending_queue := by
  obtain ⟨hshape, hline, hsize, hflushed, hremoved⟩ := sendNext_spec
    (s := { s with
      send_timers        := []
      retry_delay_idx    := 1
      sending_queue_size := s.sending_queue_size - timer.to_send.payload.bytes.length
      removed            := s.removed ++ [(timer.to_send.id, reason)] })
    rfl 1
  refine .success reason ⟨by simp, fun timer' _ hfail => ?_⟩ hshape hline hsize hflushed hremoved
  simp only [reduceCtorEq, false_or, Outcome.response.injEq, exists_eq_left'] at hfail
  omega

theorem Shape.sent (h : Shape s) {i : Nat} {outcome : Outcome} (hstep : step conf s (.sent i outcome) = some s') :
    ∃ x rest, s.line = x :: rest ∧ Heard conf s s' (.sent i outcome) x rest := by
  simp only [step] at hstep
  split at hstep
  · next timer hi =>
    split at hstep
    · cases hstep
    · cases hstep
      obtain ⟨-, timer', htimer⟩ | ⟨-, htimers, -⟩ := h
      · have hzero : i = 0 ∧ timer' = timer := by
          rw [htimer] at hi
          obtain ⟨hlt, heq⟩ := List.getElem?_eq_some_iff.mp hi
          have hzero : i = 0 := by simpa using hlt
          subst hzero
          exact ⟨rfl, heq⟩
        obtain ⟨rfl, rfl⟩ := hzero
        refine ⟨timer'.to_send, s.sending_queue, by simp [Buffer.line, htimer], ?_⟩
        rw [htimer, eraseIdx_cons_zero]
        unfold Buffer.sent
        cases outcome with
        | connectFailed => exact retry_spec hi (.inl rfl)
        | requestFailed => exact retry_spec hi (.inr (.inl rfl))
        | handshakeFailed =>
          exact .lost (fun hcareful => hcareful.1 rfl) (by simp [Buffer.line]) rfl rfl
        | response status =>
          simp only
          split
          · next hstatus => exact success_spec hstatus.2 .refused
          · split
            · next hstatus => exact retry_spec hi (.inr (.inr ⟨status, rfl, hstatus⟩))
            · next hstatus => exact success_spec (by omega) .accepted
      · rw [htimers] at hi
        cases hi
  · cases hstep

/-! ## What holds as long as nothing is lost -/

structure Inv (s : Buffer) : Prop where
  right : Right s
  shape : Shape s
  max : s.sending_queue_size ≤ _buffer_max_size

theorem Shape.sending (h : Shape s) : s.sending_queue ≠ [] → s.send_timers ≠ [] := by
  rcases h with ⟨-, timer, htimer⟩ | ⟨-, -, hqueue⟩
  · simp [htimer]
  · exact fun hne => absurd hqueue hne

theorem SameAlfs.right (h : SameAlfs s s') (hs : Right s) : Right s' where
  size := by rw [h.size, h.line, hs.size]
  sending := by rw [h.queue, h.timers]; exact hs.sending
  alfs := by rw [h.line, h.removed, h.flushed]; exact hs.alfs

theorem Quiet.inv (h : Quiet s s') (hs : Inv s) : Inv s' := by
  cases h with
  | same h => exact ⟨h.right hs.right, h.shape hs.shape, h.size ▸ hs.max⟩
  | full hqueue htimers hpending hsize hflushed hremoved =>
    have hline : s'.line = s.line := by rw [Buffer.line, Buffer.line, hqueue, htimers]
    refine ⟨⟨by rw [hsize, hline, hs.right.size], by rw [hqueue, htimers]; exact hs.right.sending, ?_⟩, ?_, hsize ▸ hs.max⟩
    · rw [hline, hremoved, hflushed, map_append, ← append_assoc, range_succ]
      exact hs.right.alfs.append_right _
    · unfold Shape
      rw [hqueue, htimers, hpending]
      exact hs.shape
  | queued alf hid hshape hline hsize hmax hflushed hremoved =>
    refine ⟨⟨?_, hshape.sending, ?_⟩, hshape, hmax⟩
    · rw [hsize, hline, total_append, hs.right.size]
      simp [total]
    · have hids : [alf].map Alf.id = [s.flushed] := by rw [map_singleton, hid]
      rw [hline, hremoved, hflushed, range_succ, map_append, append_assoc, hids]
      calc
        Perm _ (s.line.map Alf.id ++ (s.removed.map fst ++ [s.flushed])) := perm_append_comm.append_left _
        Perm _ (s.line.map Alf.id ++ s.removed.map fst ++ [s.flushed]) := by rw [append_assoc]
        Perm _ (List.range s.flushed ++ [s.flushed]) := hs.right.alfs.append_right _

variable {e : Event}

variable {rest : List Alf}

/-- The end of a handler keeps the invariant when it is careful, and is wrong at
once when it is not. -/
theorem Heard.inv {x : Alf} (h : Heard conf s s' e x rest) (hline₀ : s.line = x :: rest)
    (hs : Inv s) : (Careful conf s e → Inv s') ∧ (Right s' → Careful conf s e) := by
  have hsize₀ := hs.right.size
  have halfs := hs.right.alfs
  have hpos : 0 < x.payload.bytes.length := length_pos_of_ne_nil x.payload.nonempty
  rw [hline₀] at hsize₀ halfs
  simp only [total, map_cons, sum_cons] at hsize₀
  cases h with
  | success reason hcareful hshape hline hsize hflushed hremoved =>
    refine ⟨fun _ => ⟨⟨?_, hshape.sending, ?_⟩, hshape, ?_⟩, fun _ => hcareful⟩
    · rw [hsize, hline, total]
      omega
    · rw [hline, hremoved, hflushed, map_append]
      refine Perm.trans ?_ halfs
      exact (append_assoc _ _ _ ▸ perm_append_singleton x.id _)
    · have hmax := hs.max
      omega
  | retried hcareful hshape hline hsize hflushed hremoved =>
    refine ⟨fun _ => ⟨⟨?_, hshape.sending, ?_⟩, hshape, hsize ▸ hs.max⟩, fun _ => hcareful⟩
    · rw [hsize, hline, total_append]
      simp only [total, map_cons, map_nil, sum_cons, sum_nil]
      omega
    · rw [hline, hremoved, hflushed, map_append]
      exact ((perm_append_singleton x.id _).append_right _).trans halfs
  | dropped hcareful hline hsize =>
    refine ⟨fun h => absurd h hcareful, fun hright => ?_⟩
    have hafter := hright.size
    rw [hsize, hline, total] at hafter
    omega
  | lost hcareful hline hflushed hremoved =>
    refine ⟨fun h => absurd h hcareful, fun hright => ?_⟩
    have hbefore := halfs.length_eq
    have hafter := hright.alfs.length_eq
    rw [hline, hremoved, hflushed] at hafter
    simp only [map_cons, cons_append, length_cons, length_append, length_map] at hbefore hafter
    omega

/-- A step hears from the collector or not. -/
theorem Shape.step (h : Shape s) (hstep : GalileoBuffer.step conf s e = some s') :
    ((∀ i outcome, e ≠ .sent i outcome) ∧ Quiet s s') ∨
      ∃ i outcome x rest, e = .sent i outcome ∧ s.line = x :: rest ∧ Heard conf s s' e x rest := by
  cases e with
  | tick milliseconds =>
    cases hstep
    exact .inl ⟨nofun, .same ⟨rfl, rfl, rfl, rfl, rfl, rfl⟩⟩
  | addEntry ok alf_json =>
    cases hstep
    exact .inl ⟨nofun, h.add_entry ok alf_json⟩
  | flush alf_json =>
    cases hstep
    exact .inl ⟨nofun, h.flush alf_json⟩
  | send =>
    cases hstep
    exact .inl ⟨nofun, .same (h.send.symm ▸ .refl s)⟩
  | delayedFlush alf_json =>
    simp only [GalileoBuffer.step] at hstep
    split at hstep
    · cases hstep
      exact .inl ⟨nofun, h.delayedFlush alf_json⟩
    · cases hstep
  | sent i outcome =>
    obtain ⟨x, rest, hline, hheard⟩ := h.sent hstep
    exact .inr ⟨i, outcome, x, rest, rfl, hline, hheard⟩

theorem Inv.step (hs : Inv s) (hstep : GalileoBuffer.step conf s e = some s') :
    (Careful conf s e → Inv s') ∧ (Right s' → Careful conf s e) := by
  rcases hs.shape.step hstep with ⟨hquiet, hstep⟩ | ⟨i, outcome, x, rest, rfl, hline, hheard⟩
  · refine ⟨fun _ => hstep.inv hs, fun _ => ?_⟩
    cases e with
    | sent i outcome => exact absurd rfl (hquiet i outcome)
    | tick | addEntry | flush | send | delayedFlush => trivial
  · exact hheard.inv hline hs

/-! ## Every ALF is removed -/

/-- An ALF in the line, and a bound for how many handlers end until it is
removed. -/
def Waits (conf : Conf) (s : Buffer) (id bound : Nat) : Prop :=
  ∃ i x, s.line[i]? = some x ∧ x.id = id ∧ (conf.retry_count - x.retries) * (_buffer_max_size + 1) + i ≤ bound

def Gone (s : Buffer) (id : Nat) : Prop := id ∈ s.removed.map fst

theorem length_le_total (l : List Alf) : l.length ≤ total l := by
  induction l with
  | nil => simp
  | cons x l ih =>
    have hpos : 0 < x.payload.bytes.length := length_pos_of_ne_nil x.payload.nonempty
    simp only [total, map_cons, sum_cons, length_cons] at ih ⊢
    omega

theorem Inv.length_le (hs : Inv s) : s.line.length ≤ _buffer_max_size := by
  have hlen := length_le_total s.line
  have hmax := hs.max
  rw [hs.right.size] at hmax
  omega

theorem Waits.line {id bound : Nat} (h : Waits conf s id bound) (extra : List Alf) (hline : s'.line = s.line ++ extra) :
    Waits conf s' id bound := by
  obtain ⟨i, x, hi, hx, hbound⟩ := h
  have hlt := (List.getElem?_eq_some_iff.mp hi).1
  exact ⟨i, x, by rw [hline, getElem?_append_left hlt, hi], hx, hbound⟩

theorem Quiet.waits {id bound : Nat} (h : Quiet s s') (hw : Waits conf s id bound) : Waits conf s' id bound := by
  cases h with
  | same h => exact hw.line [] (by rw [h.line, append_nil])
  | full hqueue htimers =>
    exact hw.line [] (by rw [append_nil, Buffer.line, Buffer.line, hqueue, htimers])
  | queued alf hid hshape hline => exact hw.line [alf] hline

theorem Quiet.gone {id : Nat} (h : Quiet s s') (hg : Gone s id) : Gone s' id := by
  cases h with
  | same h => rw [Gone, h.removed]; exact hg
  | full hqueue htimers hpending hsize hflushed hremoved =>
    rw [Gone, hremoved, map_append]
    exact mem_append_left _ hg
  | queued alf hid hshape hline hsize hmax hflushed hremoved => rw [Gone, hremoved]; exact hg

/-- Where a handler ends, the first ALF is removed or goes to the end, and the
others come nearer. -/
theorem Heard.waits {x : Alf} {id bound : Nat} (h : Heard conf s s' e x rest)
    (hline₀ : s.line = x :: rest) (hs : Inv s) (hcareful : Careful conf s e) (hw : Waits conf s id bound) :
    Gone s' id ∨ ∃ less < bound, Waits conf s' id less := by
  have hlen := hs.length_le
  rw [hline₀, length_cons] at hlen
  obtain ⟨i, y, hi, hy, hbound⟩ := hw
  rw [hline₀] at hi
  cases h with
  | success reason _ hshape hline hsize hflushed hremoved =>
    cases i with
    | zero =>
      cases hi
      exact .inl (by rw [Gone, hremoved, map_append]; exact mem_append_right _ (by simp [hy]))
    | succ i => exact .inr ⟨bound - 1, by omega, i, y, by rw [hline]; exact hi, hy, by omega⟩
  | retried _ hshape hline hsize hflushed hremoved hlt =>
    cases i with
    | zero =>
      cases hi
      have hless : (conf.retry_count - (x.retries + 1)) * (_buffer_max_size + 1) + (_buffer_max_size + 1) ≤
          (conf.retry_count - x.retries) * (_buffer_max_size + 1) := by
        rw [← Nat.succ_mul]
        exact Nat.mul_le_mul_right _ (by omega)
      refine .inr ⟨bound - 1, by omega, rest.length, { x with retries := x.retries + 1 }, ?_, hy, ?_⟩
      · rw [hline, getElem?_append_right (Nat.le_refl _), Nat.sub_self]
        rfl
      · simp only
        omega
    | succ i =>
      have hi' : rest[i]? = some y := hi
      have hlt := (List.getElem?_eq_some_iff.mp hi').1
      exact .inr ⟨bound - 1, by omega, i, y, by rw [hline, getElem?_append_left hlt, hi'], hy, by omega⟩
  | dropped hnot => exact absurd hcareful hnot
  | lost hnot => exact absurd hcareful hnot

theorem Heard.gone {x : Alf} {id : Nat} (h : Heard conf s s' e x rest)
    (hcareful : Careful conf s e) (hg : Gone s id) : Gone s' id := by
  cases h with
  | success reason _ hshape hline hsize hflushed hremoved =>
    rw [Gone, hremoved, map_append]
    exact mem_append_left _ hg
  | retried _ hshape hline hsize hflushed hremoved => rw [Gone, hremoved]; exact hg
  | dropped hnot => exact absurd hcareful hnot
  | lost hnot => exact absurd hcareful hnot

/-- How many handlers of the send timer end in a run. -/
def completions : List Event → Nat
  | [] => 0
  | .sent _ _ :: es => completions es + 1
  | _ :: es => completions es

theorem Inv.gone {id : Nat} (hs : Inv s) (hstep : GalileoBuffer.step conf s e = some s')
    (hcareful : Careful conf s e) (hg : Gone s id) : Gone s' id := by
  rcases hs.shape.step hstep with ⟨-, hquiet⟩ | ⟨i, outcome, x, rest, rfl, -, hheard⟩
  · exact hquiet.gone hg
  · exact hheard.gone hcareful hg

variable {es : List Event} {id bound : Nat}

theorem Inv.run_gone (hs : Inv s) (hcareful : Along (GalileoBuffer.step conf) (Careful conf) s es)
    (hrun : run (GalileoBuffer.step conf) s es = some s') (hg : Gone s id) : Gone s' id := by
  have hkeep := always_of_along (I := fun s => Inv s ∧ Gone s id)
    (fun s e s' h hstep hok => ⟨(h.1.step hstep).1 hok, h.1.gone hstep hok h.2⟩) ⟨hs, hg⟩ hcareful
  exact (hkeep.reached hrun).2

/-- An ALF that waits is removed when as many handlers have ended as it waits for. -/
theorem Inv.run_waits (hs : Inv s) (hcareful : Along (GalileoBuffer.step conf) (Careful conf) s es)
    (hrun : run (GalileoBuffer.step conf) s es = some s') (hwaits : Waits conf s id bound)
    (hbound : bound < completions es) : Gone s' id := by
  induction es generalizing s bound with
  | nil => exact absurd hbound (Nat.not_lt_zero _)
  | cons e es ih =>
    rw [run] at hrun
    split at hrun
    · next s₁ hstep =>
      obtain ⟨hok, hrest⟩ := hcareful s₁ hstep
      have hinv := (hs.step hstep).1 hok
      rcases hs.shape.step hstep with ⟨hnot, hquiet⟩ | ⟨i, outcome, x, rest, rfl, hline, hheard⟩
      · refine ih hinv hrest hrun (hquiet.waits hwaits) ?_
        cases e with
        | sent i outcome => exact absurd rfl (hnot i outcome)
        | tick | addEntry | flush | send | delayedFlush => exact hbound
      · rcases hheard.waits hline hs hok hwaits with hgone | ⟨less, hless, hwaits'⟩
        · exact hinv.run_gone hrest hrun hgone
        · refine ih hinv hrest hrun hwaits' ?_
          simp only [completions] at hbound
          omega
    · cases hrun

/-- A flushed ALF is removed or waits. -/
theorem Inv.waits (hs : Inv s) (hid : id < s.flushed) :
    Gone s id ∨ Waits conf s id (conf.retry_count * (_buffer_max_size + 1) + _buffer_max_size) := by
  have hmem := hs.right.alfs.mem_iff.mpr (List.mem_range.mpr hid)
  rcases mem_append.mp hmem with hline | hgone
  · obtain ⟨x, hx, hxid⟩ := mem_map.mp hline
    obtain ⟨i, hi, hix⟩ := getElem_of_mem hx
    have hlen := hs.length_le
    have hretries : (conf.retry_count - x.retries) * (_buffer_max_size + 1) ≤
        conf.retry_count * (_buffer_max_size + 1) := Nat.mul_le_mul_right _ (by omega)
    exact .inr ⟨i, x, by rw [getElem?_eq_getElem hi, hix], hxid, by omega⟩
  · exact .inl hgone

/-- Every ALF that is flushed is removed once, when the send timer has fired often
enough since. -/
def Leaves (conf : Conf) (s : Buffer) (es : List Event) : Prop :=
  ∀ before after s₁ s₂, es = before ++ after → run (step conf) s before = some s₁ →
    run (step conf) s₁ after = some s₂ → (conf.retry_count + 1) * (_buffer_max_size + 1) ≤ completions after →
    ∀ id < s₁.flushed, (s₂.removed.map fst).count id = 1

theorem Inv.leaves (hs : Inv s) (hcareful : Along (GalileoBuffer.step conf) (Careful conf) s es) :
    Leaves conf s es := by
  rintro before after s₁ s₂ rfl hbefore hafter hcompletions id hid
  have halways := always_of_along (fun s e s' h hstep hok => (Inv.step h hstep).1 hok) hs hcareful
  have hinv₁ := (halways.rest hbefore).here
  have hinv₂ := (halways.rest hbefore).reached hafter
  have hrest := hcareful.rest hbefore
  have hgone : Gone s₂ id := by
    rcases hinv₁.waits hid with hgone | hwaits
    · exact hinv₁.run_gone hrest hafter hgone
    · refine hinv₁.run_waits hrest hafter hwaits ?_
      rw [Nat.succ_mul] at hcompletions
      omega
  have hnodup := hinv₂.right.alfs.nodup_iff.mpr nodup_range
  exact count_eq_one_of_mem (nodup_append.mp hnodup).2.1 hgone

theorem inv_new (now : Nat) : Inv (new now) :=
  ⟨⟨rfl, fun h => absurd rfl h, .refl _⟩, .inr ⟨rfl, rfl, rfl⟩, Int.natCast_nonneg _⟩

/-- **The buffer counts its payloads right, keeps a send timer while it has
something to send and removes every ALF once, in exactly the runs in which no
handshake fails and no ALF is tried as often as it may be.** -/
theorem buffer_right_iff_careful {now : Nat} :
    Always (step conf) Right (new now) es ∧ Leaves conf (new now) es ↔
      Along (step conf) (Careful conf) (new now) es := by
  have hiff : Always (step conf) Right (new now) es ↔ Along (step conf) (Careful conf) (new now) es :=
    always_iff_along (fun _ h => h.right) (fun _ _ _ h hstep => (h.step hstep).1)
      (fun _ _ _ h hstep => (h.step hstep).2) (inv_new now)
  constructor
  · exact fun h => hiff.mp h.1
  · exact fun h => ⟨hiff.mpr h, (inv_new now).leaves h⟩

def someAlf : AlfJson := ⟨[123, 125], by decide⟩

/-- A failed handshake loses its ALF and the timer with it, and an ALF that is
dropped stays in the size of the queue. -/
theorem not_right_handshake_dropped :
    ¬Always (step ⟨true, 10, 2000, 1000⟩) Right (new 0) [.flush (some someAlf), .sent 0 .handshakeFailed] ∧
      ¬Always (step ⟨true, 1, 2000, 1000⟩) Right (new 0) [.flush (some someAlf), .sent 0 .connectFailed] := by
  constructor
  · intro h
    obtain ⟨s, hrun⟩ : ∃ s, run (step ⟨true, 10, 2000, 1000⟩) (new 0)
        [.flush (some someAlf), .sent 0 .handshakeFailed] = some s := ⟨_, rfl⟩
    have halfs := (h.reached hrun).alfs.length_eq
    cases hrun
    exact absurd halfs (by decide)
  · intro h
    obtain ⟨s, hrun⟩ : ∃ s, run (step ⟨true, 1, 2000, 1000⟩) (new 0)
        [.flush (some someAlf), .sent 0 .connectFailed] = some s := ⟨_, rfl⟩
    have hsize := (h.reached hrun).size
    cases hrun
    exact absurd hsize (by decide)

end OpenResty.Kong.GalileoBuffer
