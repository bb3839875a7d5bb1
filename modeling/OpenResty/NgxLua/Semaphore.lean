/-
One semaphore of `ngx_http_lua_semaphore.c`: `post`, `wait`, the timer and
the cleanup of a waiting thread, and the handler of the posted event.

The handler is taken apart into its turns, as the threads it resumes run
between them and may use the semaphore.
-/
import Mathlib.Algebra.Order.Ring.Nat
import Mathlib.Data.List.Basic

namespace OpenResty.NgxLua.Semaphore

/-- The fields of `ngx_http_lua_co_ctx_t` that waiting uses; `cleanup` says
whether there is one. -/
structure CoCtx where
  timer_set : Bool
  cleanup : Bool
  /-- the semaphore waited for -/
  data : Nat

/-- `ngx_http_lua_sema_t`, with the `posted` flag of `sem_event`; the threads
in `wait_queue` are told by their number. -/
structure Sema where
  wait_queue : List Nat
  posted : Bool
  resource_count : Int
  wait_count : Nat

/-- An `int` of the sum. -/
def int (n : Int) : Int := (n + 2 ^ 31) % 2 ^ 32 - 2 ^ 31

/-- `ngx_http_lua_ffi_sema_new`, in a slot whose event is zeroed -/
def Sema.new (n : Int) : Sema := { wait_queue := [], posted := false, resource_count := n, wait_count := 0 }

inductive WaitStatus
  | succ
  | timeout

/-- What a call returns, or what a thread is resumed with. -/
inductive Outcome
  | ok
  | declined
  | again
  | resumed (who : Nat) (status : WaitStatus)
  | cleaned (who : Nat)
  | done

/-- The semaphore, the threads, and whether its handler runs. -/
structure State where
  sem : Sema
  co : Nat → CoCtx
  running : Bool

inductive Event
  | post (n : Int)
  | wait (who : Nat) (wait_ms : Int)
  | timeout (who : Nat)
  | kill (who : Nat)
  | handler
  | turn

/-- `ngx_http_lua_ffi_sema_post` -/
def Sema.post (sem : Sema) (n : Int) : Sema :=
  let sem := { sem with resource_count := int (sem.resource_count + n) }
  if sem.wait_queue = [] then sem else { sem with posted := true }

/-- A thread is put at the end of the queue. -/
def Sema.join (sem : Sema) (who : Nat) : Sema :=
  { sem with wait_count := (sem.wait_count + 1) % 2 ^ 32, wait_queue := sem.wait_queue ++ [who] }

/-- A thread is taken off the queue. -/
def Sema.leave (sem : Sema) (who : Nat) : Sema :=
  { sem with wait_queue := sem.wait_queue.erase who, wait_count := (sem.wait_count + (2 ^ 32 - 1)) % 2 ^ 32 }

namespace State

def setCo (s : State) (who : Nat) (co : CoCtx) : State := { s with co := Function.update s.co who co }

/-- `ngx_http_lua_ffi_sema_wait` -/
def wait (addr : Nat) (s : State) (who : Nat) (wait_ms : Int) : State × Outcome :=
  if s.sem.wait_queue = [] ∧ 0 < s.sem.resource_count then
    ({ s with sem := { s.sem with resource_count := s.sem.resource_count - 1 } }, .ok)
  else if wait_ms = 0 then (s, .declined)
  else
    ({ s with sem := s.sem.join who }.setCo who { timer_set := true, cleanup := true, data := addr }, .again)

/-- `ngx_http_lua_sema_cleanup` -/
def cleanup (s : State) (who : Nat) : State × Outcome :=
  ({ s with sem := s.sem.leave who }.setCo who { s.co who with timer_set := false, cleanup := false }, .cleaned who)

/-- `ngx_http_lua_sema_timeout_handler`, of a timer that has just expired -/
def timeoutHandler (s : State) (who : Nat) : State × Outcome :=
  ({ s with sem := s.sem.leave who }.setCo who { s.co who with timer_set := false, cleanup := false },
    .resumed who .timeout)

/-- A turn of the loop of `ngx_http_lua_sema_handler`. -/
def turn (s : State) : State × Outcome :=
  match s.sem.wait_queue with
  | who :: _ =>
    if 0 < s.sem.resource_count then
      let sem := s.sem.leave who
      let sem := { sem with resource_count := sem.resource_count - 1 }
      ({ s with sem }.setCo who { s.co who with timer_set := false, cleanup := false }, .resumed who .succ)
    else ({ s with running := false }, .done)
  | [] => ({ s with running := false }, .done)

end State

/-- What happens next, when it can: a thread that waits does not call
anything, a timer that is set fires while no handler runs, a killed thread is
cleaned up when it has something to clean up, and the event is handled when it
is posted. -/
def step (addr : Nat) (s : State) : Event → Option (State × Outcome)
  | .post n => some ({ s with sem := s.sem.post n }, .done)
  | .wait who wait_ms => if (s.co who).cleanup then none else some (s.wait addr who wait_ms)
  | .timeout who =>
    if (s.co who).timer_set ∧ (s.co who).data = addr ∧ ¬ s.running then some (s.timeoutHandler who) else none
  | .kill who => if (s.co who).cleanup ∧ (s.co who).data = addr then some (s.cleanup who) else none
  | .handler =>
    if s.sem.posted ∧ ¬ s.running then some ({ s with sem := { s.sem with posted := false }, running := true }, .done)
    else none
  | .turn => if s.running then some s.turn else none

end OpenResty.NgxLua.Semaphore
