/-
The semaphores of a worker: their slots in blocks of memory, the queue of free
slots, the posted events, and the Lua objects that hold slots.
-/
import OpenResty.NgxLua.Semaphore

namespace OpenResty.NgxLua.Semaphore

open Function

/-! ## The allocator -/

/-- `ngx_http_lua_sema_mm_block_t` -/
structure Block where
  used : Nat
  epoch : Nat

/-- `ngx_http_lua_sema_mm_t`, with the blocks that are allocated. The slots of
block `b` are numbered from `b * num_per_block` on. -/
structure Mm where
  free_queue : List Nat
  total : Nat
  used : Nat
  num_per_block : Nat
  cur_epoch : Nat
  blocks : Nat → Option Block

/-- `ngx_http_lua_sema_mm_init` -/
def Mm.init : Mm :=
  { free_queue := [], total := 0, used := 0, num_per_block := 4095, cur_epoch := 0, blocks := fun _ => none }

namespace Mm

/-- `sem->block` -/
def block (mm : Mm) (sem : Nat) : Nat := sem / mm.num_per_block

def setUsed (mm : Mm) (b : Nat) (f : Nat → Nat) : Mm :=
  { mm with blocks := update mm.blocks b ((mm.blocks b).map fun block =>
    { block with used := f block.used }) }

/-- `ngx_http_lua_alloc_sema`; `fresh` is what `ngx_alloc` returns for a new block. -/
def allocSema (mm : Mm) (fresh : Option Nat) : Option (Nat × Mm) :=
  match mm.free_queue with
  | sem :: free_queue => some (sem, { mm.setUsed (mm.block sem) (· + 1) with free_queue, used := mm.used + 1 })
  -- free_queue is empty
  | [] =>
    match fresh with
    | none => none
    | some b =>
      let sem := b * mm.num_per_block
      some (sem,
        { mm with
          cur_epoch := mm.cur_epoch + 1
          total := mm.total + mm.num_per_block
          used := mm.used + 1
          blocks := update mm.blocks b (some { used := 1, epoch := mm.cur_epoch + 1 })
          free_queue := List.range' (sem + 1) (mm.num_per_block - 1) })

/-- A block is given back, and its slots leave the queue. -/
def release (mm : Mm) (b : Nat) : Mm :=
  { mm with
    free_queue := mm.free_queue.filter fun iter => mm.block iter ≠ b
    total := mm.total - mm.num_per_block
    blocks := update mm.blocks b none }

/-- `ngx_http_lua_free_sema` -/
def freeSema (mm : Mm) (sem : Nat) : Mm :=
  let b := mm.block sem
  let mm := { mm.setUsed b (· - 1) with used := mm.used - 1 }
  let mid_epoch := mm.cur_epoch - (mm.total / mm.num_per_block) / 2
  match mm.blocks b with
  | none => mm
  | some block =>
    let mm :=
      { mm with free_queue := if block.epoch < mid_epoch then mm.free_queue ++ [sem] else sem :: mm.free_queue }
    -- load <= 50% and it's on the older side
    if block.used = 0 ∧ mm.used ≤ mm.total / 2 ∧ block.epoch < mid_epoch then mm.release b else mm

end Mm

/-! ## The worker -/

/-- All semaphores, threads and posted events of a worker. `live` tells the
slots that a Lua object holds, and `running` whose handler runs. -/
structure Pool where
  mm : Mm
  sema : Nat → Sema
  co : Nat → CoCtx
  posted_events : List Nat
  running : Option Nat
  live : Nat → Bool

namespace Pool

/-- No semaphore, and no thread that waits. -/
def init (sema : Nat → Sema) : Pool :=
  { mm := .init, sema, co := fun _ => ⟨false, false, 0⟩, posted_events := [], running := none, live :=
    fun _ => false }

inductive Event
  | new (n : Int) (fresh : Option Nat)
  | gc (sem : Nat)
  /-- `ngx_event_process_posted` takes the next event -/
  | process
  | on (sem : Nat) (e : Semaphore.Event)

/-- One semaphore of the worker. -/
def view (p : Pool) (sem : Nat) : State := { sem := p.sema sem, co := p.co, running := p.running = some sem }

/-- What a step of one semaphore changes: `ngx_post_event` inserts an event
that is not posted yet. -/
def write (p : Pool) (sem : Nat) (s : State) : Pool :=
  { p with
    sema := update p.sema sem s.sem
    co := s.co
    posted_events := if s.sem.posted ∧ ¬ (p.sema sem).posted then p.posted_events ++ [sem] else p.posted_events
    running := if p.running = some sem ∧ ¬ s.running then none else p.running }

/-- What can happen to a semaphore: only its object calls `post` and `wait`,
and no timer fires while a handler runs. -/
def can (p : Pool) (sem : Nat) : Semaphore.Event → Bool
  | .post _ | .wait _ _ => p.live sem
  | .timeout _ => p.running = none
  | .kill _ | .turn => true
  | .handler => false

/-- What happens next, when it can. A new block is put where none is, and an
object is collected when no thread waits, for a thread that waits refers to it. -/
def step (p : Pool) : Event → Option Pool
  | .new n fresh =>
    if ∀ b ∈ fresh, p.mm.blocks b = none then
      (p.mm.allocSema fresh).map fun (sem, mm) =>
        { p with mm, sema := update p.sema sem (.new n), live := update p.live sem true }
    else none
  | .gc sem =>
    if p.live sem ∧ (p.sema sem).wait_queue = [] then
      some { p with mm := p.mm.freeSema sem, live := update p.live sem false }
    else none
  | .process =>
    match p.posted_events with
    | [] => none
    | sem :: posted_events =>
      if p.running = none then
        some { p with
          sema := update p.sema sem { p.sema sem with posted := false }
          posted_events, running := some sem }
      else none
  | .on sem e => if p.can sem e then (Semaphore.step sem (p.view sem) e).map fun (s, _) => p.write sem s else none

end Pool

end OpenResty.NgxLua.Semaphore
