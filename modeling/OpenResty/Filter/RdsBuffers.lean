/-
The buffers of `ngx_http_rds_json_output.c`. `request_mem` gives the room that a text is
written to, which is in the buffer that is being filled or aside of it, and `submit_mem` takes
the text into the buffers that go out.

A buffer has a number, under which it is linked, handed on and used again. The allocations
succeed, and memory is zero when it is allocated.
-/
import OpenResty.Filter.RdsJsonOutput

namespace OpenResty.Filter.RdsBuffers

open Lib (Memory)

inductive Failure
  /-- Bytes are written past an end. -/
  | overrun
  | endless

/-- Memory with an end. -/
structure Room where
  mem : Memory
  size : Nat

/-- `ngx_palloc` -/
def Room.new (size : Nat) : Room := { mem := fun _ => 0, size }

/-- Bytes are written from `off` on. -/
def Room.write (room : Room) (off : Nat) (bs : Bytes) : Except Failure Room :=
  if off + bs.length ≤ room.size then .ok { room with mem := room.mem.store off bs } else .error .overrun

/-- `ngx_buf_t`, with `pos` at the start of its room. -/
structure OutBuf where
  room : Room
  last : Nat
  last_buf : Bool

/-- The bytes from `pos` to `last`. -/
def OutBuf.data (buf : OutBuf) : Bytes := buf.room.mem.load 0 buf.last

/-- What `ngx_http_rds_json_ctx_t` has for the output, `postponed` with the places of its `pos`
and its `last` in `cached`, and the buffers that the next filter has been given, as they were
then. -/
structure Ctx where
  bufs : Nat → OutBuf
  created : Nat
  out : List Nat
  out_buf : Nat
  avail_out : Nat
  free_bufs : List Nat
  busy_bufs : List Nat
  cached : Option Room
  postponed : Option (Nat × Nat)
  seen_stream_end : Bool
  passed : List OutBuf

def Ctx.init : Ctx :=
  { bufs := fun _ => { room := .new 0, last := 0, last_buf := false }, created := 0, out := [], out_buf := 0,
    avail_out := 0,
    free_bufs := [], busy_bufs := [], cached := none, postponed := none, seen_stream_end := false, passed := [] }

/-- `ctx->out_buf` is changed. -/
def Ctx.setBuf (ctx : Ctx) (buf : OutBuf) : Ctx := { ctx with bufs := Function.update ctx.bufs ctx.out_buf buf }

/-- `ctx->out_buf` is linked behind `ctx->out`. -/
def Ctx.link (ctx : Ctx) : Ctx := { ctx with out := ctx.out ++ [ctx.out_buf] }

/-- `get_buf` -/
def get_buf (buf_size : Nat) (ctx : Ctx) : Ctx :=
  if ctx.avail_out > 0 then ctx
  else
    match ctx.free_bufs with
    | buf :: free_bufs => { ctx with out_buf := buf, free_bufs, avail_out := buf_size }
    | [] =>
      { ctx with
        bufs := Function.update ctx.bufs ctx.created { room := .new buf_size, last := 0, last_buf := false }
        created := ctx.created + 1
        out_buf := ctx.created
        avail_out := buf_size }

/-- `get_postponed` -/
def get_postponed (cached : Option Room) (len : Nat) : Room :=
  match cached with
  | none => .new len
  | some room => if room.size < len then .new len else room

/-- Where `request_mem` lets a text be written. -/
inductive Place
  /-- At `ctx->out_buf->last`. -/
  | last
  /-- At `ctx->cached.start`. -/
  | cached

/-- `request_mem` -/
def request_mem (buf_size : Nat) (ctx : Ctx) (len : Nat) : Ctx × Place :=
  let ctx := get_buf buf_size ctx
  if ctx.avail_out < len then
    ({ ctx with cached := some (get_postponed ctx.cached len), postponed := some (0, len) }, .cached)
  else (ctx, .last)

/-- The text is written to its place. -/
def fill (ctx : Ctx) (text : Bytes) : Place → Except Failure Ctx
  | .last => do
    let buf := ctx.bufs ctx.out_buf
    let room ← buf.room.write buf.last text
    pure (ctx.setBuf { buf with room })
  | .cached =>
    match ctx.cached with
    | none => .error .overrun
    | some room => do
      let room ← room.write 0 text
      pure { ctx with cached := some room }

/-- `ngx_copy` behind `ctx->out_buf->last`. -/
def copy (ctx : Ctx) (bs : Bytes) : Except Failure Ctx := do
  let buf := ctx.bufs ctx.out_buf
  let room ← buf.room.write buf.last bs
  pure { ctx.setBuf { buf with room, last := buf.last + bs.length } with avail_out := ctx.avail_out - bs.length }

/-- The loop of `submit_mem` over the postponed bytes. -/
def copyPostponed (buf_size : Nat) (last_buf : Bool) (cached : Room) : Nat → Ctx → Nat → Nat → Except Failure Ctx
  | 0, _, _, _ => .error .endless
  | n + 1, ctx, pos, last => do
    let len := min (last - pos) ctx.avail_out
    let ctx ← copy ctx (cached.mem.load pos len)
    let ctx := { ctx with postponed := if pos + len = last then none else some (pos + len, last) }
    if ctx.avail_out > 0 then pure ctx
    else
      let ctx := ctx.link
      if ctx.postponed = none then pure (ctx.setBuf { ctx.bufs ctx.out_buf with last_buf })
      else copyPostponed buf_size last_buf cached n (get_buf buf_size ctx) (pos + len) last

/-- `submit_mem`. A loop that goes on for longer than the text does not end. -/
def submit_mem (buf_size : Nat) (ctx : Ctx) (len : Nat) (last_buf : Bool) : Except Failure Ctx :=
  match ctx.postponed, ctx.cached with
  | some (pos, last), some cached => copyPostponed buf_size last_buf cached (len + 1) ctx pos last
  | some _, none => .error .overrun
  | none, _ =>
    let buf := ctx.bufs ctx.out_buf
    let ctx : Ctx := { ctx.setBuf { buf with last := buf.last + len, last_buf } with avail_out := ctx.avail_out - len }
    pure (if ctx.avail_out = 0 then ctx.link else ctx)

/-- A text is requested room for, written and submitted, as `output_literal` does it. -/
def output (buf_size : Nat) (ctx : Ctx) (text : Bytes) (last_buf : Bool) : Except Failure Ctx := do
  let (ctx, place) := request_mem buf_size ctx text.length
  let ctx ← fill ctx text place
  submit_mem buf_size { ctx with seen_stream_end := ctx.seen_stream_end || last_buf } text.length last_buf

/-- At the end of the stream, the buffer that is being filled is linked too. -/
def Ctx.close (ctx : Ctx) : Ctx :=
  if ctx.seen_stream_end then
    { ctx with
      seen_stream_end := false
      out := if ctx.avail_out > 0 then ctx.out ++ [ctx.out_buf] else ctx.out
      avail_out := 0 }
  else ctx

/-- The next filter is given `ctx->out`. Of the buffers that it has got, it has used up the first
`freed` ones then, which `ngx_chain_update_chains` makes free. -/
def Ctx.handOn (ctx : Ctx) (freed : Nat) : Ctx :=
  let busy_bufs := ctx.busy_bufs ++ ctx.out
  let used := busy_bufs.take freed
  { ctx with
    passed := ctx.passed ++ ctx.out.map ctx.bufs
    out := []
    busy_bufs := busy_bufs.drop freed
    free_bufs := used.reverse ++ ctx.free_bufs
    bufs := fun buf => if buf ∈ used then { ctx.bufs buf with last := 0 } else ctx.bufs buf }

/-- `output_bufs` -/
def output_bufs (ctx : Ctx) (freed : Nat) : Ctx :=
  let ctx := ctx.close
  if ctx.out = [] then ctx else ctx.handOn freed

/-- What happens before the last text. -/
inductive Event
  | text (text : Bytes)
  | output_bufs (freed : Nat)

def step (buf_size : Nat) (ctx : Ctx) : Event → Except Failure Ctx
  | .text text => output buf_size ctx text false
  | .output_bufs freed => pure (output_bufs ctx freed)

/-- A response: what comes before the last text, the last text, and `output_bufs`. -/
def respond (buf_size : Nat) (events : List Event) (text : Bytes) (freed : Nat) : Except Failure Ctx := do
  let ctx ← events.foldlM (step buf_size) .init
  let ctx ← output buf_size ctx text true
  pure (output_bufs ctx freed)

/-! ## What is asked of it -/

def Event.bytes : Event → Bytes
  | .text t => t
  | .output_bufs _ => []

/-- The last buffer is the only one with `last_buf`. -/
def EndsOnce (bufs : List OutBuf) : Prop :=
  ∃ before final, bufs = before ++ [final] ∧ final.last_buf = true ∧ ∀ buf ∈ before, buf.last_buf = false

/-- The buffers that the next filter has got, where those that it still holds are as they were. -/
structure Right (buf_size : Nat) (events : List Event) (text : Bytes) (freed : Nat) (ctx : Ctx) : Prop where
  respond_eq : respond buf_size events text freed = .ok ctx
  carries : ctx.passed.flatMap OutBuf.data = events.flatMap Event.bytes ++ text
  holds : ∃ before, ctx.passed = before ++ ctx.busy_bufs.map ctx.bufs
  ends : EndsOnce ctx.passed

end OpenResty.Filter.RdsBuffers
