/-
`ngx_http_lua_log_ringbuf.c`: the ring buffer that keeps captured error log
messages.

Pointers are offsets from `data`. An access of the code outside of
[data, data + size) is a fault, as is a loop that would not end.
-/
import OpenResty.Lib.Memory

namespace OpenResty.NgxLua.LogRingbuf

open Lib

/-- `ngx_http_lua_log_ringbuf_header_t`; the time is the bits of a double. -/
structure Header where
  time : UInt64
  len : UInt32
  log_level : UInt32

def HEADER_LEN : Nat := 16

def Header.encode (h : Header) : Bytes :=
  toBytes 8 h.time.toNat ++ (toBytes 4 h.len.toNat ++ toBytes 4 h.log_level.toNat)

def Header.decode (bs : Bytes) : Header where
  time := UInt64.ofNat (fromBytes (bs.take 8))
  len := UInt32.ofNat (fromBytes ((bs.drop 8).take 4))
  log_level := UInt32.ofNat (fromBytes ((bs.drop 12).take 4))

/-- `ngx_http_lua_log_ringbuf_t`, without the filter level. -/
structure Ringbuf where
  data : Memory
  size : Nat
  tail : Nat
  head : Nat
  sentinel : Nat
  count : Nat

inductive Fault
  | outside
  | endless

/-- What is logged: the level, the time and the text. -/
structure Msg where
  level : UInt32
  time : UInt64
  body : Bytes

namespace Ringbuf

def init (data : Memory) (len : Nat) : Ringbuf :=
  { data, size := len, tail := 0, head := 0, sentinel := len, count := 0 }

def reset (rb : Ringbuf) : Ringbuf :=
  { rb with tail := 0, head := 0, sentinel := rb.size, count := 0 }

/-! ## Accesses -/

/-- The `len` bytes at `off`. -/
def fetch (rb : Ringbuf) (off len : Nat) : Except Fault Bytes :=
  if off + len ≤ rb.size then .ok (rb.data.load off len) else .error .outside

def put (rb : Ringbuf) (off : Nat) (bs : Bytes) : Except Fault Ringbuf :=
  if off + bs.length ≤ rb.size then .ok { rb with data := rb.data.store off bs } else .error .outside

/-- `ngx_memcpy(data + off, buf, n)`: a negative `n` is a huge `size_t`. -/
def memcpy (rb : Ringbuf) (off : Nat) (buf : Bytes) (n : Int) : Except Fault Ringbuf :=
  if n < 0 then .error .outside else rb.put off (buf.take n.toNat)

/-- The header at `head`. -/
def header (rb : Ringbuf) : Except Fault Header := return Header.decode (← rb.fetch rb.head HEADER_LEN)

/-! ## Operations -/

def nextHeader (rb : Ringbuf) : Nat :=
  -- useless data
  if rb.size - rb.head < HEADER_LEN then 0
  -- placehold data
  else if rb.sentinel ≤ rb.head then 0
  else rb.head

/-- `n` is the length as an `int`. -/
def append (rb : Ringbuf) (log_level : UInt32) (time : UInt64) (buf : Bytes) (n : Int) : Except Fault Ringbuf := do
  let rb ← rb.put rb.tail ({ time, len := UInt32.ofInt n, log_level : Header }).encode
  let rb ← rb.memcpy (rb.tail + HEADER_LEN) buf n
  let tail := rb.tail + HEADER_LEN + n.toNat
  return { rb with tail, count := rb.count + 1, sentinel := if rb.sentinel < tail then tail else rb.sentinel }

def throwAway (rb : Ringbuf) : Except Fault Ringbuf := do
  if rb.count = 0 then return rb
  let head ← rb.header
  let rb := { rb with head := rb.head + (HEADER_LEN + head.len.toNat), count := rb.count - 1 }
  let rb := if rb.count = 0 then rb.reset else rb
  return { rb with head := rb.nextHeader }

def freeSpaces (rb : Ringbuf) : Nat :=
  if rb.count = 0 then rb.size
  else if rb.head < rb.tail then rb.size - rb.tail
  else rb.head - rb.tail

/-- `while (cond) throw_away(rb)` -/
def throwAwayWhile (cond : Ringbuf → Bool) : Nat → Ringbuf → Except Fault Ringbuf
  | 0, rb => if cond rb then .error .endless else .ok rb
  | fuel + 1, rb => if cond rb then do throwAwayWhile cond fuel (← rb.throwAway) else .ok rb

/-- What a write of `n` bytes does when there is too little room. Each round
throws a message away, so `count` rounds are enough. -/
def makeRoom (rb : Ringbuf) (n : Nat) : Except Fault Ringbuf := do
  let rb ←
    -- if the right space is not enough, mark it as placehold data
    if rb.size - rb.tail < n + HEADER_LEN then do
      -- head is after tail, so we will throw away all data between head and sentinel
      let rb ← throwAwayWhile (fun rb => decide (rb.tail ≤ rb.head ∧ rb.count ≠ 0)) rb.count rb
      pure { rb with sentinel := rb.tail, tail := 0 }
    else pure rb
  throwAwayWhile (fun rb => decide (rb.freeSpaces < n + HEADER_LEN)) rb.count rb

/-- Whether it returned `NGX_OK`. -/
def write (rb : Ringbuf) (m : Msg) : Except Fault (Bool × Ringbuf) := do
  let n := m.body.length
  if rb.size < n + HEADER_LEN then return (false, rb)
  let rb ← if rb.freeSpaces < n + HEADER_LEN then rb.makeRoom n else pure rb
  return (true, ← rb.append m.level m.time m.body (Int.bmod n (2 ^ 32)))

/-- The message read, or `NGX_ERROR`. -/
def read (rb : Ringbuf) : Except Fault (Option Msg × Ringbuf) := do
  if rb.count = 0 then return (none, rb)
  let head ← rb.header
  if rb.sentinel ≤ rb.head then return (none, rb)
  let body ← rb.fetch (rb.head + HEADER_LEN) head.len.toNat
  let m : Msg := { level := head.log_level, time := head.time, body }
  let rb := { rb with head := rb.head + HEADER_LEN + head.len.toNat, count := rb.count - 1 }
  let rb := if rb.count = 0 then rb.reset else rb
  return (some m, { rb with head := rb.nextHeader })

end Ringbuf

/-! ## Runs -/

inductive Op
  | write (m : Msg)
  | read

inductive Result
  | written (ok : Bool)
  | got (m : Option Msg)

def step (rb : Ringbuf) : Op → Except Fault (Result × Ringbuf)
  | .write m => do let (ok, rb) ← rb.write m; return (.written ok, rb)
  | .read => do let (m, rb) ← rb.read; return (.got m, rb)

/-- The messages that can be read. -/
def Ringbuf.drain : Nat → Ringbuf → Except Fault (List Msg)
  | 0, _ => return []
  | n + 1, rb => do
    match ← rb.read with
    | (none, _) => return []
    | (some m, rb) => return m :: (← drain n rb)

/-- What the buffer is for: `q` are the messages kept, the oldest first. -/
inductive Serves (rb : Ringbuf) : List Msg → Op → Result → List Msg → Prop
  | written : (k ≠ 0 → rb.freeSpaces < m.body.length + HEADER_LEN) →
      Serves rb q (.write m) (.written true) (q.drop k ++ [m])
  | refused : rb.size < m.body.length + HEADER_LEN → Serves rb q (.write m) (.written false) q
  | got : Serves rb (m :: q) .read (.got (some m)) q
  | none : Serves rb [] .read (.got none) []

inductive Runs : Ringbuf → List Msg → List Op → Ringbuf → List Msg → Prop
  | nil : Runs rb q [] rb q
  | cons : step rb op = .ok (r, rb') → Serves rb q op r q' → Runs rb' q' ops rb'' q'' →
      Runs rb q (op :: ops) rb'' q''

/-- The operations are served without a fault, and what is kept then is what
the count says and what can be read. -/
def Intact (data : Memory) (size : Nat) (ops : List Op) : Prop :=
  ∃ rb q, Runs (.init data size) [] ops rb q ∧ rb.count = q.length ∧ rb.drain (rb.count + 1) = .ok q

end OpenResty.NgxLua.LogRingbuf
