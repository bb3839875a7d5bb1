/-
The `receiveuntil` iterator of `ngx_http_lua_socket_tcp.c`: the input filter
`ngx_http_lua_socket_read_until`, the reading loop around it and the buffers
they share. Memory is always there, and the socket is an upstream one.
-/
import OpenResty.NgxLua.SocketPattern

namespace OpenResty.NgxLua

open Lib List

/-- `ngx_http_lua_socket_compiled_pattern_t`; the state -1 is `none`. -/
structure CompiledPattern where
  pattern : Bytes
  state : Option Nat
  recovering : Recovering
  inclusive : Bool

/-- What `receiveuntil` makes of a pattern that is not empty. -/
def CompiledPattern.new (pattern : Bytes) (inclusive : Bool) : CompiledPattern :=
  { pattern, state := some 0, recovering := compilePattern pattern, inclusive }

/-- `lua_socket_buffer_size` -/
structure Conf where
  buffer_size : Nat
  pos : 0 < buffer_size

/-- The part of `ngx_http_lua_socket_tcp_upstream_t` that reading uses. The
last buffer of `bufs_in` and `u->buffer` share their memory: `data` is what
was received into it, which ends at `u->buffer.last`. -/
structure Upstream where
  /-- what the buffers before the last one hold -/
  bufs_in : List Bytes
  data : Bytes
  /-- `u->buffer.end` -/
  size : Nat
  /-- `u->buffer.pos` -/
  pos : Nat
  /-- `pos` and `last` of the last buffer -/
  in_pos : Nat
  in_last : Nat
  length : Nat
  rest : Nat
  read_closed : Bool

namespace Upstream

/-- What the last buffer holds. -/
def buf_in (u : Upstream) : Bytes := (u.data.drop u.in_pos).take (u.in_last - u.in_pos)

/-- `ngx_http_lua_socket_insert_buffer`: before the last one -/
def insertBuffer (u : Upstream) (pat : Bytes) (pfx : Nat) : Upstream :=
  { u with bufs_in := u.bufs_in ++ [pat.take pfx] }

/-- `ngx_http_lua_socket_add_pending_data`, with `last = &pos[len]` -/
def addPendingData (u : Upstream) (last : Nat) (pat : Bytes) (pfx old_state : Nat) : Upstream :=
  if last - u.in_last = old_state then { u with in_last := u.in_last + pfx }
  -- need more buffers
  else { u.insertBuffer pat pfx with in_pos := last, in_last := last }

/-- `ngx_http_lua_socket_add_input_buffer`; a buffer used again may be larger. -/
def addInputBuffer (u : Upstream) (conf : Conf) (extra : Nat) : Upstream :=
  { u with
    bufs_in := u.bufs_in ++ [u.buf_in], data := [], size := conf.buffer_size + extra, pos := 0, in_pos := 0,
      in_last := 0 }

/-- `ngx_http_lua_socket_push_input_data` -/
def pushInputData (u : Upstream) : Bytes × Upstream :=
  let chunk := u.bufs_in.flatten ++ u.buf_in
  let u := { u with bufs_in := [] }
  let u := if u.pos = u.data.length then { u with data := [], pos := 0 } else u
  (chunk, { u with in_pos := u.pos, in_last := u.pos })

end Upstream

/-! ## The input filter -/

/-- The variables of the loop: `state`, and `i`, how far it is from `b->pos`. -/
structure Loop where
  u : Upstream
  i : Nat
  state : Nat

/-- What the loop does with a character: it goes on to the next, it looks at
the same one again, or the filter returns `NGX_OK` with a state to keep. -/
inductive Turn
  | next (l : Loop)
  | again (l : Loop)
  | done (u : Upstream) (state : Option Nat)

namespace Loop

/-- `b->pos += i` -/
def consumed (l : Loop) : Upstream := { l.u with pos := l.u.pos + l.i }

/-- The character continues the match. -/
def matched (cp : CompiledPattern) (l : Loop) : Turn :=
  let l := { l with i := l.i + 1, state := l.state + 1 }
  if l.state = cp.pattern.length then
    -- already matched the whole pattern
    let u := l.consumed
    let u := if cp.inclusive then u.addPendingData u.pos cp.pattern l.state l.state else u
    .done u (if u.length ≠ 0 then none else some 0)
  else .next l

/-- The character is part of the data. -/
def plain (l : Loop) : Turn :=
  let u := { l.u with in_last := l.u.in_last + 1 }
  let i := l.i + 1
  if u.length ≠ 0 then
    let u := { u with rest := u.rest - 1 }
    if u.rest = 0 then .done { u with pos := u.pos + i } (some l.state) else .next { l with u, i }
  else .next { l with u, i }

/-- The match fails, and all that was matched is data. -/
def failed (cp : CompiledPattern) (l : Loop) : Turn :=
  let u := l.u.addPendingData (l.u.pos + l.i) cp.pattern l.state l.state
  if u.length ≠ 0 then
    if u.rest ≤ l.state then .done { u with rest := 0, pos := u.pos + l.i } (some 0)
    else .again { l with u := { u with rest := u.rest - l.state }, state := 0 }
  else .again { l with u, state := 0 }

/-- The match fails, but its end and the character are a match. -/
def recovered (cp : CompiledPattern) (l : Loop) (state : Nat) : Turn :=
  let u := l.u.addPendingData (l.u.pos + l.i) cp.pattern (l.state + 1 - state) l.state
  let i := l.i + 1
  if u.length ≠ 0 then
    if u.rest ≤ state then .done { u with rest := 0, pos := u.pos + i } (some state)
    else .next { u := { u with rest := u.rest - state }, i, state }
  else .next { u, i, state }

def turn (cp : CompiledPattern) (l : Loop) (c : UInt8) : Turn :=
  if cp.pattern[l.state]? = some c then l.matched cp
  else if l.state = 0 then l.plain
  else
    match recover cp.recovering l.state c with
    | some state => l.recovered cp state
    | none => l.failed cp

theorem again_state {cp : CompiledPattern} {l l' : Loop} {c : UInt8} (h : l.turn cp c = .again l') :
    l'.state = 0 ∧ l.state ≠ 0 := by
  rw [turn] at h
  split at h
  · simp only [matched] at h
    split at h <;> cases h
  · split at h
    · simp only [plain] at h
      split at h
      · split at h <;> cases h
      · cases h
    · next hstate =>
      refine ⟨?_, hstate⟩
      split at h
      · simp only [recovered] at h
        split at h
        · split at h <;> cases h
        · cases h
      · simp only [failed] at h
        split at h
        · split at h
          · cases h
          · cases h; rfl
        · cases h; rfl

end Loop

/-- The loop over what is left of `b->pos[0..bytes)`. It returns `NGX_OK` or `NGX_AGAIN`. -/
def readLoop (cp : CompiledPattern) (bytes : Bytes) (l : Loop) : Bool × Upstream × Option Nat :=
  match bytes with
  | [] => (false, l.consumed, some l.state)
  | c :: bytes =>
    match _ : l.turn cp c with
    | .next l => readLoop cp bytes l
    | .again l => readLoop cp (c :: bytes) l
    | .done u state => (true, u, state)
termination_by (bytes.length, l.state)
decreasing_by
  · exact .left _ _ (Nat.lt_succ_self _)
  · obtain ⟨hzero, hne⟩ := Loop.again_state ‹_›
    rw [hzero]
    exact .right _ (Nat.pos_of_ne_zero hne)

/-- `ngx_http_lua_socket_read_until`, with something to read -/
def readUntil (cp : CompiledPattern) (u : Upstream) : Bool × Upstream × CompiledPattern :=
  let (ok, u, state) := readLoop cp (u.data.drop u.pos) { u, i := 0, state := cp.state.getD 0 }
  (ok, u, { cp with state })

/-! ## Reading -/

/-- What comes from the socket: bytes, a timeout, or the end of the stream. -/
inductive Arrival
  | bytes (bs : Bytes)
  | timeout
  | closed

/-- Why reading stopped; `again` when nothing has come yet. -/
inductive Stop
  | ok
  | timeout
  | closed
  | again
deriving DecidableEq

/-- What is still to come. -/
def weight (wire : List Arrival) : Nat :=
  (wire.map fun
    | .bytes bs => bs.length + 1
    | _ => 1).sum

/-- A buffer with room, before `recv`. -/
def Upstream.withRoom (u : Upstream) (conf : Conf) (extra : Nat) : Upstream :=
  if u.size - u.data.length = 0 then u.addInputBuffer conf extra else u

/-- `n = c->recv(c, b->last, size)`: the bytes that come, and those left. -/
def Upstream.recv (u : Upstream) (conf : Conf) (extra : Nat) (bs : Bytes) : Upstream × Bytes :=
  let u := u.withRoom conf extra
  let n := u.size - u.data.length
  ({ u with data := u.data ++ bs.take n }, bs.drop n)

theorem Upstream.room_pos (u : Upstream) (conf : Conf) (extra : Nat) :
    0 < (u.withRoom conf extra).size - (u.withRoom conf extra).data.length := by
  have := conf.pos
  rw [withRoom]
  split
  · simp only [addInputBuffer, length_nil]
    omega
  · omega

theorem Upstream.length_recv_le (u : Upstream) (conf : Conf) (extra : Nat) (b : UInt8) (bs : Bytes) :
    (u.recv conf extra (b :: bs)).2.length ≤ bs.length := by
  have hroom := u.room_pos conf extra
  simp only [recv, length_drop, length_cons]
  omega

/-- The loop of `ngx_http_lua_socket_tcp_read`: the filter, then what arrives
next. `extra` says how much larger than asked for the buffers are. -/
def tcpRead (conf : Conf) (extra : Nat → Nat) (cp : CompiledPattern) (u : Upstream) (wire : List Arrival) :
    Stop × Upstream × CompiledPattern × List Arrival :=
  let (ok, u, cp) := if u.pos < u.data.length then readUntil cp u else (false, u, cp)
  if ok then (.ok, u, cp, wire)
  else
    match wire with
    | [] => (.again, u, cp, [])
    | .timeout :: wire => (.timeout, u, cp, wire)
    | .closed :: wire => (.closed, { u with read_closed := true }, cp, wire)
    | .bytes [] :: wire => tcpRead conf extra cp u wire
    | .bytes (b :: bs) :: wire =>
      let received := u.recv conf (extra (weight wire + bs.length)) (b :: bs)
      tcpRead conf extra cp received.1 (.bytes received.2 :: wire)
termination_by weight wire
decreasing_by
  · simp [weight]
  · have hleft := Upstream.length_recv_le u conf (extra (weight wire + bs.length)) b bs
    simp only [weight, map_cons, sum_cons, length_cons] at hleft ⊢
    omega

/-- What a call of the iterator returns: a chunk, the partial data of an
error, nothing at the end, or nothing yet. -/
inductive Got
  | chunk (bs : Bytes)
  | timeout (part : Bytes)
  | closed (part : Bytes)
  | finished
  | again

/-- What a call works on. -/
structure Socket where
  cp : CompiledPattern
  u : Upstream
  wire : List Arrival

/-- `ngx_http_lua_socket_receiveuntil_iterator` and
`ngx_http_lua_socket_tcp_receive_retval_handler` -/
def iterator (conf : Conf) (extra : Nat → Nat) (s : Socket) (bytes : Int) : Got × Socket :=
  if s.u.read_closed then (.closed [], s)
  else if s.cp.state = none then (.finished, { s with cp := { s.cp with state := some 0 } })
  else
    let u := { s.u with length := bytes.toNat, rest := bytes.toNat }
    let (stop, u, cp, wire) := tcpRead conf extra s.cp u s.wire
    if stop = .again then (.again, { cp, u, wire })
    else
      let (part, u) := u.pushInputData
      match stop with
      | .ok => (.chunk part, { cp, u, wire })
      | .timeout => (.timeout part, { cp, u, wire })
      | _ => (.closed part, { cp, u, wire })

end OpenResty.NgxLua
