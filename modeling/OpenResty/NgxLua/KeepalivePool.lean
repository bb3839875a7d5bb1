/-
`ngx_http_lua_socket_tcp.c`: the pools of idle connections that `connect` takes
connections from and `setkeepalive` puts them into.

A pool is found by its name in a table of the Lua VM; it counts the connections
that it holds and those that were taken from it.
-/
import Mathlib.Algebra.Order.Ring.Nat
import OpenResty.Lib.Assoc

namespace OpenResty.NgxLua.KeepalivePool

open Lib Function

/-! ## State -/

/-- The name of a pool. -/
structure Key where
  bytes : List UInt8
  deriving DecidableEq

/-- `ngx_http_lua_socket_pool_item_t` -/
structure Item where
  connection : Nat
  reused : Nat

/-- `ngx_http_lua_socket_pool_t`, with the items that lie behind it. The queues
have the numbers of items. -/
structure Pool where
  key : Key
  pool_size : Nat
  active_connections : Int
  cache : List Nat
  free : List Nat
  items : Nat → Item

/-- `ngx_http_lua_socket_tcp_upstream_t` -/
structure Upstream where
  request : Nat
  connection : Option Nat
  reused : Nat
  socket_pool : Option Nat
  conn_waiting : Bool
  read_waiting : Bool
  write_waiting : Bool
  read_closed : Bool
  write_closed : Bool

/-- A socket object: what is under SOCKET_KEY_INDEX and SOCKET_CTX_INDEX. -/
structure Socket where
  key : Option Key
  upstream : Option Upstream

/-- What `c->data` points to. -/
inductive Owner
  | upstream (s : Nat)
  | item (p i : Nat)
  deriving DecidableEq

structure State where
  /-- The pools, by the order in which they were created, also those that are
  not registered any more. -/
  pools : Nat → Pool
  created : Nat
  /-- `ngx_http_lua_socket_pool_key` in the Lua registry. -/
  registry : List (Key × Nat)
  sockets : List Socket
  data : Nat → Owner
  /-- How many connections have been opened; connections are numbered. -/
  opened : Nat
  /-- The Lua VM is being closed. -/
  closing : Bool
  /-- The worker wrote beyond a block of memory. -/
  crashed : Bool
  /-- The key that a connection was last stored under. -/
  stored : Nat → Option Key
  /-- The keys that connections were asked for with, and those that the
  connections handed out had been stored under. -/
  served : List (Key × Option Key)

inductive Ret
  | ok
  | err (msg : String)
  | raised (msg : String)

/-- An integer argument of a Lua function. -/
inductive Arg
  | absent
  | integer (n : Int)
  | bad

structure Conf where
  pool_size : Nat

def noPool : Pool :=
  { key := ⟨[]⟩, pool_size := 0, active_connections := 0, cache := [], free := [], items := fun _ => ⟨0, 0⟩ }

def init : State :=
  { pools := fun _ => noPool, created := 0, registry := [], sockets := [], data := fun _ => .upstream 0, opened := 0,
    closing := false, crashed := false, stored := fun _ => none, served := [] }

namespace State

variable (st : State)

def setPool (p : Nat) (pool : Pool) : State := { st with pools := update st.pools p pool }

/-- The upstream of a socket object. -/
def up (s : Nat) : Option Upstream := st.sockets[s]?.bind Socket.upstream

def setUp (s : Nat) (u : Upstream) : State :=
  { st with sockets := st.sockets.modify s fun sock => { sock with upstream := some u } }

def setKey (s : Nat) (key : Key) : State :=
  { st with sockets := st.sockets.modify s fun sock => { sock with key := some key } }

end State

/-! ## Leaving a pool -/

/-- A C string ends at the first NUL. -/
def cstring (key : Key) : Key := ⟨key.bytes.takeWhile (· ≠ 0)⟩

/-- `ngx_http_lua_socket_free_pool` -/
def free_pool (st : State) (p : Nat) : State :=
  { st with registry := unassign st.registry (cstring (st.pools p).key) }

/-- A connection that the pool counted is gone. -/
def release (st : State) (p : Nat) : State :=
  let pool := st.pools p
  let st := st.setPool p { pool with active_connections := pool.active_connections - 1 }
  if pool.active_connections - 1 = 0 then free_pool st p else st

/-- The connection of a socket object is closed. -/
def Upstream.finalized (u : Upstream) : Upstream :=
  { u with connection := none, read_closed := true, write_closed := true }

/-- The pool that counts the connection of an upstream. -/
def Upstream.takenFrom (u : Upstream) : Option Nat :=
  if u.connection.isSome ∧ u.reused ≠ 0 then u.socket_pool else none

/-- `ngx_http_lua_socket_tcp_finalize` -/
def finalize (st : State) (s : Nat) : State :=
  match st.up s with
  | none => st
  | some u =>
    let st := st.setUp s u.finalized
    match u.takenFrom with
    | none => st
    | some p => release st p

/-- The end of `ngx_http_lua_socket_keepalive_close_handler`. -/
def close_handler (st : State) (p i : Nat) : State :=
  let pool := st.pools p
  release (st.setPool p { pool with cache := pool.cache.erase i, free := i :: pool.free }) p

/-- `ngx_http_lua_socket_shutdown_pool` -/
def Pool.shutdown (pool : Pool) : Pool :=
  { pool with active_connections := 0, cache := [], free := pool.cache.reverse ++ pool.free }

/-! ## `connect` -/

/-- `ngx_http_lua_get_keepalive_peer`: NGX_OK, or NGX_DECLINED. -/
def get_keepalive_peer (st : State) (s : Nat) (key : Key) (u : Upstream) : State × Bool :=
  match st.registry.lookup key with
  | none => (st, false)
  | some p =>
    let pool := st.pools p
    match pool.cache with
    | [] => (st.setUp s { u with socket_pool := some p }, false)
    | i :: cache =>
      let item := pool.items i
      let st := st.setPool p { pool with cache, free := i :: pool.free }
      let st := st.setUp s
        { u with socket_pool := some p, connection := some item.connection, reused := item.reused + 1 }
      ({ st with
          data := update st.data item.connection (.upstream s)
          served := (key, st.stored item.connection) :: st.served }, true)

/-- A port as an `int`, if it is a number, and its text. -/
structure Port where
  value : Option Int
  text : List UInt8

inductive PoolOption
  | absent
  | custom (key : Key)
  | bad

/-- What becomes of an attempt to open a connection. -/
inductive Net
  | established
  | waiting
  | failed

structure ConnectArgs where
  request : Nat
  host : List UInt8
  port : Option Port
  pool : PoolOption

namespace ConnectArgs

/-- `host:port`, `host`, or the name that is given. -/
def key (args : ConnectArgs) : Key :=
  match args.pool, args.port with
  | .custom key, _ => key
  | _, some port => ⟨args.host ++ 58 :: port.text⟩
  | _, none => ⟨args.host⟩

/-- What is wrong with the port. -/
def portError (args : ConnectArgs) : Option Ret :=
  match args.port with
  | none => none
  | some port =>
    match port.value with
    | none => some (.raised "bad argument #3 to 'connect' (number expected)")
    | some n => if n < 0 ∨ 65536 < n then some (.err ("bad port number: " ++ toString n)) else none

end ConnectArgs

/-- `ngx_http_lua_socket_check_busy_connecting`, `_reading` and `_writing` -/
def Upstream.busy (u : Upstream) : Option Ret :=
  if u.conn_waiting then some (.err "socket busy connecting")
  else if u.read_waiting then some (.err "socket busy reading")
  else if u.write_waiting then some (.err "socket busy writing")
  else none

/-- What keeps a socket object from being connected again. -/
def upError (request : Nat) (u : Option Upstream) : Option Ret :=
  match u with
  | none => none
  | some u => if u.request ≠ request then some (.raised "bad request") else u.busy

/-- The checks of `connect`; a `pool` option changes the key before the port is looked at. -/
def connectChecks (st : State) (s : Nat) (args : ConnectArgs) : State × Option Ret :=
  match args.pool with
  | .bad => (st, some (.raised "bad \"pool\" option type"))
  | .custom key => (st.setKey s key, args.portError.or (upError args.request (st.up s)))
  | .absent =>
    match args.portError with
    | some ret => (st, some ret)
    | none => (st.setKey s args.key, upError args.request (st.up s))

/-- An upstream after `ngx_memzero`. -/
def Upstream.zero (request : Nat) : Upstream :=
  { request, connection := none, reused := 0, socket_pool := none, conn_waiting := false, read_waiting := false,
    write_waiting := false, read_closed := false, write_closed := false }

/-- A connection of its own for a socket object. -/
def open_connection (st : State) (s : Nat) : State :=
  match st.up s with
  | none => st
  | some u =>
    { st.setUp s { u with connection := some st.opened, conn_waiting := false } with
      data := update st.data st.opened (.upstream s)
      opened := st.opened + 1 }

/-- `ngx_http_lua_socket_tcp_connect` -/
def connect (st : State) (s : Nat) (args : ConnectArgs) (net : Net) : State × Ret :=
  match connectChecks st s args with
  | (st, some ret) => (st, ret)
  | (st, none) =>
    let u := Upstream.zero args.request
    match get_keepalive_peer ((finalize st s).setUp s u) s args.key u with
    | (st, true) => (st, .ok)
    | (st, false) =>
      match net with
      | .established => (open_connection st s, .ok)
      | .waiting => (((st.up s).elim st fun u => st.setUp s { u with conn_waiting := true }), .ok)
      | .failed => (st, .err "failed to connect")

/-! ## `setkeepalive` -/

/-- What `setkeepalive` finds when it is called. -/
structure Conditions where
  request : Nat
  /-- There is unread data in the buffer. -/
  unread : Bool
  /-- An event of the connection has `eof`, `error` or `timedout` set. -/
  invalid : Bool
  /-- `ngx_handle_read_event` succeeds. -/
  handled : Bool
  /-- The memory that is asked for is there. -/
  memory : Bool
  /-- `c->read->ready`, and not for a stale event. -/
  dubious : Bool

/-- The checks of `setkeepalive`: the key, the upstream and its connection. -/
def keepable (st : State) (s : Nat) (c : Conditions) : Except Ret (Key × Upstream × Nat) :=
  match st.sockets[s]?.bind Socket.key with
  | none => .error (.err "key not found")
  | some key =>
    match st.up s with
    | none => .error (.err "closed")
    | some u =>
      match u.connection with
      | none => .error (.err "closed")
      | some conn =>
        if u.read_closed ∨ u.write_closed then .error (.err "closed")
        else if u.request ≠ c.request then .error (.raised "bad request")
        else
          match u.busy with
          | some ret => .error ret
          | none =>
            if c.unread then .error (.err "unread data in buffer")
            else if c.invalid then .error (.err "invalid connection")
            else if !c.handled then .error (.err "failed to handle read event")
            else .ok (key, u, conn)

/-- The size of a pool, as an `ngx_uint_t`. -/
def poolSize (conf : Conf) : Arg → Option Nat
  | .absent => some conf.pool_size
  | .integer n => some (n % 2 ^ 64).toNat
  | .bad => none

/-- The bytes of a pool and its items. -/
def poolBytes (key : Key) (pool_size : Nat) : Nat := 56 + (key.bytes.length + 8) / 8 * 8 - 1 + 176 * pool_size

/-- LuaJIT's limit for a userdata, LJ_MAX_UDATA. -/
def MAX_UDATA : Nat := 0x7fffff00

/-- A new pool, all its items free. -/
def newPool (key : Key) (pool_size : Nat) : Pool :=
  { key, pool_size, active_connections := 0, cache := [], free := (List.range pool_size).reverse, items := fun _ => ⟨0, 0⟩ }

/-- The pool of a key, which is created when there is none. The number of bytes that
are asked for wraps around, so that the items of a huge pool may lie beyond them. -/
def spool (conf : Conf) (st : State) (key : Key) (size : Arg) (c : Conditions) : Except Ret (State × Nat) :=
  match st.registry.lookup key with
  | some p => .ok (st, p)
  | none =>
    match poolSize conf size with
    | none => .error (.raised "bad argument #3 to 'setkeepalive' (number expected)")
    | some pool_size =>
      if pool_size = 0 then .error (.err "zero pool size")
      else if !c.memory ∨ MAX_UDATA < poolBytes key pool_size % 2 ^ 64 then .error (.raised "no memory")
      else
        .ok ({ st.setPool st.created (newPool key pool_size) with
          created := st.created + 1
          registry := assign st.registry key st.created
          crashed := st.crashed || decide (2 ^ 64 ≤ poolBytes key pool_size) }, st.created)

/-- An item for a connection: a free one, or the one that was stored first, whose
connection is closed. A pool has at least one item. -/
def Pool.takeItem (pool : Pool) : Pool × Nat :=
  match pool.free with
  | [] =>
    ({ pool with cache := pool.cache.dropLast, active_connections := pool.active_connections - 1 },
      pool.cache.getLast?.getD 0)
  | i :: free => ({ pool with free }, i)

/-- The connection of an upstream goes into an item, at the head of the cache. -/
def Pool.store (pool : Pool) (u : Upstream) (conn : Nat) : Pool × Nat :=
  let (pool, i) := pool.takeItem
  ({ pool with
      items := update pool.items i { pool.items i with connection := conn }
      cache := i :: pool.cache
      active_connections := if u.reused = 0 then pool.active_connections + 1 else pool.active_connections }, i)

/-- The connection is in the pool, and not in the socket object. -/
def store (st : State) (s p : Nat) (key : Key) (u : Upstream) (conn : Nat) : State × Nat :=
  let (pool, i) := (st.pools p).store u conn
  let st := (st.setPool p pool).setUp s { u with connection := none }
  ({ st with stored := update st.stored conn (some key) }, i)

/-- The events of the connection go to the item. -/
def wire (st : State) (p i : Nat) (u : Upstream) (conn : Nat) : State :=
  let pool := st.pools p
  { st.setPool p { pool with items := update pool.items i { pool.items i with reused := u.reused } } with
    data := update st.data conn (.item p i) }

/-- `ngx_http_lua_socket_tcp_setkeepalive` -/
def setkeepalive (conf : Conf) (st : State) (s : Nat) (timeout size : Arg) (c : Conditions) : State × Ret :=
  match keepable st s c with
  | .error ret => (st, ret)
  | .ok (key, u, conn) =>
    match spool conf st key size c with
    | .error ret => (st, ret)
    | .ok (st, p) =>
      let (st, i) := store st s p key u conn
      match timeout with
      | .bad => (st, .raised "bad argument #2 to 'setkeepalive' (number expected)")
      | _ =>
        let st := wire st p i u conn
        if c.dubious then (close_handler st p i, .err "connection in dubious state")
        else (finalize st s, .ok)

/-! ## Runs -/

/-- `ngx_http_lua_socket_tcp_close` -/
def close (st : State) (s request : Nat) : State × Ret :=
  match st.up s with
  | none => (st, .err "closed")
  | some u =>
    if u.connection = none ∨ (u.read_closed ∧ u.write_closed) then (st, .err "closed")
    else if u.request ≠ request then (st, .raised "bad request")
    else
      match u.busy with
      | some ret => (st, ret)
      | none => (finalize st s, .ok)

inductive Event
  | tcp
  | connect (s : Nat) (args : ConnectArgs) (net : Net)
  /-- A `connect` that waits is resumed. -/
  | resume (s : Nat) (established : Bool)
  /-- Reading and writing. -/
  | io (s : Nat) (read_waiting write_waiting read_closed write_closed : Bool)
  | setkeepalive (s : Nat) (timeout size : Arg) (c : Conditions)
  | close (s request : Nat)
  /-- `ngx_http_lua_socket_tcp_cleanup`: the request ends, or the object is collected. -/
  | cleanup (s : Nat)
  /-- A cached connection is idle for too long, or closed by its peer or by nginx. -/
  | idle (p i : Nat)
  /-- A pool that is not registered is collected. -/
  | gc (p : Nat)
  /-- The Lua VM is closed: its pools are collected, and its registry is gone. -/
  | lua_close

/-- What happens on an event, when it can happen. -/
def happen (conf : Conf) (st : State) : Event → Option State
  | .tcp => if st.closing then none else some { st with sockets := st.sockets ++ [{ key := none, upstream := none }] }
  | .connect s args net =>
    if st.closing ∨ st.sockets.length ≤ s then none else some (connect st s args net).1
  | .resume s established =>
    match st.up s with
    | none => none
    | some u =>
      if st.closing ∨ !u.conn_waiting ∨ u.read_closed then none
      else if established then some (open_connection st s)
      else some (st.setUp s { u with conn_waiting := false })
  | .io s read_waiting write_waiting read_closed write_closed =>
    (st.up s).map fun u => st.setUp s { u with read_waiting, write_waiting, read_closed, write_closed }
  | .setkeepalive s timeout size c =>
    if st.closing ∨ st.sockets.length ≤ s then none else some (setkeepalive conf st s timeout size c).1
  | .close s request => if st.closing ∨ st.sockets.length ≤ s then none else some (close st s request).1
  | .cleanup s => some (finalize st s)
  | .idle p i =>
    let pool := st.pools p
    if i ∈ pool.cache ∧ st.data (pool.items i).connection = .item p i then some (close_handler st p i) else none
  | .gc p =>
    if (∃ e ∈ st.registry, e.2 = p) then none else some (st.setPool p (st.pools p).shutdown)
  | .lua_close =>
    if st.closing then none
    else some { st with pools := fun p => (st.pools p).shutdown, registry := [], closing := true }

def step (conf : Conf) (st : State) (e : Event) : Option State := if st.crashed then none else happen conf st e

end OpenResty.NgxLua.KeepalivePool
