/-
`resty.lrucache`. The queue nodes are cells of one memory: the array of the
free queue lies at 1, its own node first, and the node of the cache queue
behind it. Keys are any Lua values but nil and NaN, with which a table cannot
be indexed. A value may be nil, which a table does not keep.
-/
import Mathlib.Data.Rat.Defs
import OpenResty.Lib.Ring

namespace OpenResty.Resty

open Lib Function

def NULL : Nat := 0

/-! ## Queues -/

namespace Queue

/-- What is done for `q[1]`, .., `q[size]` in turn, with the node before. -/
def initLoop (q : Nat) : Links × Nat → Nat → Links × Nat
  | (l, prev), i => ((l.setNext prev (q + i)).setPrev (q + i) prev, q + i)

def init (l : Links) (q size : Nat) : Links :=
  if size = 0 then (l.setPrev q q).setNext q q
  else
    let (l, _) := (List.range' 1 size).foldl (initLoop q) (l, q)
    let last := q + size
    (l.setNext last q).setPrev q last

def isEmpty (l : Links) (q : Nat) : Bool := q == l.prev q

def remove (l : Links) (x : Nat) : Links := ((l.remove x).setPrev x NULL).setNext x NULL

def last (l : Links) (h : Nat) : Nat := l.prev h

def head (l : Links) (h : Nat) : Nat := l.next h

end Queue

/-! ## The cache -/

structure Lrucache (K V : Type) where
  links : Links
  /-- `node.expire` -/
  expire : Nat → Rat
  hasht : K → Option V
  free_queue : Nat
  cache_queue : Nat
  key2node : K → Option Nat
  node2key : Nat → Option K

namespace Lrucache

variable {K V : Type} [DecidableEq K]

def new (size : Nat) : Option (Lrucache K V) :=
  if size < 1 then none
  else
    let free_queue := 1
    let cache_queue := free_queue + size + 1
    let links : Links := { prev := fun _ => NULL, next := fun _ => NULL }
    some
      { links := Queue.init (Queue.init links free_queue size) cache_queue 0
        expire := fun _ => 0, hasht := fun _ => none, free_queue, cache_queue
        key2node := fun _ => none, node2key := fun _ => none }

/-- A field of nil is read. -/
inductive Fault
  | nilNode

/-- The value, and a stale value. -/
def get (c : Lrucache K V) (now : Rat) (key : K) : Except Fault ((Option V × Option V) × Lrucache K V) :=
  match c.hasht key with
  | none => .ok ((none, none), c)
  | some val =>
    match c.key2node key with
    | none => .error .nilNode
    | some node =>
      let c := { c with links := (Queue.remove c.links node).insertHead c.cache_queue node }
      if 0 ≤ c.expire node ∧ c.expire node < now then .ok ((none, some val), c) else .ok ((some val, none), c)

def delete (c : Lrucache K V) (key : K) : Bool × Lrucache K V :=
  let c := { c with hasht := update c.hasht key none }
  match c.key2node key with
  | none => (false, c)
  | some node =>
    (true,
      { c with
        key2node := update c.key2node key none
        node2key := update c.node2key node none
        links := (Queue.remove c.links node).insertTail c.free_queue node })

/-- The node for a new key: a free one, or that of the least recently used key. -/
def takeNode (c : Lrucache K V) : Nat × Lrucache K V :=
  if Queue.isEmpty c.links c.free_queue then
    let node := Queue.last c.links c.cache_queue
    match c.node2key node with
    | none => (node, c)
    | some oldkey =>
      (node,
        { c with
          hasht := update c.hasht oldkey none
          key2node := update c.key2node oldkey none })
  else (Queue.head c.links c.free_queue, c)

/-- What `node.expire` is set to. -/
def expireAt (now : Rat) : Option Rat → Rat
  | some ttl => now + ttl
  | none => -1

def set (c : Lrucache K V) (now : Rat) (key : K) (value : Option V) (ttl : Option Rat) : Lrucache K V :=
  let c := { c with hasht := update c.hasht key value }
  let (node, c) :=
    match c.key2node key with
    | some node => (node, c)
    | none =>
      let (node, c) := c.takeNode
      (node,
        { c with
          node2key := update c.node2key node (some key)
          key2node := update c.key2node key (some node) })
  { c with
    links := (Queue.remove c.links node).insertHead c.cache_queue node
    expire := update c.expire node (expireAt now ttl) }

end Lrucache

/-! ## Runs -/

/-- The calls, with what `ngx.now()` gives. This version has no flush. -/
inductive Op (K V : Type)
  | set (now : Rat) (key : K) (value : Option V) (ttl : Option Rat)
  | get (now : Rat) (key : K)
  | delete (key : K)

inductive Result (V : Type)
  | done
  | got (val stale : Option V)
  | deleted (found : Bool)

def step {K V : Type} [DecidableEq K] (c : Lrucache K V) : Op K V → Except Lrucache.Fault (Result V × Lrucache K V)
  | .set now key value ttl => .ok (.done, c.set now key value ttl)
  | .get now key => do let ((val, stale), c) ← c.get now key; return (.got val stale, c)
  | .delete key => let (found, c) := c.delete key; .ok (.deleted found, c)

end OpenResty.Resty
