/-
The shared dictionaries of `ngx_http_lua_shdict.c`: the nodes in the red-black
tree and in the LRU queue, and the operations on them with the arguments
already checked.

The slab allocator and the CRC are taken as they come. Of the red-black tree
the binary tree is modelled, with the balancing as some rotations.
-/
import OpenResty.Lib.Memory
import OpenResty.Lib.SearchTree

namespace OpenResty.NgxLua.Shdict

open Lib

variable {N : Type}

/-- `SHDICT_TBOOLEAN`, `SHDICT_TNUMBER` or `SHDICT_TSTRING`, with the value -/
inductive Value (N : Type)
  | boolean (b : Bool)
  | number (n : N)
  | string (s : Bytes)

/-- `value.len`; no Lua string has 2^32 bytes. -/
def Value.len : Value N → Nat
  | .boolean _ => 1
  | .number _ => 8
  | .string s => s.length

/-- What a node holds; an `SHDICT_TLIST` has a queue of list nodes. -/
inductive Data (N : Type)
  | scalar (v : Value N)
  | list (elems : List (Value N))

def Data.isList : Data N → Bool
  | .scalar _ => false
  | .list _ => true

/-- `ngx_http_lua_shdict_node_t`, with `node->key` as `hash` -/
structure Node (N : Type) where
  hash : Nat
  key : Bytes
  value_len : Nat
  expires : Nat
  user_flags : Nat
  data : Data N

/-- What the dictionary uses of nginx. -/
structure Zone where
  crc32_short : Bytes → Nat
  /-- `ngx_rbtree_insert` and `ngx_rbtree_delete`, after the binary tree is changed -/
  insertFixup : Lib.Tree Nat → Lib.Tree Nat
  deleteFixup : Lib.Tree Nat → Lib.Tree Nat
  insert_rotates : ∀ t, Lib.Tree.Rotated t (insertFixup t)
  delete_rotates : ∀ t, Lib.Tree.Rotated t (deleteFixup t)

/-- What `ngx_slab_alloc_locked` returns at the calls in one operation: no
memory, or some, with what it holds where the key will be. -/
abbrev Slab := Nat → Option (Nat → UInt8)

/-- `ngx_http_lua_shdict_shctx_t`, and the nodes it points to; `fresh` is the
next node to be allocated. -/
structure Shctx (N : Type) where
  rbtree : Lib.Tree Nat
  lru_queue : List Nat
  node : Nat → Node N
  fresh : Nat

/-- `ngx_memcmp` of as many bytes as there are of both -/
def memcmp : Bytes → Bytes → Ordering
  | a :: s1, b :: s2 => if a < b then .lt else if b < a then .gt else memcmp s1 s2
  | _, _ => .eq

def memn2cmp (s1 s2 : Bytes) : Ordering :=
  match memcmp s1 s2 with
  | .eq => compare s1.length s2.length
  | m => m

/-- A difference of times as an `int64_t`. -/
def int64 (n : Int) : Int := (n + 2 ^ 63) % 2 ^ 64 - 2 ^ 63

def Node.ms (sd : Node N) (now : Nat) : Int := int64 (sd.expires - now)

/-- `ngx_http_lua_shdict_rbtree_insert_value` goes to the left. -/
def Node.before (sdn sdnt : Node N) : Bool :=
  if sdn.hash < sdnt.hash then true
  else if sdnt.hash < sdn.hash then false
  else memn2cmp sdn.key sdnt.key = .lt

/-- `NGX_OK`, `NGX_DONE` or `NGX_DECLINED`, with the node -/
inductive Rc
  | ok (sd : Nat)
  | done (sd : Nat)
  | declined

namespace Shctx

def setNode (d : Shctx N) (sd : Nat) (n : Node N) : Shctx N := { d with node := Function.update d.node sd n }

/-- `ngx_queue_remove` and `ngx_queue_insert_head` -/
def toFront (d : Shctx N) (sd : Nat) : Shctx N := { d with lru_queue := sd :: d.lru_queue.erase sd }

/-- A node leaves the queue and the tree, and is freed with its list nodes. -/
def remove (z : Zone) (d : Shctx N) (sd : Nat) : Shctx N :=
  { d with lru_queue := d.lru_queue.erase sd, rbtree := z.deleteFixup (d.rbtree.delete sd) }

/-- `ngx_rbtree_insert` and `ngx_queue_insert_head` of a new node -/
def addNode (z : Zone) (d : Shctx N) (n : Node N) : Shctx N :=
  { lru_queue := d.fresh :: d.lru_queue
    rbtree := z.insertFixup (d.rbtree.insertLeaf (fun sdnt => n.before (d.node sdnt)) d.fresh)
    node := Function.update d.node d.fresh n
    fresh := d.fresh + 1 }

def lookup (z : Zone) (d : Shctx N) (now : Nat) (key : Bytes) : Rc × Shctx N :=
  let hash := z.crc32_short key
  let sought := d.rbtree.descend fun node =>
    if hash < (d.node node).hash then .lt
    else if (d.node node).hash < hash then .gt
    else memn2cmp key (d.node node).key
  match sought with
  | none => (.declined, d)
  | some sd =>
    let rc := if (d.node sd).expires ≠ 0 ∧ (d.node sd).ms now < 0 then .done sd else .ok sd
    (rc, d.toFront sd)

/-- The loop of `ngx_http_lua_shdict_expire`, with how many rounds are left. -/
def expireLoop (z : Zone) (now : Nat) : Nat → Bool → Shctx N → Nat × Shctx N
  | 0, _, d => (0, d)
  | rounds + 1, forced, d =>
    match d.lru_queue.getLast? with
    | none => (0, d)
    | some sd =>
      if !forced ∧ ((d.node sd).expires = 0 ∨ 0 < (d.node sd).ms now) then (0, d)
      else
        let (freed, d) := expireLoop z now rounds false (d.remove z sd)
        (freed + 1, d)

/-- `ngx_http_lua_shdict_expire`; `n` is 0 or 1. -/
def expire (z : Zone) (now : Nat) (n : Nat) (d : Shctx N) : Nat × Shctx N := expireLoop z now (3 - n) (n = 0) d

/-- Other nodes make room, at most thirty times; `i` is the next call of the slab. -/
def evictLoop (z : Zone) (now : Nat) (slab : Slab) :
    Nat → Nat → Bool → Shctx N → Option (Nat → UInt8) × Bool × Shctx N
  | 0, _, forcible, d => (none, forcible, d)
  | rounds + 1, i, forcible, d =>
    let (freed, d) := d.expire z now 0
    if freed = 0 then (none, forcible, d)
    else
      match slab i with
      | some mem => (some mem, true, d)
      | none => evictLoop z now slab rounds (i + 1) true d

/-- Memory for a node, whether others were removed for it, and what is left. -/
def allocate (z : Zone) (now : Nat) (slab : Slab) (safe : Bool) (d : Shctx N) :
    Option (Nat → UInt8) × Bool × Shctx N :=
  match slab 0 with
  | some mem => (some mem, false, d)
  | none => if safe then (none, false, d) else evictLoop z now slab 30 1 false d

end Shctx

/-! ## Values -/

/-- `NGX_HTTP_LUA_SHDICT_ADD`, `REPLACE` and `SAFE_STORE` -/
structure StoreOp where
  add : Bool
  replace : Bool
  safe_store : Bool

inductive Stored
  | ok (forcible : Bool)
  | exists
  | notFound
  | noMemory (forcible : Bool)

/-- What is stored under a key, for `ttl` milliseconds or for good. -/
structure Item (N : Type) where
  key : Bytes
  value : Option (Value N)
  ttl : Option Nat
  user_flags : Nat

/-- `sd->expires` for an entry that is stored now -/
def expiresAt (now : Nat) (ttl : Option Nat) : Nat := ttl.elim 0 fun ttl => (now + ttl) % 2 ^ 64

namespace Shctx

/-- `insert:` -/
def storeInsert (z : Zone) (now : Nat) (slab : Slab) (op : StoreOp) (item : Item N) (d : Shctx N) :
    Stored × Shctx N :=
  match item.value with
  | none => (.ok false, d)
  | some value =>
    match d.allocate z now slab op.safe_store with
    | (none, forcible, d) => (.noMemory forcible, d)
    | (some _, forcible, d) =>
      (.ok forcible,
        d.addNode z
          { hash := z.crc32_short item.key, key := item.key, value_len := value.len, data := .scalar value
            expires := expiresAt now item.ttl, user_flags := item.user_flags })

/-- `replace:` and `remove:` -/
def storeReplace (z : Zone) (now : Nat) (slab : Slab) (op : StoreOp) (item : Item N) (sd : Nat) (d : Shctx N) :
    Stored × Shctx N :=
  match item.value with
  | none => (d.remove z sd).storeInsert z now slab op item
  | some value =>
    if value.len = (d.node sd).value_len ∧ (d.node sd).data.isList = false then
      (.ok false,
        (d.toFront sd).setNode sd
          { d.node sd with
            key := item.key, value_len := value.len, data := .scalar value
            expires := expiresAt now item.ttl, user_flags := item.user_flags })
    else (d.remove z sd).storeInsert z now slab op item

/-- What `ngx_http_lua_shdict_set_helper` and `ngx_http_lua_ffi_shdict_store`
do in the dictionary. -/
def store (z : Zone) (now : Nat) (slab : Slab) (op : StoreOp) (item : Item N) (d : Shctx N) : Stored × Shctx N :=
  let d := (d.expire z now 1).2
  let (rc, d) := d.lookup z now item.key
  if op.replace then
    match rc with
    | .ok sd => d.storeReplace z now slab op item sd
    | _ => (.notFound, d)
  else if op.add then
    match rc with
    | .ok _ => (.exists, d)
    | .done sd => d.storeReplace z now slab op item sd
    | .declined => d.storeInsert z now slab op item
  else
    match rc with
    | .ok sd | .done sd => d.storeReplace z now slab op item sd
    | .declined => d.storeInsert z now slab op item

end Shctx

inductive Fetched (N : Type)
  | missing
  | value (v : Value N) (user_flags : Nat) (stale : Bool)
  | isList
  | badSize

/-- The value of a node, when its size is that of its type. -/
def Node.fetch (sd : Node N) (stale : Bool) : Fetched N :=
  match sd.data with
  | .list _ => .isList
  | .scalar (.number n) => if sd.value_len ≠ 8 then .badSize else .value (.number n) sd.user_flags stale
  | .scalar (.boolean b) => if sd.value_len ≠ 1 then .badSize else .value (.boolean b) sd.user_flags stale
  | .scalar (.string s) => .value (.string s) sd.user_flags stale

/-- What `ngx_http_lua_shdict_get_helper` and `ngx_http_lua_ffi_shdict_get` do
in the dictionary. -/
def Shctx.get (z : Zone) (now : Nat) (key : Bytes) (get_stale : Bool) (d : Shctx N) : Fetched N × Shctx N :=
  let d := if get_stale then d else (d.expire z now 1).2
  let (rc, d) := d.lookup z now key
  match rc with
  | .declined => (.missing, d)
  | .ok sd => ((d.node sd).fetch false, d)
  | .done sd => if get_stale then ((d.node sd).fetch true, d) else (.missing, d)

inductive Incremented (N : Type)
  | added (num : N)
  | created (num : N) (forcible : Bool)
  | notFound
  | notNumber
  | noMemory (forcible : Bool)

namespace Shctx

/-- `insert:`, where the key is written when the node is in the tree already. -/
def incrInsert (z : Zone) (now : Nat) (slab : Slab) (key : Bytes) (num : N) (d : Shctx N) : Incremented N × Shctx N :=
  match d.allocate z now slab false with
  | (none, forcible, d) => (.noMemory forcible, d)
  | (some mem, forcible, d) =>
    let sd : Node N :=
      { hash := z.crc32_short key, key := (List.range key.length).map mem, value_len := 8, data :=
        .scalar (.number num)
        expires := 0, user_flags := 0 }
    (.created num forcible, (d.addNode z sd).setNode d.fresh { sd with key })

/-- What `ngx_http_lua_shdict_incr` and `ngx_http_lua_ffi_shdict_incr` do in
the dictionary. -/
def incr [Add N] (z : Zone) (now : Nat) (slab : Slab) (key : Bytes) (value : N) (init : Option N) (d : Shctx N) :
    Incremented N × Shctx N :=
  let d := (d.expire z now 1).2
  let (rc, d) := d.lookup z now key
  match rc with
  | .declined =>
    match init with
    | none => (.notFound, d)
    | some init => d.incrInsert z now slab key (value + init)
  | .done sd =>
    match init with
    | none => (.notFound, d)
    | some init =>
      if (d.node sd).value_len = 8 ∧ (d.node sd).data.isList = false then
        (.created (value + init) false,
          (d.toFront sd).setNode sd
            { d.node sd with key, data := .scalar (.number (value + init)), expires := 0, user_flags := 0 })
      else (d.remove z sd).incrInsert z now slab key (value + init)
  | .ok sd =>
    match (d.node sd).data with
    | .scalar (.number num) =>
      if (d.node sd).value_len ≠ 8 then (.notNumber, d)
      else
        (.added (num + value), (d.toFront sd).setNode sd { d.node sd with data := .scalar (.number (num + value)) })
    | _ => (.notNumber, d)

end Shctx

/-! ## Lists -/

inductive Pushed
  | len (n : Nat)
  | badType
  | notList
  | noMemory

/-- Elements are strings or numbers. -/
def Value.pushable : Value N → Bool
  | .boolean _ => false
  | _ => true

namespace Shctx

/-- `push_node:`, on a list -/
def pushNode (z : Zone) (slab : Slab) (left : Bool) (value : Value N) (sd : Nat) (elems : List (Value N))
    (d : Shctx N) :
    Pushed × Shctx N :=
  match slab 1 with
  | none => (.noMemory, if (d.node sd).value_len = 0 then d.remove z sd else d)
  | some _ =>
    let value_len := ((d.node sd).value_len + 1) % 2 ^ 32
    let elems := if left then value :: elems else elems ++ [value]
    (.len value_len, d.setNode sd { d.node sd with value_len, data := .list elems })

/-- `init_list:` -/
def initList (z : Zone) (slab : Slab) (key : Bytes) (left : Bool) (value : Value N) (d : Shctx N) :
    Pushed × Shctx N :=
  match slab 0 with
  | none => (.noMemory, d)
  | some _ =>
    let sd := d.fresh
    let d := d.addNode z
      { d.node sd with hash := z.crc32_short key, key, value_len := 0, expires := 0, data := .list [] }
    d.pushNode z slab left value sd []

/-- `ngx_http_lua_shdict_push_helper` -/
def push (z : Zone) (now : Nat) (slab : Slab) (key : Bytes) (left : Bool) (value : Value N) (d : Shctx N) :
    Pushed × Shctx N :=
  if value.pushable = false then (.badType, d)
  else
    let d := (d.expire z now 1).2
    let (rc, d) := d.lookup z now key
    match rc with
    | .declined => d.initList z slab key left value
    | .done sd =>
      if (d.node sd).data.isList = false then (d.remove z sd).initList z slab key left value
      else
        let d := (d.setNode sd { d.node sd with expires := 0, data := .list [] }).toFront sd
        d.pushNode z slab left value sd []
    | .ok sd =>
      match (d.node sd).data with
      | .scalar _ => (.notList, d)
      | .list elems => (d.toFront sd).pushNode z slab left value sd elems

end Shctx

inductive Popped (N : Type)
  | value (v : Value N)
  | missing
  | notList
  | badLength
  | badType

/-- `ngx_http_lua_shdict_pop_helper`. When the queue is empty but the length is
not, the head of the queue is taken for an element: no result is given. -/
def Shctx.pop (z : Zone) (now : Nat) (key : Bytes) (left : Bool) (d : Shctx N) : Option (Popped N × Shctx N) :=
  let d := (d.expire z now 1).2
  let (rc, d) := d.lookup z now key
  match rc with
  | .declined | .done _ => some (.missing, d)
  | .ok sd =>
    match (d.node sd).data with
    | .scalar _ => some (.notList, d)
    | .list elems =>
      if (d.node sd).value_len = 0 then some (.badLength, d)
      else
        match if left then elems.head? else elems.getLast? with
        | none => none
        | some value =>
          if value.pushable = false then some (.badType, d)
          else
            let elems := if left then elems.tail else elems.dropLast
            let value_len := (d.node sd).value_len
            if value_len = 1 then some (.value value, d.remove z sd)
            else
              some (.value value,
                (d.toFront sd).setNode sd { d.node sd with value_len := value_len - 1, data := .list elems })

inductive Counted
  | len (n : Nat)
  | notList

/-- `ngx_http_lua_shdict_llen` -/
def Shctx.llen (z : Zone) (now : Nat) (key : Bytes) (d : Shctx N) : Counted × Shctx N :=
  let d := (d.expire z now 1).2
  let (rc, d) := d.lookup z now key
  match rc with
  | .ok sd => if (d.node sd).data.isList = false then (.notList, d) else (.len (d.node sd).value_len, d.toFront sd)
  | _ => (.len 0, d)

/-! ## All entries -/

namespace Shctx

/-- `ngx_http_lua_shdict_flush_all` -/
def flushAll (z : Zone) (now : Nat) (d : Shctx N) : Shctx N :=
  let d := { d with node := fun sd => if sd ∈ d.lru_queue then { d.node sd with expires := 1 } else d.node sd }
  (d.expire z now 0).2

/-- The loop of `ngx_http_lua_shdict_flush_expired` from the end of the queue. -/
def flushLoop (z : Zone) (now : Nat) (attempts : Int) : List Nat → Nat → Shctx N → Nat × Shctx N
  | [], freed, d => (freed, d)
  | sd :: queue, freed, d =>
    if (d.node sd).expires ≠ 0 ∧ (d.node sd).expires ≤ now then
      let d := d.remove z sd
      let freed := freed + 1
      if attempts ≠ 0 ∧ freed = attempts then (freed, d) else flushLoop z now attempts queue freed d
    else flushLoop z now attempts queue freed d

def flushExpired (z : Zone) (now : Nat) (attempts : Int) (d : Shctx N) : Nat × Shctx N :=
  flushLoop z now attempts d.lru_queue.reverse 0 d

/-- `ngx_http_lua_shdict_get_keys` -/
def getKeys (now : Nat) (attempts : Int) (d : Shctx N) : List Bytes :=
  let keys := (d.lru_queue.reverse.filter fun sd => (d.node sd).expires = 0 ∨ now < (d.node sd).expires).map
    fun sd => (d.node sd).key
  if 0 < attempts then keys.take attempts.toNat else keys

end Shctx

/-! ## Sequences of operations -/

inductive Op (N : Type)
  | store (op : StoreOp) (item : Item N)
  | get (key : Bytes) (get_stale : Bool)
  | incr (key : Bytes) (value : N) (init : Option N)
  | push (key : Bytes) (left : Bool) (value : Value N)
  | pop (key : Bytes) (left : Bool)
  | llen (key : Bytes)
  | flushAll
  | flushExpired (attempts : Int)
  | getKeys (attempts : Int)

inductive Result (N : Type)
  | stored (r : Stored)
  | fetched (r : Fetched N)
  | incremented (r : Incremented N)
  | pushed (r : Pushed)
  | popped (r : Popped N)
  | counted (r : Counted)
  | flushed
  | freed (n : Nat)
  | keys (ks : List Bytes)

/-- An operation, some time after the last one. -/
structure Event (N : Type) where
  elapsed : Nat
  op : Op N
  slab : Slab

structure State (N : Type) where
  dict : Shctx N
  now : Nat

def Op.run [Add N] (z : Zone) (now : Nat) (slab : Slab) (d : Shctx N) : Op N → Option (Result N × Shctx N)
  | .store op item => let (r, d) := d.store z now slab op item; some (.stored r, d)
  | .get key get_stale => let (r, d) := d.get z now key get_stale; some (.fetched r, d)
  | .incr key value init => let (r, d) := d.incr z now slab key value init; some (.incremented r, d)
  | .push key left value => let (r, d) := d.push z now slab key left value; some (.pushed r, d)
  | .pop key left => (d.pop z now key left).map fun (r, d) => (.popped r, d)
  | .llen key => let (r, d) := d.llen z now key; some (.counted r, d)
  | .flushAll => some (.flushed, d.flushAll z now)
  | .flushExpired attempts => let (r, d) := d.flushExpired z now attempts; some (.freed r, d)
  | .getKeys attempts => some (.keys (d.getKeys now attempts), d)

def stepResult [Add N] (z : Zone) (s : State N) (e : Event N) : Option (Result N × State N) :=
  (e.op.run z (s.now + e.elapsed) e.slab s.dict).map fun (r, dict) => (r, { dict, now := s.now + e.elapsed })

def step [Add N] (z : Zone) (s : State N) (e : Event N) : Option (State N) := (stepResult z s e).map (·.2)

/-- `ngx_http_lua_shdict_init_zone` -/
def Shctx.init (node : Nat → Node N) : Shctx N := { rbtree := .leaf, lru_queue := [], node, fresh := 0 }

/-- A zone that adds up the bytes of a key for its hash, and leaves trees as they come. -/
def plainZone : Zone where
  crc32_short := fun key => (key.map UInt8.toNat).sum
  insertFixup := id
  deleteFixup := id
  insert_rotates := fun _ => .refl
  delete_rotates := fun _ => .refl

def blankNode : Node Int :=
  { hash := 0, key := [], value_len := 0, expires := 0, user_flags := 0, data := .scalar (.boolean false) }

end OpenResty.NgxLua.Shdict
