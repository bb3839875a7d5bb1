/-
`resty.waf.storage` and its two backends: the in-memory tables of a request's
persistent collections, what is tracked for Redis, and what is kept between
requests.

`cjson.decode` of what `cjson.encode` wrote is the parameter `cjson`, a copy
that may fail. The clock `ngx.now` is given to each operation. The Redis server
answers every command; the memcached backend is left out.
-/
import OpenResty.Waf.Rule
import OpenResty.Lib.Assoc

namespace OpenResty.Waf

open Lua Lib Function

/-- A table that is written to: keys and values. -/
abbrev Tbl := List (Scalar × Val)

/-- The values of `_storage_backend`. -/
inductive Backend
  | dict | redis
deriving Repr

/-- The tables of one request, and the stores outside it. -/
structure Storage where
  backend : Backend
  /-- The tables made so far; `next` is the address of the next one. -/
  heap : Nat → Tbl
  next : Nat
  /-- `ctx.storage` -/
  storage : List (Scalar × Nat)
  /-- `ctx.col_lookup` -/
  col_lookup : List (String × Scalar)
  /-- `_storage_redis_delkey`, `_storage_redis_setkey` and `_storage_redis_setkey_t` -/
  delkey : List Scalar
  setkey : List (Scalar × Scalar)
  setkey_t : Bool
  /-- The shared dictionary: what would be decoded from each name. -/
  shm : String → Option Tbl
  /-- The hashes of the Redis server. -/
  redis : String → List (String × String)

def altered : Scalar := .str "__altered"

def expireKey (key : String) : String := "__expire_" ++ key

def colName (col : Scalar) : String := "lua_resty_waf_" ++ col.tostring

/-- `string.find(key, "__", 1, true)` -/
def hasUnderscores : List Char → Bool
  | [] => false
  | c :: cs => ['_', '_'].isPrefixOf (c :: cs) || hasUnderscores cs

namespace Storage

variable (s : Storage)

/-- `ctx.storage[col]`, an index into which raises when it is nil. -/
def addr (col : Option Scalar) : Except String Nat :=
  match col.bind (s.storage.lookup ·) with
  | some a => .ok a
  | none => .error "attempt to index a nil value"

/-- A new table, named `col`. -/
def newTable (col : Scalar) (t : Tbl) : Storage :=
  { s with heap := update s.heap s.next t, next := s.next + 1, storage := assign s.storage col s.next }

def write (a : Nat) (key : Scalar) (value : Val) : Storage :=
  { s with heap := update s.heap a (assign (s.heap a) key value) }

def erase (a : Nat) (key : Scalar) : Storage :=
  { s with heap := update s.heap a (unassign (s.heap a) key) }

/-! ## The shared dictionary -/

/-- A key of a decoded collection, if its variable has expired. -/
def dictExpired (now : Rat) (data : Tbl) : Scalar → Except String (Option String)
  | .str key =>
    if hasUnderscores key.toList then .ok none
    else
      match data.lookup (.str (expireKey key)) with
      | none | some (.leaf (.bool false)) => .ok none
      | some (.leaf (.num t)) => .ok (if t < now then some key else none)
      | some _ => .error "attempt to compare with number"
  | _ => .error "attempt to index a number value"

/-- A decoded collection without its expired variables, and whether there were any. -/
def dictExpire (now : Rat) (data : Tbl) : Except String (Tbl × Bool) := do
  let expired ← data.filterMapM fun (key, _) => dictExpired now data key
  return (data.filter fun (key, _) => !expired.any fun e => key == .str e || key == .str (expireKey e),
    !expired.isEmpty)

/-- `dict.initialize` -/
def dictInitialize (now : Rat) (col : Scalar) : Except String Storage :=
  match s.shm (colName col) with
  | none => .ok (s.newTable col [(altered, .leaf (.bool false))])
  | some data => do
    let (data, changed) ← dictExpire now data
    return s.newTable col (assign data altered (.leaf (.bool changed)))

/-- `dict.persist` -/
def dictPersist (cjson : Tbl → Except String Tbl) (col : Scalar) (data : Tbl) : Except String Storage := do
  let serialized ← cjson data
  return { s with shm := update s.shm (colName col) (some serialized) }

/-! ## Redis -/

/-- `ngx.re.find(value, [=[^\d+$]=])`: digits, and perhaps a newline at the end. -/
def isDigits (value : String) : Bool :=
  let ds := value.toList.takeWhile Char.isDigit
  !ds.isEmpty && (value.toList.drop ds.length == [] || value.toList.drop ds.length == ['\n'])

/-- A field of a hash as a Lua value: bah redis and integers. -/
def redisValue (value : String) : Scalar :=
  if isDigits value then numOrStr value else .str value

/-- A key of a hash, if its variable has expired. -/
def redisExpired (now : Rat) (data : List (String × String)) (key : String) : Except String (Option String) :=
  if hasUnderscores key.toList then .ok none
  else
    match data.lookup (expireKey key) with
    | none => .ok none
    | some t =>
      match tonumber t with
      | some t => .ok (if t < now then some key else none)
      | none => .error "attempt to compare nil with number"

/-- `redis.initialize` -/
def redisInitialize (now : Rat) (col : Scalar) : Except String Storage := do
  let data := s.redis (colName col)
  let expired ← data.filterMapM fun (key, _) => redisExpired now data key
  let left := data.filter fun (key, _) => !expired.any fun e => key == e || key == expireKey e
  let t : Tbl := left.map fun (key, value) => (.str key, .leaf (redisValue value))
  return { s.newTable col (assign t altered (.leaf (.bool !expired.isEmpty))) with
    delkey := s.delkey ++ expired.flatMap fun key => [.str key, .str (expireKey key)] }

def hdel (hash : List (String × String)) (keys : List Scalar) : List (String × String) :=
  keys.foldl (fun hash k => unassign hash k.tostring) hash

def hmset (hash : List (String × String)) (fields : List (Scalar × Scalar)) : List (String × String) :=
  fields.foldl (fun hash (k, v) => assign hash k.tostring v.tostring) hash

/-- `redis.persist`: the pipeline of `hdel`s and one `hmset`. The encoding is made for the log. -/
def redisPersist (cjson : Tbl → Except String Tbl) (col : Scalar) (data : Tbl) : Except String Storage := do
  let _ ← cjson data
  let hash := hdel (s.redis (colName col)) s.delkey
  let hash := if s.setkey_t then hmset hash s.setkey else hash
  return { s with redis := update s.redis (colName col) hash }

/-! ## The interface -/

def initializeCol (now : Rat) (col : Scalar) : Except String Storage :=
  match s.backend with
  | .dict => s.dictInitialize now col
  | .redis => s.redisInitialize now col

/-- The value `set_var` stores, given what is there. -/
def incremented (existing : Option Val) (inc : Bool) (value : Scalar) : Except String Scalar :=
  if inc then
    match existing, value with
    | some (.leaf (.num q)), .num v => .ok (.num (v + q))
    | some (.leaf (.num q)), _ => .ok (.num q)
    | none, .num v | some (.leaf (.bool false)), .num v => .ok (.num (v + 0))
    | none, _ | some (.leaf (.bool false)), _ => .ok (.num 0)
    | _, _ => .error "Cannot increment a value that was not previously a number"
  else .ok value

/-- Track which keys to write to redis. -/
def trackSet (key value : Scalar) (set_t : Bool) : Storage :=
  match s.backend with
  | .redis => { s with setkey := assign s.setkey key value, setkey_t := set_t }
  | .dict => s

/-- redis cant expire specific keys in a hash so we track them for hdel when persisting. -/
def trackDelete (key : Scalar) : Storage :=
  match s.backend with
  | .redis => { s with delkey := s.delkey ++ [key] }
  | .dict => s

def set_var (col : String) (key : Scalar) (inc : Bool) (value : Scalar) : Except String Storage := do
  let a ← s.addr (s.col_lookup.lookup (upper col))
  let value ← incremented ((s.heap a).lookup key) inc value
  return ((s.write a key value).write a altered (.leaf (.bool true))).trackSet key value true

/-- The `..` of a key. -/
def concatKey : Scalar → Except String String
  | .str s => .ok s
  | .num q => .ok (numToString q)
  | .bool _ => .error "attempt to concatenate a boolean value"

def expire_var (now : Rat) (col : String) (key : Scalar) (value : Scalar) : Except String Storage := do
  match arith value with
  | none => .error "attempt to perform arithmetic"
  | some value =>
    let a ← s.addr (s.col_lookup.lookup (upper col))
    let key := Scalar.str (expireKey (← concatKey key))
    let expire := Scalar.num (now + value)
    return ((s.write a key expire).write a altered (.leaf (.bool true))).trackSet key expire s.setkey_t

def delete_var (col : String) (key : Scalar) : Except String Storage := do
  let a ← s.addr (s.col_lookup.lookup (upper col))
  if truthy ((s.heap a).lookup key) then
    return ((s.erase a key).write a altered (.leaf (.bool true))).trackDelete key
  else return s

/-- One collection of `persist`. The flag is cleared even when the backend raises. -/
def persistCol (cjson : Tbl → Except String Tbl) (col : Scalar) (a : Nat) : Storage × Option String :=
  if col ≠ .str "TX" ∧ truthy ((s.heap a).lookup altered) then
    let s := s.erase a altered
    let result :=
      match s.backend with
      | .dict => s.dictPersist cjson col (s.heap a)
      | .redis => s.redisPersist cjson col (s.heap a)
    match result with
    | .ok s => (s, none)
    | .error e => (s, some e)
  else (s, none)

/-- The collections are persisted in turn, up to the first that raises. -/
def persistAll (cjson : Tbl → Except String Tbl) : List (Scalar × Nat) → Storage → Storage × Option String
  | [], s => (s, none)
  | (col, a) :: cols, s =>
    match s.persistCol cjson col a with
    | (s, none) => persistAll cjson cols s
    | (s, some e) => (s, some e)

def persist (cjson : Tbl → Except String Tbl) : Storage × Option String := persistAll cjson s.storage s

/-- The state `exec` starts a request with: `TX` alone, nothing tracked. -/
def start : Storage :=
  { s with
    heap := fun _ => [], next := 1, storage := [(.str "TX", 0)], col_lookup := [("TX", .str "TX")]
    delkey := [], setkey := [], setkey_t := false }

/-- Nothing stored yet. -/
def empty (backend : Backend) : Storage where
  backend
  heap _ := []
  next := 0
  storage := []
  col_lookup := []
  delkey := []
  setkey := []
  setkey_t := false
  shm _ := none
  redis _ := []

end Storage

end OpenResty.Waf
