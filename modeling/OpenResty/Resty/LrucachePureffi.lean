/-
`resty.lrucache.pureffi`: the same cache in arrays. Keys and values lie under
the ID of their node, a hash of the key's address leads to a bucket, and the
nodes of a bucket are linked by their IDs.

It answers as `resty.lrucache` does, where a string keeps its address as long
as it is a key.
-/
import Mathlib.Data.Rat.Floor
import OpenResty.Lib.Buckets
import OpenResty.Resty.LrucacheFacts

namespace OpenResty.Resty

open Lib Function

/-! ## Hashes -/

def crc_tab : List Nat :=
  [0x00000000, 0x77073096, 0xEE0E612C, 0x990951BA, 0x076DC419, 0x706AF48F, 0xE963A535, 0x9E6495A3,
   0x0EDB8832, 0x79DCB8A4, 0xE0D5E91E, 0x97D2D988, 0x09B64C2B, 0x7EB17CBD, 0xE7B82D07, 0x90BF1D91,
   0x1DB71064, 0x6AB020F2, 0xF3B97148, 0x84BE41DE, 0x1ADAD47D, 0x6DDDE4EB, 0xF4D4B551, 0x83D385C7,
   0x136C9856, 0x646BA8C0, 0xFD62F97A, 0x8A65C9EC, 0x14015C4F, 0x63066CD9, 0xFA0F3D63, 0x8D080DF5,
   0x3B6E20C8, 0x4C69105E, 0xD56041E4, 0xA2677172, 0x3C03E4D1, 0x4B04D447, 0xD20D85FD, 0xA50AB56B,
   0x35B5A8FA, 0x42B2986C, 0xDBBBC9D6, 0xACBCF940, 0x32D86CE3, 0x45DF5C75, 0xDCD60DCF, 0xABD13D59,
   0x26D930AC, 0x51DE003A, 0xC8D75180, 0xBFD06116, 0x21B4F4B5, 0x56B3C423, 0xCFBA9599, 0xB8BDA50F,
   0x2802B89E, 0x5F058808, 0xC60CD9B2, 0xB10BE924, 0x2F6F7C87, 0x58684C11, 0xC1611DAB, 0xB6662D3D,
   0x76DC4190, 0x01DB7106, 0x98D220BC, 0xEFD5102A, 0x71B18589, 0x06B6B51F, 0x9FBFE4A5, 0xE8B8D433,
   0x7807C9A2, 0x0F00F934, 0x9609A88E, 0xE10E9818, 0x7F6A0DBB, 0x086D3D2D, 0x91646C97, 0xE6635C01,
   0x6B6B51F4, 0x1C6C6162, 0x856530D8, 0xF262004E, 0x6C0695ED, 0x1B01A57B, 0x8208F4C1, 0xF50FC457,
   0x65B0D9C6, 0x12B7E950, 0x8BBEB8EA, 0xFCB9887C, 0x62DD1DDF, 0x15DA2D49, 0x8CD37CF3, 0xFBD44C65,
   0x4DB26158, 0x3AB551CE, 0xA3BC0074, 0xD4BB30E2, 0x4ADFA541, 0x3DD895D7, 0xA4D1C46D, 0xD3D6F4FB,
   0x4369E96A, 0x346ED9FC, 0xAD678846, 0xDA60B8D0, 0x44042D73, 0x33031DE5, 0xAA0A4C5F, 0xDD0D7CC9,
   0x5005713C, 0x270241AA, 0xBE0B1010, 0xC90C2086, 0x5768B525, 0x206F85B3, 0xB966D409, 0xCE61E49F,
   0x5EDEF90E, 0x29D9C998, 0xB0D09822, 0xC7D7A8B4, 0x59B33D17, 0x2EB40D81, 0xB7BD5C3B, 0xC0BA6CAD,
   0xEDB88320, 0x9ABFB3B6, 0x03B6E20C, 0x74B1D29A, 0xEAD54739, 0x9DD277AF, 0x04DB2615, 0x73DC1683,
   0xE3630B12, 0x94643B84, 0x0D6D6A3E, 0x7A6A5AA8, 0xE40ECF0B, 0x9309FF9D, 0x0A00AE27, 0x7D079EB1,
   0xF00F9344, 0x8708A3D2, 0x1E01F268, 0x6906C2FE, 0xF762575D, 0x806567CB, 0x196C3671, 0x6E6B06E7,
   0xFED41B76, 0x89D32BE0, 0x10DA7A5A, 0x67DD4ACC, 0xF9B9DF6F, 0x8EBEEFF9, 0x17B7BE43, 0x60B08ED5,
   0xD6D6A3E8, 0xA1D1937E, 0x38D8C2C4, 0x4FDFF252, 0xD1BB67F1, 0xA6BC5767, 0x3FB506DD, 0x48B2364B,
   0xD80D2BDA, 0xAF0A1B4C, 0x36034AF6, 0x41047A60, 0xDF60EFC3, 0xA867DF55, 0x316E8EEF, 0x4669BE79,
   0xCB61B38C, 0xBC66831A, 0x256FD2A0, 0x5268E236, 0xCC0C7795, 0xBB0B4703, 0x220216B9, 0x5505262F,
   0xC5BA3BBE, 0xB2BD0B28, 0x2BB45A92, 0x5CB36A04, 0xC2D7FFA7, 0xB5D0CF31, 0x2CD99E8B, 0x5BDEAE1D,
   0x9B64C2B0, 0xEC63F226, 0x756AA39C, 0x026D930A, 0x9C0906A9, 0xEB0E363F, 0x72076785, 0x05005713,
   0x95BF4A82, 0xE2B87A14, 0x7BB12BAE, 0x0CB61B38, 0x92D28E9B, 0xE5D5BE0D, 0x7CDCEFB7, 0x0BDBDF21,
   0x86D3D2D4, 0xF1D4E242, 0x68DDB3F8, 0x1FDA836E, 0x81BE16CD, 0xF6B9265B, 0x6FB077E1, 0x18B74777,
   0x88085AE6, 0xFF0F6A70, 0x66063BCA, 0x11010B5C, 0x8F659EFF, 0xF862AE69, 0x616BFFD3, 0x166CCF45,
   0xA00AE278, 0xD70DD2EE, 0x4E048354, 0x3903B3C2, 0xA7672661, 0xD06016F7, 0x4969474D, 0x3E6E77DB,
   0xAED16A4A, 0xD9D65ADC, 0x40DF0B66, 0x37D83BF0, 0xA9BCAE53, 0xDEBB9EC5, 0x47B2CF7F, 0x30B5FFE9,
   0xBDBDF21C, 0xCABAC28A, 0x53B39330, 0x24B4A3A6, 0xBAD03605, 0xCDD70693, 0x54DE5729, 0x23D967BF,
   0xB3667A2E, 0xC4614AB8, 0x5D681B02, 0x2A6F2B94, 0xB40BBE37, 0xC30C8EA1, 0x5A05DF1B, 0x2D02EF8D]

def brshift (x n : Nat) : Nat := (x % 2 ^ 32) >>> n

def crc32_ptr (ptr : Nat) : Nat :=
  let p := brshift ptr 3
  let b := p &&& 255
  let crc32 := crc_tab.getD b 0
  let b := brshift p 8 &&& 255
  let crc32 := brshift crc32 8 ^^^ crc_tab.getD ((crc32 ^^^ b) &&& 255) 0
  let b := brshift p 16 &&& 255
  brshift crc32 8 ^^^ crc_tab.getD ((crc32 ^^^ b) &&& 255) 0

/-! ## The cache -/

/-- Keys are strings, and values are not nil. -/
structure Pureffi (K V : Type) where
  size : Nat
  bucket_sz : Nat
  links : Links
  /-- the fields of the nodes, by address -/
  id : Nat → Nat
  conflict : Nat → Nat
  expire : Nat → Rat
  free_queue : Nat
  cache_queue : Nat
  node_v : Nat
  key_v : Nat → Option K
  val_v : Nat → Option V
  bucket_v : Nat → Nat

namespace Pureffi

variable {K V : Type} [DecidableEq K]

/-- `load_f`, with the default and the bounds -/
def loadFactor : Option Rat → Rat
  | none => 1 / 2
  | some load_factor => if 1 < load_factor then 1 else if load_factor < 1 / 10 then 1 / 10 else load_factor

/-- `bucket_sz` is doubled until there is room. -/
def bucketSize (bs_min : Rat) : Nat → Nat → Nat
  | 0, bucket_sz => bucket_sz
  | fuel + 1, bucket_sz => if bs_min ≤ ↑(bucket_sz * 2) then bucket_sz * 2 else bucketSize bs_min fuel (bucket_sz * 2)

def new (size : Nat) (load_factor : Option Rat) : Option (Pureffi K V) :=
  if size < 1 then none
  else
    let bs_min := size / loadFactor load_factor
    let free_queue := 1
    let cache_queue := free_queue + size + 1
    let links : Links := { prev := fun _ => NULL, next := fun _ => NULL }
    some
      { size, bucket_sz := bucketSize bs_min ⌈bs_min⌉₊ 1
        links := Queue.init (Queue.init links free_queue size) cache_queue 0
        id := fun x => if x ≤ free_queue + size then x - free_queue else 0
        conflict := fun _ => 0, expire := fun _ => 0, free_queue, cache_queue, node_v := free_queue
        key_v := fun _ => none, val_v := fun _ => none, bucket_v := fun _ => 0 }

/-- A loop that does not end, or a node without a key. -/
inductive Fault
  | endless
  | nilKey

/-- The calls are made with the addresses that strings have at the time. -/
def hash_string (c : Pureffi K V) (addr : K → Nat) (str : K) : Nat := crc32_ptr (addr str) &&& (c.bucket_sz - 1)

/-- The buckets, with the entries of `node_v` linked by their IDs. -/
def buckets (c : Pureffi K V) : Buckets := { head := c.bucket_v, next := fun i => c.conflict (c.node_v + i) }

/-- No bucket has more than `size` nodes. -/
def find_node_in_bucket (c : Pureffi K V) (key : K) (bucket_hdr_id : Nat) : Except Fault (Option (Nat × Nat)) :=
  match Buckets.search c.buckets.next (fun i => c.key_v i = some key) (c.size + 1) bucket_hdr_id 0 with
  | none => .error .endless
  | some (cur, prev) => .ok (if cur = 0 then none else some (cur, prev))

def find_key (c : Pureffi K V) (addr : K → Nat) (key : K) : Except Fault (Option (Nat × Nat)) :=
  c.find_node_in_bucket key (c.bucket_v (c.hash_string addr key))

def remove_key (c : Pureffi K V) (addr : K → Nat) (key : K) : Except Fault (Option Nat × Pureffi K V) :=
  let key_hash := c.hash_string addr key
  match c.find_node_in_bucket key (c.bucket_v key_hash) with
  | .error fault => .error fault
  | .ok none => .ok (none, c)
  | .ok (some (cur, prev)) =>
    let next_node := c.conflict (c.node_v + cur)
    let c := { c with key_v := update c.key_v cur none, val_v := update c.val_v cur none }
    let c :=
      if prev ≠ 0 then { c with conflict := update c.conflict (c.node_v + prev) next_node }
      else { c with bucket_v := update c.bucket_v key_hash next_node }
    .ok (some cur, { c with conflict := update c.conflict (c.node_v + cur) 0 })

def insert_key (c : Pureffi K V) (addr : K → Nat) (key : K) (val : V) (node : Nat) : Pureffi K V :=
  let node_id := c.id node
  let key_hash := c.hash_string addr key
  { c with
    key_v := update c.key_v node_id (some key)
    val_v := update c.val_v node_id (some val)
    conflict := update c.conflict node (c.bucket_v key_hash)
    bucket_v := update c.bucket_v key_hash node_id }

/-- The value, and a stale value. -/
def get (c : Pureffi K V) (addr : K → Nat) (now : Rat) (key : K) :
    Except Fault ((Option V × Option V) × Pureffi K V) := do
  match ← c.find_key addr key with
  | none => return ((none, none), c)
  | some (node_id, _) =>
    let node := c.node_v + node_id
    let c := { c with links := (Queue.remove c.links node).insertHead c.cache_queue node }
    if 0 ≤ c.expire node ∧ c.expire node < now then return ((none, c.val_v node_id), c)
    return ((c.val_v node_id, none), c)

def delete (c : Pureffi K V) (addr : K → Nat) (key : K) : Except Fault (Bool × Pureffi K V) := do
  match ← c.remove_key addr key with
  | (none, c) => return (false, c)
  | (some node_id, c) =>
    let node := c.node_v + node_id
    return (true, { c with links := (Queue.remove c.links node).insertTail c.free_queue node })

/-- The node for a new key: a free one, or that of the least recently used key. -/
def takeNode (c : Pureffi K V) (addr : K → Nat) : Except Fault (Nat × Pureffi K V) :=
  if Queue.isEmpty c.links c.free_queue then
    let node := Queue.last c.links c.cache_queue
    match c.key_v (c.id node) with
    | none => .error .nilKey
    | some oldkey => (c.remove_key addr oldkey).map fun (_, c) => (node, c)
  else .ok (Queue.head c.links c.free_queue, c)

def set (c : Pureffi K V) (addr : K → Nat) (now : Rat) (key : K) (value : V) (ttl : Option Rat) :
    Except Fault (Pureffi K V) := do
  let (node, c) ←
    match ← c.find_key addr key with
    | some (node_id, _) => pure (c.node_v + node_id, { c with val_v := update c.val_v node_id (some value) })
    | none => do
      let (node, c) ← c.takeNode addr
      pure (node, c.insert_key addr key value node)
  return { c with
    links := (Queue.remove c.links node).insertHead c.cache_queue node
    expire := update c.expire node (Lrucache.expireAt now ttl) }

end Pureffi

/-! ## Runs -/

/-- The calls that both have, with what `ngx.now()` gives. -/
inductive Call (K V : Type)
  | set (now : Rat) (key : K) (value : V) (ttl : Option Rat)
  | get (now : Rat) (key : K)
  | delete (key : K)

def Call.op {K V : Type} : Call K V → Op K V
  | .set now key value ttl => .set now key (some value) ttl
  | .get now key => .get now key
  | .delete key => .delete key

namespace Pureffi

variable {K V : Type} [DecidableEq K]

def step (c : Pureffi K V) (addr : K → Nat) : Call K V → Except Fault (Result V × Pureffi K V)
  | .set now key value ttl => do let c ← c.set addr now key value ttl; return (.done, c)
  | .get now key => do let ((val, stale), c) ← c.get addr now key; return (.got val stale, c)
  | .delete key => do let (found, c) ← c.delete addr key; return (.deleted found, c)

/-- What the calls return, each made with addresses of its own. -/
def results (c : Pureffi K V) : List ((K → Nat) × Call K V) → Except Fault (List (Result V))
  | [] => .ok []
  | (addr, call) :: calls => do
    let (r, c) ← c.step addr call
    return r :: (← c.results calls)

/-- A string that is a key is not collected, so it has the address that it had at
the call before. -/
def Pinned (c : Pureffi K V) (addr : K → Nat) : List ((K → Nat) × Call K V) → Prop
  | [] => True
  | (addr', call) :: calls =>
    (∀ i key, c.key_v i = some key → addr' key = addr key) ∧
      ∀ r c', c.step addr' call = .ok (r, c') → c'.Pinned addr' calls

end Pureffi

def Lrucache.results {K V : Type} [DecidableEq K] (c : Lrucache K V) :
    List (Op K V) → Except Lrucache.Fault (List (Result V))
  | [] => .ok []
  | op :: ops => do
    let (r, c) ← Resty.step c op
    return r :: (← c.results ops)

end OpenResty.Resty
