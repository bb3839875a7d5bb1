/-
What a run of the firewall works on: the worker's tables, which all requests
share, and one request with its context and the stores outside it.

A table collection that is written to is a table of the request's heap, which
`ctx.storage`, the collections and the transform cache refer to by address; all
others are values. A value an operator returns is a copy. The trace of events is
what the theorems speak of; no operation reads it.
-/
import OpenResty.Waf.Collection
import OpenResty.Waf.Operators
import OpenResty.Waf.Storage

namespace OpenResty.Waf

open Lua Lib

/-- The keys of `phase_t.phases`. -/
inductive Phase
  | access | header_filter | body_filter | log
deriving DecidableEq, Repr

/-- What a collection, or an entry of the transform cache, holds. -/
inductive Slot
  | val (v : Val)
  | addr (a : Nat)

/-! ## Tables -/

/-- The values under 1, 2, ... from `i` on. -/
def arrayFrom (t : Tbl) : Nat → Nat → List Val
  | 0, _ => []
  | fuel + 1, i =>
    match t.lookup (.num i) with
    | some v => v :: arrayFrom t fuel (i + 1)
    | none => []

/-- A table of the heap as a value. -/
def tableVal (t : Tbl) : Val :=
  let arr := arrayFrom t t.length 1
  .table arr (t.filter fun (k, _) => !(List.range arr.length).any fun i => k == .num (i + 1 : Nat))

def Slot.deref (heap : Nat → Tbl) : Slot → Val
  | .val v => v
  | .addr a => tableVal (heap a)

/-- A record as a table: the fields that are there. -/
def recordVal (fields : List (String × Option Val)) : Val :=
  .table [] (fields.filterMap fun (k, v) => v.map (.str k, ·))

def flagVal (b : Bool) : Option Val := if b then some (.leaf (.bool true)) else none

def strsVal (l : List String) : Val := .array (l.map fun s => .leaf (.str s))

def Var.toVal (var : Var) : Val :=
  recordVal [
    ("type", var.type.map fun s => .leaf (.str s)),
    ("parse", var.parse.map fun (m, v) => .array [.leaf (.str m.name), .leaf v]),
    ("ignore", var.ignore.map fun l => .array (l.map fun (m, v) => strsVal [m.name, v])),
    ("unconditional", flagVal var.unconditional),
    ("length", flagVal var.length),
    ("storage", flagVal var.storage),
    ("collection_key", some (.leaf (.str var.collection_key)))]

def Operator.name : Operator → String
  | .REGEX => "REGEX"
  | .REFIND => "REFIND"
  | .EQUALS => "EQUALS"
  | .GREATER => "GREATER"
  | .LESS => "LESS"
  | .GREATER_EQ => "GREATER_EQ"
  | .LESS_EQ => "LESS_EQ"
  | .EXISTS => "EXISTS"
  | .CONTAINS => "CONTAINS"
  | .STR_EXISTS => "STR_EXISTS"
  | .STR_CONTAINS => "STR_CONTAINS"
  | .PM => "PM"
  | .CIDR_MATCH => "CIDR_MATCH"
  | .RBL_LOOKUP => "RBL_LOOKUP"
  | .DETECT_SQLI => "DETECT_SQLI"
  | .DETECT_XSS => "DETECT_XSS"
  | .STR_MATCH => "STR_MATCH"
  | .VERIFY_CC => "VERIFY_CC"

def Disrupt.name : Disrupt → String
  | .ACCEPT => "ACCEPT"
  | .CHAIN => "CHAIN"
  | .DENY => "DENY"
  | .DROP => "DROP"
  | .IGNORE => "IGNORE"
  | .SCORE => "SCORE"

def Mode.name : Mode → String
  | .ACTIVE => "ACTIVE"
  | .INACTIVE => "INACTIVE"
  | .SIMULATE => "SIMULATE"

/-- An action and its data. -/
def NonDisrupt.toVal : NonDisrupt → Val
  | .deletevar col key => action "deletevar" (recordVal [("col", some (str col)), ("key", some (.leaf key))])
  | .expirevar col key time => action "expirevar"
    (recordVal [("col", some (str col)), ("key", some (.leaf key)), ("time", some (.leaf time))])
  | .initcol col value => action "initcol" (recordVal [("col", some (str col)), ("value", some (.leaf value))])
  | .setvar col key value inc => action "setvar"
    (recordVal [("col", some (str col)), ("key", some (.leaf key)), ("value", some (.leaf value)),
      ("inc", flagVal inc)])
  | .sleep time => action "sleep" (.leaf (.num time))
  | .status code => recordVal [("action", some (str "status")), ("data", code.map fun q => .leaf (.num q))]
  | .rule_remove_id id => action "rule_remove_id" (.leaf id)
  | .rule_remove_by_meta => recordVal [("action", some (str "rule_remove_by_meta"))]
  | .mode_update mode => action "mode_update" (str mode.name)
where
  str (s : String) : Val := .leaf (.str s)
  action (name : String) (data : Val) : Val := recordVal [("action", some (str name)), ("data", some data)]

/-- A rule as the value of `RULE`, which stays as it was when the rule matched. -/
def Rule.toVal (rule : Rule) : Val :=
  recordVal [
    ("id", rule.id.map .leaf),
    ("vars", rule.vars.map fun vars => .table (vars.list.map Var.toVal)
      (if vars.unconditional then [(.str "unconditional", .leaf (.bool true))] else [])),
    ("opts", some (recordVal [
      ("transform", rule.opts.transform.map fun
        | .one t => .leaf (.str t.name)
        | .many ts => strsVal (ts.map (·.name))),
      ("parsepattern", flagVal rule.opts.parsepattern),
      ("nolog", flagVal rule.opts.nolog),
      ("log", rule.opts.log.map fun b => .leaf (.bool b))])),
    ("operator", rule.operator.map fun op => .leaf (.str op.name)),
    ("pattern", rule.pattern),
    ("op_negated", flagVal rule.op_negated),
    ("actions", some (recordVal [
      ("disrupt", rule.actions.disrupt.map fun d => .leaf (.str d.name)),
      ("nondisrupt", some (.array (rule.actions.nondisrupt.map NonDisrupt.toVal)))])),
    ("msg", rule.msg.map fun s => .leaf (.str s)),
    ("logdata", rule.logdata.map fun s => .leaf (.str s)),
    ("tag", some (strsVal rule.tag)),
    ("exceptions", some (strsVal rule.exceptions)),
    ("skip", rule.skip.map .leaf),
    ("skip_after", rule.skip_after.map .leaf),
    ("offset_match", rule.offset_match.map fun n => .leaf (.num n)),
    ("offset_nomatch", rule.offset_nomatch.map fun n => .leaf (.num n))]

/-! ## Configuration -/

/-- The options of the firewall, the data of the worker that no request changes,
and what is not part of the bundle. -/
structure Env where
  op : OpEnv
  transform : Transform → Scalar → Except String Scalar
  /-- `cjson.decode` of what `cjson.encode` makes of a table. -/
  cjson : Tbl → Except String Tbl
  /-- The names of the rulesets in the order of `_active_rulesets`; all are loaded. -/
  active_rulesets : List String
  /-- `_meta_exception.meta_ids` -/
  meta_ids : List (Scalar × List Scalar)
  mode : Mode
  ignore_rule : List Scalar
  /-- What `set_var` was given: keys and values. -/
  var : List (Scalar × Scalar)
  deny_status : Rat
  nameservers : Option Val
  res_body_max_size : Rat
  res_body_mime_types : List String
  score_threshold : Rat
  event_log_altered_only : Bool

def Env.eng (env : Env) : Engine where
  re_find subject regex := (env.op.re_find subject regex).isSome
  transform := env.transform

/-- The options as `new` sets them, and libraries that find nothing and change nothing. -/
def Env.default (active_rulesets : List String) : Env where
  op := {
    re_match := fun _ _ => none
    re_find := fun _ _ => none
    ac_match := fun _ _ => false
    ip_in_cidrs := fun _ _ => false
    dns_new := fun _ => none
    libinject_sqli := fun _ => .ok (false, none)
    libinject_xss := fun _ => .ok false }
  transform _ s := .ok s
  cjson := .ok
  active_rulesets
  meta_ids := []
  mode := .SIMULATE
  ignore_rule := []
  var := []
  deny_status := 403
  nameservers := none
  res_body_max_size := 1024 * 1024
  res_body_mime_types := ["text/plain", "text/html"]
  score_threshold := 5
  event_log_altered_only := true

/-! ## Requests -/

/-- An entry of `ctx.log_entries`. -/
structure LogEntry where
  id : Option Scalar
  «match» : Option Val
  msg : Option Scalar
  logdata : Option Scalar

/-- An entry of the event log. -/
structure LogEvent where
  client : Option Val
  method : Option Val
  uri : Option Val
  alerts : List LogEntry

/-- One transaction: the instance, its context, and what is outside the worker. -/
structure Request where
  mode : Mode
  ignore_rule : List Scalar
  /-- Whether `ngx.ctx` has the context. -/
  saved : Bool
  collections : List (String × Slot)
  store : Storage
  id : Option Scalar
  rule_status : Option Rat
  /-- `ctx.transform`, under the keys of `ctx.transform_key`. -/
  transform : List (String × Option Slot)
  match_n : Nat
  altered : Bool
  short_circuit : Bool
  buffers : Option (List String)
  log_entries : List LogEntry
  /-- `ngx.arg[1]` -/
  arg : Option String
  /-- The response status `ngx.exit` has set. -/
  status : Option Rat
  log_events : List LogEvent

/-- A transaction that has not begun. -/
def Request.new (store : Storage) : Request where
  mode := .SIMULATE
  ignore_rule := []
  saved := false
  collections := []
  store
  id := none
  rule_status := none
  transform := []
  match_n := 0
  altered := false
  short_circuit := false
  buffers := none
  log_entries := []
  arg := none
  status := none
  log_events := []

/-- What a call of `exec` is given. -/
structure Call where
  phase : Phase
  /-- `opts.collections` -/
  collections : Option (List (String × Val))
  /-- What the server answers for the collections of the phase. -/
  server : String → Option Val
  now : Rat
  /-- `ngx.arg` -/
  data : Option String
  eof : Bool

namespace Request

variable (r : Request)

def withStore (store : Storage) : Request := { r with store }

/-- `collections[name]` -/
def collection (name : String) : Option Val := (r.collections.lookup name).map (·.deref r.store.heap)

/-- `collections[name] = slot` -/
def setCollection (name : String) (slot : Option Slot) : Request :=
  { r with collections := match slot with
      | some slot => assign r.collections name slot
      | none => unassign r.collections name }

/-- `collections[name][key] = value` -/
def setIndex (name : String) (key : Scalar) (value : Option Val) : Except String Request :=
  match r.collections.lookup name, value with
  | some (.addr a), some value => .ok (r.withStore (r.store.write a key value))
  | some (.addr a), none => .ok (r.withStore (r.store.erase a key))
  | _, _ => .error ("attempt to index field '" ++ name ++ "' (a nil value)")

/-- A table on the heap that has no name yet. -/
def alloc (t : Tbl) : Request × Slot :=
  (r.withStore { r.store with heap := Function.update r.store.heap r.store.next t, next := r.store.next + 1 },
    .addr r.store.next)

end Request

/-! ## The worker -/

/-- Where a rule is: the key of its ruleset and phase, and its position, from 1. -/
structure Place where
  ruleset : String
  phase : Phase
  pos : Nat
deriving Repr

/-- What the requests of a worker share. -/
structure Worker where
  /-- `_ruleset_defs` -/
  rules : String → Phase → List Rule
  /-- `_ac_dicts` -/
  dicts : Dicts

/-- `data.key = key` -/
def NonDisrupt.withKey (key : Scalar) : NonDisrupt → NonDisrupt
  | .setvar col _ value inc => .setvar col key value inc
  | action => action

/-- `data.key` of a `setvar`. -/
def NonDisrupt.setKey : NonDisrupt → Option Scalar
  | .setvar _ key _ _ => some key
  | _ => none

/-- The rule after `data.key = key` in its action `i`. -/
def Rule.withKey (i : Nat) (key : Scalar) (rule : Rule) : Rule :=
  { rule with actions := { rule.actions with nondisrupt := rule.actions.nondisrupt.modify i (·.withKey key) } }

/-- The key in action `i` of a rule, when it is a `setvar`. -/
def Worker.keyAt (w : Worker) (place : Place) (i : Nat) : Option Scalar :=
  ((w.rules place.ruleset place.phase)[place.pos - 1]?).bind fun rule =>
    rule.actions.nondisrupt[i]?.bind NonDisrupt.setKey

def Worker.withKey (w : Worker) (place : Place) (i : Nat) (key : Scalar) : Worker :=
  { w with rules := fun ruleset phase =>
      if ruleset = place.ruleset ∧ phase = place.phase then
        (w.rules ruleset phase).modify (place.pos - 1) (Rule.withKey i key)
      else w.rules ruleset phase }

/-! ## Runs -/

/-- What happens in a run. -/
inductive Event
  /-- The rulesets of a phase are gone through, with a value of `RESPONSE_BODY`. -/
  | began (phase : Phase) (body : Option Val)
  /-- The collections change. -/
  | wrote (before after : Request)
  /-- A variable's value is handed to the operator of a rule. -/
  | handed (at_ : Request) (transform : Option TransformOpt) (var : Var) (given : Option Val)
  /-- A rule's dictionary is there already; `own` is the one its pattern makes. -/
  | consulted (dict : List String) (own : Except String (List String))
  /-- `setvar` writes the key it has parsed into the rule, over the one there. -/
  | rekeyed (old : Option Scalar) (key : Scalar)
  /-- A rule has its turn, unless it is ignored. -/
  | turned (place : Place) (ignored : Bool)
  | matched (place : Place)
  /-- Action `i` of a rule begins. -/
  | acted (place : Place) (i : Nat)
  | logged (place : Place)
  | disrupted (place : Place) (action : Disrupt)

structure State where
  worker : Worker
  req : Request
  /-- The last one first. -/
  events : List Event

namespace State

variable (s : State)

def setReq (r : Request) : State := { s with req := r }

def emit (e : Event) : State := { s with events := e :: s.events }

/-- The collections have changed. -/
def wrote (r : Request) : State := (s.setReq r).emit (.wrote s.req r)

@[simp] theorem setReq_req (r : Request) : (s.setReq r).req = r := rfl
@[simp] theorem setReq_worker (r : Request) : (s.setReq r).worker = s.worker := rfl
@[simp] theorem setReq_events (r : Request) : (s.setReq r).events = s.events := rfl
@[simp] theorem emit_req (e : Event) : (s.emit e).req = s.req := rfl
@[simp] theorem emit_worker (e : Event) : (s.emit e).worker = s.worker := rfl
@[simp] theorem emit_events (e : Event) : (s.emit e).events = e :: s.events := rfl
@[simp] theorem wrote_req (r : Request) : (s.wrote r).req = r := rfl
@[simp] theorem wrote_worker (r : Request) : (s.wrote r).worker = s.worker := rfl
@[simp] theorem wrote_events (r : Request) : (s.wrote r).events = .wrote s.req r :: s.events := rfl

end State

/-- Why a run ends early. -/
inductive Stop
  | raised (msg : String)
  | exited (status : Rat)
  /-- The rule loop goes on for longer than its fuel. -/
  | unfinished
deriving Repr

abbrev M := EStateM Stop State

def raise {α : Type} (msg : String) : M α := throw (.raised msg)

def attempt {α : Type} : Except String α → M α
  | .ok a => pure a
  | .error e => raise e

def emit (e : Event) : M Unit := modify fun s => s.emit e

def read : M Request := return (← get).req

/-- A change of the request that leaves the collections and the cache as they are. -/
def update (f : Request → Request) : M Unit := modify fun s => s.setReq (f s.req)

/-- A step that may raise. -/
def step {α : Type} (f : Request → Except String (α × Request)) : M α := fun s =>
  match f s.req with
  | .ok (a, r) => .ok a (s.setReq r)
  | .error e => .error (.raised e) s

/-- A change of the collections. -/
def write (f : Request → Except String Request) : M Unit := fun s =>
  match f s.req with
  | .ok r => .ok () (s.wrote r)
  | .error e => .error (.raised e) s

end OpenResty.Waf
