/-
`resty.waf`: `_process_rule` and the actions it takes, and `exec`, the run of
one phase.

Debug messages, hook actions and the transaction id headers are left out; the
rulesets are loaded and their offsets calculated. `ngx.exit` ends the access
phase at once, sets the status in header_filter, and is not there in the later
phases; `ngx.sleep` is there in access only.
-/
import OpenResty.Waf.State
import OpenResty.Waf.Dynamic

namespace OpenResty.Waf

open Lua Lib

variable (env : Env)

/-! ## Values -/

/-- `util.parse_dynamic_value(self, key, collections)` -/
def dynamic (key : Scalar) : M Scalar := do attempt (parseDynamicValue (← read).collection key)

/-- The slot `_parse_collection` gives: the table itself when there is nothing to parse. -/
def Request.parsed (r : Request) (var : Var) : Option Slot :=
  match var.parse with
  | none => var.type.bind (r.collections.lookup ·)
  | some _ => (parseCollection env.eng (var.type.bind r.collection) var).map .val

/-- `_do_transform`; no transforms leave the table itself. -/
def Request.transformed (r : Request) (slot : Option Slot) (transform : Option TransformOpt) :
    Except String (Option Slot) :=
  if (transform.map TransformOpt.list).getD [] = [] then .ok slot
  else (doTransform env.eng (slot.map (·.deref r.store.heap)) transform).map (·.map .val)

/-- The collection of a variable, by way of the transform cache. -/
def Request.fetch (r : Request) (transform : Option TransformOpt) (var : Var) :
    Except String (Option Slot × Request) :=
  match var.storage, r.transform.lookup var.collection_key with
  | false, none => do
    let collection ← r.transformed env (r.parsed env var) transform
    return (collection, { r with transform := assign r.transform var.collection_key collection })
  | true, _ => .ok (r.parsed env var, r)
  | false, some collection => .ok (collection, r)

/-- The value of a variable with `length`. -/
def lengthOf (collection : Option Val) : Val :=
  match collection with
  | some (.table arr _) => .leaf (.num arr.length)
  | collection => .leaf (.num (if truthy collection then 1 else 0))

/-- What the operator is handed. -/
def handed (r : Request) (var : Var) (collection : Option Slot) : Option Val :=
  let collection := collection.map (·.deref r.store.heap)
  if var.length then some (lengthOf collection) else collection

def collectionOf (transform : Option TransformOpt) (var : Var) : M (Option Val) := do
  if var.unconditional then return some (.leaf (.bool true))
  let r ← read
  let collection ← step fun r => r.fetch env transform var
  emit (.handed r transform var (handed r var collection))
  return handed r var collection

/-! ## Actions -/

/-- `storage.persist`: what is done before a failure stays. -/
def persist : M Unit := do
  let r ← read
  write fun r => .ok (r.withStore (r.store.persist env.cjson).1)
  match (r.store.persist env.cjson).2 with
  | some e => raise e
  | none => pure ()

def writeLogEvents : M Unit := update fun r =>
  if (!r.altered && env.event_log_altered_only) || r.log_entries.isEmpty then r
  else { r with log_events := r.log_events ++ [{
    client := r.collection "REMOTE_ADDR"
    method := r.collection "METHOD"
    uri := r.collection "URI"
    alerts := r.log_entries }] }

/-- `_finalize` -/
def finalize (phase : Phase) : M Unit := do
  persist env
  update fun r => { r with saved := true }
  if phase = .log then writeLogEvents env

/-- `ngx.exit` -/
def exit (phase : Phase) (status : Rat) : M Unit :=
  match phase with
  | .access => throw (.exited status)
  | .header_filter => update fun r => { r with status := some status }
  | .body_filter => raise "API disabled in the context of body_filter_by_lua*"
  | .log => raise "API disabled in the context of log_by_lua*"

/-- `actions.disruptive_lookup` -/
def disruptive (phase : Phase) (action : Disrupt) : M Unit := do
  let r ← read
  if r.mode = .ACTIVE then
    match action with
    | .ACCEPT => exit phase 0
    | .DENY => exit phase (r.rule_status.getD env.deny_status)
    | .DROP => exit phase 444
    | .CHAIN | .IGNORE | .SCORE => pure ()

/-- `actions.alter_actions` -/
def alterActions : List Disrupt := [.DENY, .DROP]

/-- `_rule_action` -/
def ruleAction (place : Place) (action : Option Disrupt) : M Unit :=
  match action with
  | none => pure ()
  | some action => do
    if action ∈ alterActions then
      update fun r => { r with altered := true }
      finalize env place.phase
    emit (.disrupted place action)
    disruptive env place.phase action

/-- `data.key = key` in action `i` of the rule. -/
def rekey (place : Place) (i : Nat) (key : Scalar) : M Unit := modify fun s =>
  { s with worker := s.worker.withKey place i key }.emit (.rekeyed (s.worker.keyAt place i) key)

/-- `actions.nondisruptive_lookup` -/
def nondisruptive (now : Rat) (place : Place) (i : Nat) (action : NonDisrupt) : M Unit :=
  match action with
  | .deletevar col key => write fun r => (r.store.delete_var col key).map r.withStore
  | .expirevar col key time => do
    let time ← dynamic time
    write fun r => (r.store.expire_var now col key time).map r.withStore
  | .initcol col value => do
    let parsed ← dynamic value
    write fun r => do
      let store ← r.store.initializeCol now parsed
      let store := { store with col_lookup := assign store.col_lookup col parsed }
      return (r.withStore store).setCollection col ((store.storage.lookup parsed).map .addr)
  | .setvar col key value inc => do
    let parsed ← dynamic key
    rekey place i parsed
    let value ← dynamic value
    write fun r => (r.store.set_var col parsed inc value).map r.withStore
  | .sleep _ => if place.phase = .access then pure () else raise "API disabled"
  | .status status => update fun r => { r with rule_status := status }
  | .rule_remove_id id => update fun r => { r with ignore_rule := id :: r.ignore_rule }
  | .rule_remove_by_meta => update fun r =>
    { r with ignore_rule := ((r.id.bind (env.meta_ids.lookup ·)).getD []) ++ r.ignore_rule }
  | .mode_update mode => update fun r => { r with mode }

/-- The rule's nondisruptive actions, from `i` on. -/
def nondisruptiveFrom (now : Rat) (place : Place) : Nat → List NonDisrupt → M Unit
  | _, [] => pure ()
  | i, action :: actions => do
    emit (.acted place i)
    nondisruptive env now place i action
    nondisruptiveFrom now place (i + 1) actions

/-! ## Rules -/

/-- The text of a message, if the rule has one. -/
def dynamicText (text : Option String) : M (Option Scalar) :=
  match text with
  | some text => do return some (← dynamic (.str text))
  | none => pure none

/-- `_log_event` -/
def logEvent (place : Place) (rule : Rule) (value : Option Val) : M Unit := do
  let msg ← dynamicText rule.msg
  let logdata ← dynamicText rule.logdata
  emit (.logged place)
  update fun r => { r with log_entries := r.log_entries ++ [{ id := rule.id, «match» := value, msg, logdata }] }

/-- A pattern that is parsed anew for the variable. -/
def dynamicPattern (rule : Rule) (pattern : Option Val) : M (Option Val) :=
  if rule.opts.parsepattern then
    match pattern with
    | some (.leaf pattern) => do return some (.leaf (← dynamic pattern))
    | _ => raise "bad argument #1 to 'gsub' (string expected)"
  else pure pattern

/-- `operators.lookup[operator](self, collection, pattern, ctx)` -/
def operate (operator : Option Operator) (collection : Val) (pattern : Option Val) : M Found := fun s =>
  match operator with
  | none => .error (.raised "attempt to call a nil value") s
  | some operator =>
    let ctx : OpCtx := { id := s.req.id, nameservers := env.nameservers }
    let kept := if operator = .PM then ctx.id.bind (s.worker.dicts.lookup ·) else none
    let events := (kept.map fun dict => Event.consulted dict (createAc pattern)).toList ++ s.events
    match Waf.lookup env.op s.worker.dicts ctx operator collection pattern with
    | (.ok found, dicts) => .ok found { s with worker := { s.worker with dicts }, events }
    | (.error e, dicts) => .error (.raised e) { s with worker := { s.worker with dicts }, events }

/-- Whether a variable's collection matches, before a negation, and the value found. -/
def matchVar (rule : Rule) (var : Var) (collection : Val) (pattern : Option Val) : M Found :=
  if var.unconditional then pure (true, some (.leaf (.num 1)))
  else operate env rule.operator collection pattern

/-- The elements of `TX` a match fills in: the captures, or the value. -/
def captures (rule : Rule) (value : Option Val) : Except String (List (Scalar × Option Val)) :=
  match rule.operator, value with
  | some .REGEX, some (.table arr hash) =>
    .ok ((.str "0", (Val.table arr hash).index (.num 0)) ::
      arr.mapIdx fun i v => (.str (numToString (i + 1 : Nat)), some v))
  | some .REGEX, _ => .error "attempt to index local 'value'"
  | _, value => .ok [(.str "0", value)]

/-- `collections.TX[key] = value`, for one after the other. -/
def setTX : List (Scalar × Option Val) → M Unit
  | [] => pure ()
  | (key, value) :: rest => do
    write fun r => r.setIndex "TX" key value
    setTX rest

/-- Store this match as the most recent one, and add it to the list of matches. -/
def storeMatch (rule : Rule) (var : Var) (value : Option Val) : M Unit := do
  write fun r => .ok (r.setCollection "MATCHED_VAR"
    (some (.val (if truthy value then value.getD (.leaf (.str "")) else .leaf (.str "")))))
  write fun r => .ok (r.setCollection "MATCHED_VAR_NAME" (var.type.map fun s => .val (.leaf (.str s))))
  if truthy value then
    write fun r => r.setIndex "MATCHED_VARS" (.num (r.match_n + 1 : Nat)) value
    write fun r => r.setIndex "MATCHED_VAR_NAMES" (.num (r.match_n + 1 : Nat)) (some var.toVal)
    update fun r => { r with match_n := r.match_n + 1 }
  if !rule.op_negated then
    setTX (← attempt (captures rule value))
  write fun r => .ok (r.setCollection "RULE" (some (.val rule.toVal)))

/-- What follows a match. -/
def matchRule (now : Rat) (place : Place) (rule : Rule) (var : Var) (value : Option Val) : M Unit := do
  emit (.matched place)
  storeMatch rule var value
  nondisruptiveFrom env now place 0 rule.actions.nondisrupt
  if rule.actions.disrupt ≠ some .CHAIN ∧ rule.opts.nolog = false then
    logEvent place rule value
  ruleAction env place rule.actions.disrupt

/-- The loop over the variables, up to the first that matches. -/
def processVars (now : Rat) (place : Place) (rule : Rule) : Option Val → Option Nat → List Var → M (Option Nat)
  | _, offset, [] => pure offset
  | pattern, _, var :: vars => do
    let collection ← collectionOf env rule.opts.transform var
    match collection with
    | none | some (.leaf (.bool false)) => processVars now place rule pattern rule.offset_nomatch vars
    | some collection =>
      let pattern ← dynamicPattern rule pattern
      let (found, value) ← matchVar env rule var collection pattern
      if found != rule.op_negated then
        matchRule env now place rule var value
        return rule.offset_match
      else processVars now place rule pattern rule.offset_nomatch vars

/-- `_process_rule` -/
def processRule (now : Rat) (place : Place) (rule : Rule) : M (Option Nat) := do
  update fun r => { r with id := rule.id, rule_status := none }
  match rule.vars with
  | none => raise "bad argument #1 to 'ipairs' (table expected, got nil)"
  | some vars => processVars env now place rule rule.pattern rule.offset_nomatch vars.list

/-! ## Phases -/

def ruleAt (place : Place) : M (Option Rule) := do
  return ((← get).worker.rules place.ruleset place.phase)[place.pos - 1]?

/-- One turn of the rule loop. -/
def turn (now : Rat) (place : Place) (rule : Rule) : M (Option Nat) := do
  let r ← read
  let ignored := decide (∃ id ∈ r.ignore_rule, rule.id = some id)
  emit (.turned place ignored)
  if ignored then return rule.offset_nomatch else processRule env now place rule

/-- The loop over the rules of a ruleset. -/
def ruleLoop (now : Rat) (ruleset : String) (phase : Phase) : Nat → Nat → M Unit
  | 0, _ => throw .unfinished
  | fuel + 1, pos => do
    match ← ruleAt ⟨ruleset, phase, pos⟩ with
    | none => pure ()
    | some rule =>
      match ← turn env now ⟨ruleset, phase, pos⟩ rule with
      | none => pure ()
      | some offset => ruleLoop now ruleset phase fuel (pos + offset)

def ruleCount (ruleset : String) (phase : Phase) : M Nat := do
  return ((← get).worker.rules ruleset phase).length

/-- Every ruleset in turn. Offsets are positive, so a run has at most as many
turns as there are rules. -/
def runRulesets (now : Rat) (phase : Phase) : List String → M Unit
  | [] => pure ()
  | ruleset :: rulesets => do
    ruleLoop env now ruleset phase ((← ruleCount ruleset phase) + 1) 1
    runRulesets now phase rulesets

/-- The collections that `collections.lookup.access` takes from the request. -/
def accessNames : List String :=
  ["REMOTE_ADDR", "HTTP_VERSION", "METHOD", "URI", "URI_ARGS", "QUERY_STRING", "REQUEST_URI", "REQUEST_URI_RAW",
    "REQUEST_BASENAME", "REQUEST_HEADERS", "COOKIES", "REQUEST_BODY", "REQUEST_ARGS", "REQUEST_LINE", "PROTOCOL",
    "NGX_VAR", "ARGS_COMBINED_SIZE", "TIME", "TIME_DAY", "TIME_EPOCH", "TIME_HOUR", "TIME_MIN", "TIME_MON",
    "TIME_SEC", "TIME_YEAR"]

/-- Those of a multipart body. -/
def multipartNames : List String :=
  ["FILES", "FILES_NAMES", "FILES_SIZES", "FILES_TMP_CONTENT", "FILES_COMBINED_SIZE"]

def headerNames : List String := ["RESPONSE_HEADERS", "STATUS"]

/-- The collections of the given names, as the server answers. -/
def Request.setServer (server : String → Option Val) (names : List String) (r : Request) : Request :=
  names.foldl (fun r name => r.setCollection name ((server name).map .val)) r

def Request.access (server : String → Option Val) (r : Request) : Request :=
  let r := r.setServer server (multipartNames.filter fun name => (server name).isSome)
  let r := r.setServer server accessNames
  let r := r.setCollection "TX" ((r.store.storage.lookup (.str "TX")).map .addr)
  let (r, matched_vars) := r.alloc []
  let r := r.setCollection "MATCHED_VARS" (some matched_vars)
  let (r, matched_var_names) := r.alloc []
  let r := r.setCollection "MATCHED_VAR_NAMES" (some matched_var_names)
  r.setCollection "SCORE_THRESHOLD" (some (.val (.leaf (.num env.score_threshold))))

/-- The collections given in `opts.collections`: tables are written to in place. -/
def Request.given (collections : List (String × Val)) (r : Request) : Request :=
  collections.foldl (fun r (k, v) =>
    match v with
    | .leaf s => r.setCollection k (some (.val (.leaf s)))
    | v => let (r, slot) := r.alloc v.pairs; r.setCollection k (some slot)) r

/-- `tonumber` of any value -/
def tonumberVal : Option Val → Option Rat
  | some (.leaf (.num q)) => some q
  | some (.leaf (.str s)) => tonumber s
  | _ => none

/-- `collections.RESPONSE_HEADERS[name]` -/
def Request.responseHeader (r : Request) (name : String) : Except String (Option Val) :=
  match r.collection "RESPONSE_HEADERS" with
  | some (.table arr hash) => .ok ((Val.table arr hash).index (.str name))
  | some (.leaf (.str _)) => .ok none
  | _ => .error "attempt to index field 'RESPONSE_HEADERS'"

/-- Whether the body is to be looked at: a length within the limit, of a type that is given. -/
def Request.inspected (r : Request) : Except String Bool := do
  let res_length := tonumberVal (← r.responseHeader "content-length")
  let res_type ← r.responseHeader "content-type"
  match res_length, res_type with
  | some res_length, some (.leaf (.str res_type)) =>
    return decide (res_length ≤ env.res_body_max_size ∧ res_type ∈ env.res_body_mime_types)
  | _, _ => return false

/-- `collections.lookup.body_filter` -/
def Request.body (data : Option String) (eof : Bool) (r : Request) : Except String Request := do
  let r := { r with buffers := some (r.buffers.getD []) }
  if !(← r.inspected env) then return { r with short_circuit := !eof }
  let buffers := r.buffers.getD [] ++ data.toList
  let r := { r with buffers := some buffers }
  if !eof then return { r with arg := none, short_circuit := true }
  let body := String.join buffers
  return { r.setCollection "RESPONSE_BODY" (some (.val (.leaf (.str body)))) with arg := some body }

/-- `collections_t.lookup[phase](self, collections, ctx)`, or the collections given. -/
def Request.populate (call : Call) (r : Request) : Except String Request :=
  match call.collections with
  | some collections => .ok (r.given collections)
  | none =>
    match call.phase with
    | .access => .ok (r.access env call.server)
    | .header_filter => .ok (r.setServer call.server headerNames)
    | .body_filter => r.body env call.data call.eof
    | .log => .ok r

/-- The variables given with `set_var`. -/
def setVars : List (Scalar × Scalar) → M Unit
  | [] => pure ()
  | (key, value) :: rest => do
    let value ← dynamic value
    write fun r => (r.store.set_var "TX" key false value).map r.withStore
    setVars rest

/-- What `new` and `exec` begin with when `ngx.ctx` has no context. -/
def Request.fresh (r : Request) : Request :=
  { r with
    mode := env.mode, ignore_rule := env.ignore_rule, collections := [], store := r.store.start
    id := none, rule_status := none, transform := [], match_n := 0, altered := false, short_circuit := false
    buffers := none, log_entries := [] }

/-- The context is kept from phase to phase, once it has been saved. -/
def resume : M Unit := write fun r => .ok (if r.saved then r else r.fresh env)

/-- The tracking tables for redis. -/
def Request.trackAnew (r : Request) : Request :=
  match r.store.backend with
  | .redis => r.withStore { r.store with delkey := [], setkey := [], setkey_t := false }
  | .dict => r

/-- The pre-initialized name of the TX collection. -/
def Request.initTX (r : Request) : Request :=
  r.withStore { r.store with col_lookup := assign r.store.col_lookup "TX" (.str "TX") }

/-- The run of a phase, on the collections there are. -/
def runPhase (call : Call) : M Unit := do
  setVars env.var
  update Request.trackAnew
  emit (.began call.phase ((← read).collection "RESPONSE_BODY"))
  runRulesets env call.now call.phase env.active_rulesets
  finalize env call.phase

/-- `new` and `exec`, in the handler of a phase. -/
def exec (call : Call) : M Unit := do
  resume env
  let r ← read
  if r.mode = .INACTIVE then return
  update Request.initTX
  if r.altered ∧ r.mode = .ACTIVE then
    if call.phase = .log then writeLogEvents env
  else
    write fun r => r.populate env call
    if (← read).short_circuit then return
    runPhase env call

end OpenResty.Waf
