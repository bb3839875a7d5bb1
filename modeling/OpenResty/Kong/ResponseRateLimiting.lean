/-
kong/plugins/response-ratelimiting: access.lua, header_filter.lua, log.lua and the
counters of the policies.

A request reads the counters before it is proxied, the upstream announces increments in a
header of the response, and a timer makes them afterwards. So requests of the same consumer
overlap, and a counter goes past its limit by any number. The access phase blocks where what
remains is zero, the header filter where it is not positive.
-/
import OpenResty.Kong.RateLimiting

namespace OpenResty.Kong.ResponseRateLimiting

open Timestamp Lib.Transition
open RateLimiting (ApiId periodName EXPIRATIONS)

/-! ## Configuration -/

inductive LimitBy
  | consumer
  | credential
  | ip

inductive PolicyName
  | localDict
  | cluster
  | redis
deriving DecidableEq

structure Conf where
  limit_by : LimitBy
  policy : PolicyName
  block_on_first_violation : Bool
  /-- The limits by name and period, in the order of `pairs`. -/
  limits : List (String × List (Period × Rat))
  /-- `check_ordered_limits` of the schema. -/
  positive : ∀ v ∈ limits, ∀ lv ∈ v.2, 0 < lv.2

/-- `lv` is the limit of `k` for a period. -/
def Conf.Limit (conf : Conf) (k : String) (lk : Period) (lv : Rat) : Prop := ∃ v, (k, v) ∈ conf.limits ∧ (lk, lv) ∈ v

/-- What identifies a request. -/
structure Client where
  consumer_id : Option String
  credential_id : Option String
  remote_addr : String

def get_identifier (conf : Conf) (client : Client) : String :=
  let identifier :=
    match conf.limit_by with
    | .consumer => client.consumer_id.or client.credential_id
    | .credential => client.credential_id
    | .ip => none
  identifier.getD client.remote_addr

/-! ## Counters -/

def get_local_key (api_id : ApiId) (identifier : String) (period_date : Nat) (name : String) (period : Period) : String :=
  "response-ratelimit:" ++ api_id.id ++ ":" ++ identifier ++ ":" ++ toString period_date ++ ":" ++ name ++ ":" ++
    periodName period

/-- A key of the shared dictionary or of Redis, or a row of the database. -/
inductive CounterKey
  | text (key : String)
  | row (api_id : ApiId) (identifier : String) (period_date : Nat) (name : String) (period : Period)
deriving DecidableEq

def counterKey (policy : PolicyName) (api_id : ApiId) (identifier : String) (period_date : Nat) (name : String)
    (period : Period) : CounterKey :=
  match policy with
  | .cluster => .row api_id identifier period_date name period
  | .localDict | .redis => .text (get_local_key api_id identifier period_date name period)

/-- The counters, with the time when they expire, if they do. -/
abbrev Counters := CounterKey → Option (Rat × Option Nat)

/-- The value of a counter, if it has one that has not expired. -/
def Counters.get (counters : Counters) (now : Nat) (key : CounterKey) : Option Rat :=
  match counters key with
  | some (value, none) => some value
  | some (value, some expires) => if now < expires then some value else none
  | none => none

/-- One increment of one counter. A new counter of Redis is given an expiration. -/
def Counters.increment (counters : Counters) (policy : PolicyName) (now : Nat) (key : CounterKey) (period : Period)
    (value : Rat) : Counters :=
  Function.update counters key
    (match counters.get now key with
    | some count => some (count + value, (counters key).bind Prod.snd)
    | none => some (value, if policy = .redis then some (now + EXPIRATIONS period * 1000) else none))

/-- The periods of `get_timestamps`. -/
def periods : List Period := [.second, .minute, .hour, .day, .month, .year]

section

variable (luatz : Luatz) (conf : Conf) (api_id : ApiId)

/-- `usage` of the policy; without a counter it is 0. -/
def policyUsage (counters : Counters) (now : Nat) (identifier : String) (current_timestamp : Nat) (period : Period)
    (name : String) : Rat :=
  (counters.get now
    (counterKey conf.policy api_id identifier (get_timestamps luatz current_timestamp period) name period)).getD 0

/-! ## The access phase -/

structure Usage where
  limit : Rat
  remaining : Rat

abbrev UsageTable := List (String × List (Period × Usage))

def get_usage (counters : Counters) (now : Nat) (identifier : String) (current_timestamp : Nat) : UsageTable :=
  conf.limits.map fun (k, v) =>
    (k, v.map fun (lk, lv) =>
      let current_usage := policyUsage luatz conf api_id counters now identifier current_timestamp lk k
      (lk, { limit := lv, remaining := lv - current_usage }))

/-- What the access phase ends in. -/
inductive Access
  | unlimited
  /-- 429, with its message -/
  | blocked (message : String)
  /-- with the headers for the upstream -/
  | proxied (headers : List (String × Option Rat)) (usage : UsageTable)

/-- The loop over the periods of a name: none where it blocks, or the least that remains. -/
def leastRemaining : Option Rat → List (Period × Usage) → Option (Option Rat)
  | remaining, [] => some remaining
  | remaining, (_, lv) :: rest =>
    if conf.block_on_first_violation ∧ lv.remaining = 0 then none
    else
      leastRemaining
        (match remaining with
        | none => some lv.remaining
        | some least => some (if lv.remaining < least then lv.remaining else least)) rest

/-- The loop over the names. -/
def checkNames (usage : UsageTable) : List (String × Option Rat) → UsageTable → Access
  | headers, [] => .proxied headers usage
  | headers, (k, v) :: rest =>
    match leastRemaining conf none v with
    | none => .blocked ("API rate limit exceeded for '" ++ k ++ "'")
    | some remaining => checkNames usage (headers ++ [("X-RateLimit-Remaining-" ++ k, remaining)]) rest

/-- `execute` of access.lua -/
def access (counters : Counters) (now : Nat) (client : Client) : Access :=
  if conf.limits = [] then .unlimited
  else
    let usage := get_usage luatz conf api_id counters now (get_identifier conf client) (get_utc now)
    checkNames conf usage [] usage

/-! ## The header filter -/

/-- A header of the response: one text, or several. -/
inductive HeaderValue
  | one (text : String)
  | several (texts : List String)

/-- `utils.split` and `utils.strip`, which are penlight's. -/
structure Utils where
  split : String → String → List String
  strip : String → String

/-- `increments[limit_name]`, as the parts set it one after another. -/
def parse_header (utils : Utils) (header_value : Option HeaderValue) (limits : List (String × List (Period × Rat)))
    (limit_name : String) : Option Rat :=
  let parts :=
    match header_value with
    | none => []
    | some (.several texts) => texts
    | some (.one text) => utils.split text ","
  parts.foldl (fun increment v =>
    match utils.split v "=" with
    | [name, number] =>
      if utils.strip name = limit_name ∧ limit_name ∈ limits.map Prod.fst then Lua.tonumber (utils.strip number)
      else increment
    | _ => increment) none

/-- `execute` of header_filter.lua: the headers it sets, and whether it answers 429 itself. -/
def headerFilter (usage : UsageTable) (increments : String → Option Rat) : List (String × Rat) × Bool :=
  (usage.flatMap fun (limit_name, v) => v.flatMap fun (period_name, lv) =>
      [("X-RateLimit-Limit-" ++ limit_name ++ "-" ++ periodName period_name, lv.limit),
        ("X-RateLimit-Remaining-" ++ limit_name ++ "-" ++ periodName period_name,
          max 0 (lv.remaining - (increments limit_name).getD 0))],
    usage.any fun (limit_name, v) => v.any fun (_, lv) =>
      match increments limit_name with
      | some increment => decide (increment > 0 ∧ lv.remaining ≤ 0)
      | none => false)

/-- The increments that the timer of log.lua makes: of every name, for all periods. -/
def logIncrements (usage : UsageTable) (increments : String → Option Rat) : List (String × Rat × Period) :=
  usage.flatMap fun (k, _) =>
    match increments k with
    | some value => if value ≠ 0 then periods.map fun period => (k, value, period) else []
    | none => []

/-! ## Steps -/

/-- How far a request has come. -/
inductive Phase
  | proxied (usage : UsageTable)
  | responded (usage : UsageTable) (increments : String → Option Rat) (stop_log : Bool)
  /-- with the increments that are left to the timer -/
  | logged (todo : List (String × Rat × Period))

structure Request where
  identifier : String
  current_timestamp : Nat
  phase : Phase

structure System (ι : Type) where
  /-- in milliseconds -/
  now : Nat
  counters : Counters
  requests : ι → Option Request

inductive Event (ι : Type)
  | tick (milliseconds : Nat)
  | access (i : ι) (client : Client)
  /-- the response comes, with what it announces -/
  | respond (i : ι) (header_value : Option HeaderValue)
  | log (i : ι)
  /-- the timer makes its next increment -/
  | count (i : ι)

variable {ι : Type} [DecidableEq ι] (utils : Utils)

def System.set (s : System ι) (i : ι) (request : Option Request) : System ι :=
  { s with requests := Function.update s.requests i request }

/-- The key of an increment of a request. -/
def Request.key (request : Request) (name : String) (period : Period) : CounterKey :=
  counterKey conf.policy api_id request.identifier (get_timestamps luatz request.current_timestamp period) name period

/-- `block` of a request leaves no trace; an increment that has been made is not made again. -/
def step (s : System ι) : Event ι → Option (System ι)
  | .tick milliseconds => some { s with now := s.now + milliseconds }
  | .access i client =>
    match s.requests i, access luatz conf api_id s.counters s.now client with
    | none, .proxied _ usage =>
      some (s.set i (some ⟨get_identifier conf client, get_utc s.now, .proxied usage⟩))
    | none, _ => some s
    | some _, _ => none
  | .respond i header_value =>
    match s.requests i with
    | some ⟨identifier, current_timestamp, .proxied usage⟩ =>
      let increments := parse_header utils header_value conf.limits
      some (s.set i (some ⟨identifier, current_timestamp, .responded usage increments (headerFilter usage increments).2⟩))
    | _ => none
  | .log i =>
    match s.requests i with
    | some ⟨identifier, current_timestamp, .responded usage increments stop_log⟩ =>
      if stop_log then some (s.set i none)
      else some (s.set i (some ⟨identifier, current_timestamp, .logged (logIncrements usage increments)⟩))
    | _ => none
  | .count i =>
    match s.requests i with
    | some request =>
      match request.phase with
      | .logged [] => some (s.set i none)
      | .logged ((name, value, period) :: todo) =>
        some
          { s.set i (some { request with phase := .logged todo }) with
            counters := s.counters.increment conf.policy s.now (request.key luatz conf api_id name period) period value }
      | _ => none
    | none => none

end

end OpenResty.Kong.ResponseRateLimiting
