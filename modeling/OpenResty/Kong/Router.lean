/-
`kong.core.router`: finds the API for a request by its hosts, URIs and methods.

The host of a request is resolved to one value that the indexes know, before
any API is looked at: to itself if some API lists it, else to the first
wildcard that matches it.

A regex is kept by what it is made of, and found as PCRE finds it in anchored
mode: `\Q..\E` by a prefix, a wildcard by one or more characters for each star.
A table that is an object is known by its place in the list of APIs.
-/
import Mathlib.Algebra.Order.Ring.Nat
import Mathlib.Data.List.Dedup
import OpenResty.Lib.Transition

namespace OpenResty.Kong.Router

open Function

abbrev Text := List Char

/-! ## Rules -/

/-- `MATCH_RULES` -/
inductive Rule
  | host
  | uri
  | method
  deriving DecidableEq

/-- A set of rules, which the source keeps in bits. -/
structure Rules where
  host : Bool
  uri : Bool
  method : Bool
  deriving DecidableEq

def Rules.has (rules : Rules) : Rule → Bool
  | .host => rules.host
  | .uri => rules.uri
  | .method => rules.method

def CATEGORIES : List Rules :=
  [⟨true, true, true⟩, ⟨true, true, false⟩, ⟨true, false, true⟩, ⟨false, true, true⟩,
    ⟨true, false, false⟩, ⟨false, true, false⟩, ⟨false, false, true⟩]

/-- What the source leaves to Lua: the order in which `pairs` gives the rules,
and where `table.sort` puts elements that compare equal. All comparisons are of
sizes, the greatest first. -/
structure Lua where
  pairs : List Rule
  pairs_all : ∀ rule, rule ∈ pairs
  sort : {α : Type} → (α → Nat) → List α → List α
  sort_perm : ∀ {α : Type} (size : α → Nat) (l : List α), (sort size l).Perm l
  sort_sorted : ∀ {α : Type} (size : α → Nat) (l : List α), (sort size l).Pairwise fun a b => size b ≤ size a

/-! ## APIs -/

/-- What `url.parse` makes of `upstream_url`. -/
structure Parsed where
  scheme : Option Text
  host : Option Text
  port : Option Nat
  path : Option Text
  deriving DecidableEq

/-- An API that the schema accepts: an array that is not given is empty, and one
is not. -/
structure Api where
  hosts : List Text
  uris : List Text
  methods : List Text
  strip_uri : Bool
  preserve_host : Bool
  upstream_url : Parsed
  some_rule : hosts ≠ [] ∨ uris ≠ [] ∨ methods ≠ []
  deriving DecidableEq

structure Upstream where
  scheme : Option Text
  host : Option Text
  port : Nat
  path : Option Text
  file : Option Text

/-- `regex` is known by `value`. The keys of `hosts`, `uris` and `methods` are
lists without duplicates, and a URI stands for its regexes. -/
structure ApiT where
  api : Api
  id : Nat
  match_rules : Rules
  hosts : List Text
  wildcard_hosts : List Text
  uris : List Text
  uris_prefixes_regexes : List Text
  methods : List Text
  upstream : Upstream

def upper (s : Text) : Text := s.map Char.toUpper

def parseUpstream (parsed : Parsed) : Upstream where
  scheme := parsed.scheme
  host := parsed.host
  port := parsed.port.getD (if parsed.scheme = some "https".toList then 443 else 80)
  path := parsed.path
  file := parsed.path.map fun path => if path.getLast? = some '/' ∧ path ≠ ['/'] then path.dropLast else path

def marshall_api (id : Nat) (api : Api) : ApiT where
  api
  id
  match_rules := { host := !api.hosts.isEmpty, uri := !api.uris.isEmpty, method := !api.methods.isEmpty }
  hosts := api.hosts.dedup
  wildcard_hosts := api.hosts.filter ('*' ∈ ·)
  uris := api.uris.dedup
  uris_prefixes_regexes := api.uris
  methods := (api.methods.map upper).dedup
  upstream := parseUpstream api.upstream_url

/-! ## Regexes -/

/-- `re_find` of a quoted URI -/
def findPrefix (subject uri : Text) : Bool := uri.isPrefixOf subject

/-- `re_find` of the regex that is made of a wildcard host. -/
def findWildcard : Text → Text → Bool
  | [], [] => true
  | '*' :: p, _ :: s => findWildcard p s || findWildcard ('*' :: p) s
  | a :: p, b :: s => a = b && findWildcard p s
  | _, _ => false

/-- `re_sub` of a quoted URI, a slash that may follow and the rest by a slash and
the rest. -/
def stripPrefix (subject uri : Text) : Text :=
  if uri.isPrefixOf subject then
    match subject.drop uri.length with
    | '/' :: rest => '/' :: rest
    | rest => '/' :: rest
  else subject

/-! ## Indexes -/

/-- `plain_indexes`, and the arrays for when a lookup in those fails. -/
structure Indexes where
  hosts : Text → Bool
  uris : Text → Bool
  methods : Text → Bool
  uris_prefixes : List Text
  wildcard_hosts : List Text

def index_api_t (indexes : Indexes) (api_t : ApiT) : Indexes where
  hosts host := host ∈ api_t.hosts || indexes.hosts host
  uris uri := uri ∈ api_t.uris || indexes.uris uri
  methods method := method ∈ api_t.methods || indexes.methods method
  uris_prefixes := indexes.uris_prefixes ++ api_t.uris_prefixes_regexes
  wildcard_hosts := indexes.wildcard_hosts ++ api_t.wildcard_hosts

structure Category where
  apis_by_plain_hosts : Text → Option (List ApiT)
  apis_by_plain_uris : Text → Option (List ApiT)
  apis_by_methods : Text → Option (List ApiT)
  apis : List ApiT

/-- An API goes to the list of each of its keys. -/
def insertUnder (keys : List Text) (api_t : ApiT) (table : Text → Option (List ApiT)) : Text → Option (List ApiT) :=
  keys.foldl (fun table key => update table key (some ((table key).getD [] ++ [api_t]))) table

def categorize_api_t (categories : Rules → Option Category) (api_t : ApiT) : Rules → Option Category :=
  let category := (categories api_t.match_rules).getD
    { apis_by_plain_hosts := fun _ => none, apis_by_plain_uris := fun _ => none,
      apis_by_methods := fun _ => none, apis := [] }
  update categories api_t.match_rules (some
    { apis := category.apis ++ [api_t]
      apis_by_plain_hosts := insertUnder api_t.hosts api_t category.apis_by_plain_hosts
      apis_by_plain_uris := insertUnder api_t.uris api_t category.apis_by_plain_uris
      apis_by_methods := insertUnder api_t.methods api_t category.apis_by_methods })

/-- The length of the longest regex for a prefix, by which APIs are sorted. -/
def maxUri (api_t : ApiT) : Nat :=
  api_t.uris_prefixes_regexes.foldl
    (fun max_uri uri => if max_uri < uri.length + 4 then uri.length + 4 else max_uri) 0

/-- `apis_by_plain_uris` is left as it is. -/
def Category.sort (lua : Lua) (category : Category) : Category where
  apis := lua.sort maxUri category.apis
  apis_by_methods method := (category.apis_by_methods method).map (lua.sort maxUri)
  apis_by_plain_hosts host := (category.apis_by_plain_hosts host).map (lua.sort maxUri)
  apis_by_plain_uris := category.apis_by_plain_uris

/-- A router, without what changes in it. -/
structure Tables where
  indexes : Indexes
  categories : Rules → Option Category

def new (lua : Lua) (apis : List Api) : Tables :=
  let apis_t := apis.mapIdx marshall_api
  let indexes := apis_t.foldl index_api_t
    { hosts := fun _ => false, uris := fun _ => false, methods := fun _ => false, uris_prefixes := [],
      wildcard_hosts := [] }
  let categories := apis_t.foldl categorize_api_t fun _ => none
  { indexes := { indexes with uris_prefixes := lua.sort (fun uri => uri.length + 4) indexes.uris_prefixes }
    categories := fun rules => (categories rules).map (Category.sort lua) }

/-! ## Matching -/

/-- `strip_uri_regex` of each API, kept by the URI that it strips. -/
abbrev Strips := Nat → Option Text

/-- The URI whose regex the matcher leaves to be stripped. -/
def matchUri (api_t : ApiT) (uri : Text) : Option Text :=
  if uri ∈ api_t.uris then some uri else api_t.uris_prefixes_regexes.find? (findPrefix uri)

def matchers (strips : Strips) (api_t : ApiT) (method uri : Text) (host : Option Text) : Rule → Bool × Strips
  | .host => (host.any (· ∈ api_t.hosts), strips)
  | .uri =>
    match matchUri api_t uri with
    | some found => (true, if api_t.api.strip_uri then update strips api_t.id (some found) else strips)
    | none => (false, strips)
  | .method => (method ∈ api_t.methods, strips)

/-- The matchers of a set, up to one that fails. -/
def matchAll (strips : Strips) (api_t : ApiT) (method uri : Text) (host : Option Text) : List Rule → Bool × Strips
  | [] => (true, strips)
  | rule :: rules =>
    match matchers strips api_t method uri host rule with
    | (true, strips) => matchAll strips api_t method uri host rules
    | (false, strips) => (false, strips)

def match_api (lua : Lua) (strips : Strips) (api_t : ApiT) (method uri : Text) (host : Option Text) : Bool × Strips :=
  matchAll strips api_t method uri host (lua.pairs.filter api_t.match_rules.has)

def reducers (category : Category) (method uri : Text) (host : Option Text) : Rule → Option (List ApiT)
  | .host => host.bind category.apis_by_plain_hosts
  | .uri => category.apis_by_plain_uris uri
  | .method => category.apis_by_methods method

/-- The smallest of the candidate sets, the first of those that are as small. -/
def smaller (smallest_set candidates : Option (List ApiT)) : Option (List ApiT) :=
  match candidates, smallest_set with
  | none, smallest_set => smallest_set
  | some candidates, none => some candidates
  | some candidates, some smallest_set =>
      if candidates.length < smallest_set.length then some candidates else some smallest_set

def reduce (lua : Lua) (category : Category) (bit_category : Rules) (method uri : Text) (host : Option Text) :
    Option (List ApiT) :=
  ((lua.pairs.filter bit_category.has).map (reducers category method uri host)).foldl smaller none

/-- The first API of a list that matches. -/
def firstMatch (lua : Lua) (method uri : Text) (host : Option Text) : Strips → List ApiT → Option ApiT × Strips
  | strips, [] => (none, strips)
  | strips, api_t :: apis =>
    match match_api lua strips api_t method uri host with
    | (true, strips) => (some api_t, strips)
    | (false, strips) => firstMatch lua method uri host strips apis

/-- A category: its candidates, and then all its APIs. -/
def searchCategory (lua : Lua) (category : Category) (bit_category : Rules) (method uri : Text) (host : Option Text)
    (strips : Strips) : Option ApiT × Strips :=
  match firstMatch lua method uri host strips ((reduce lua category bit_category method uri host).getD []) with
  | (some api_t, strips) => (some api_t, strips)
  | (none, strips) => firstMatch lua method uri host strips category.apis

/-- The categories from the one of the request on. -/
def searchFrom (lua : Lua) (tables : Tables) (method uri : Text) (host : Option Text) :
    Strips → List Rules → Option ApiT × Strips
  | strips, [] => (none, strips)
  | strips, bit_category :: rest =>
    match tables.categories bit_category with
    | none => searchFrom lua tables method uri host strips rest
    | some category =>
      match searchCategory lua category bit_category method uri host strips with
      | (some api_t, strips) => (some api_t, strips)
      | (none, strips) => searchFrom lua tables method uri host strips rest

/-! ## Finding an API -/

/-- The host that the indexes know for that of the request. -/
def Indexes.resolveHost (indexes : Indexes) : Option Text → Option Text
  | none => none
  | some host =>
    if indexes.hosts host then some host
    else some ((indexes.wildcard_hosts.find? (findWildcard · host)).getD host)

/-- The URI, or the longest prefix of it that the indexes know. -/
def Indexes.resolveUri (indexes : Indexes) (uri : Text) : Text :=
  if indexes.uris uri then uri else (indexes.uris_prefixes.find? (findPrefix uri)).getD uri

def Indexes.category (indexes : Indexes) (method uri : Text) (host : Option Text) : Rules where
  host := host.any fun host => indexes.hosts host || indexes.wildcard_hosts.any (findWildcard · host)
  uri := indexes.uris uri || indexes.uris_prefixes.any (findPrefix uri)
  method := indexes.methods method

/-- What follows the lookup in the cache. -/
def search (lua : Lua) (tables : Tables) (strips : Strips) (method uri : Text) (host : Option Text) :
    Option ApiT × Strips :=
  let req_category := tables.indexes.category method uri host
  if req_category = ⟨false, false, false⟩ then (none, strips)
  else searchFrom lua tables method (tables.indexes.resolveUri uri) (tables.indexes.resolveHost host) strips
    (CATEGORIES.dropWhile (· ≠ req_category))

/-- The host without a port; an error is thrown when nothing is left. -/
inductive Fault
  | noHost

def stripPort (host : Text) : Except Fault Text :=
  match host.takeWhile (· ≠ ':') with
  | [] => .error .noHost
  | host => .ok host

/-- What changes in a router. -/
structure State where
  cache : Text → Option ApiT
  strips : Strips

/-- A request as `find_api` has it after its sanitization. -/
structure Request where
  method : Text
  uri : Text
  host : Option Text

def sanitize (method uri : Text) (host : Option Text) : Except Fault Request := do
  let host ← match host with
    | none => pure none
    | some host => (stripPort host).map some
  return { method := upper method, uri, host }

def Request.cache_key (r : Request) : Text :=
  r.method ++ ':' :: r.uri ++ ':' :: r.host.getD "nil".toList

def find (lua : Lua) (tables : Tables) (s : State) (r : Request) : Option ApiT × State :=
  let searched (strips : Strips) : Option ApiT × State :=
    match search lua tables strips r.method r.uri r.host with
    | (some api_t, strips) => (some api_t, { cache := update s.cache r.cache_key (some api_t), strips })
    | (none, strips) => (none, { s with strips })
  match s.cache r.cache_key with
  | some api_t =>
    match match_api lua s.strips api_t r.method r.uri r.host with
    | (true, strips) => (some api_t, { s with strips })
    | (false, strips) => searched strips
  | none => searched s.strips

def find_api (lua : Lua) (tables : Tables) (s : State) (method uri : Text) (host : Option Text) :
    Except Fault (Option ApiT × State) := do
  return find lua tables s (← sanitize method uri host)

/-! ## Requests -/

/-- `ngx.req.get_method()`, `ngx.var.request_uri` and `ngx.var.http_host` -/
structure Http where
  method : Text
  request_uri : Text
  http_host : Option Text

/-- The API is known by its place in the list. -/
structure Served where
  id : Nat
  api : Api
  upstream : Upstream
  host_header : Option Text
  uri : Text

/-- The URI up to a question mark that is not its first character. -/
def withoutQuery : Text → Text
  | [] => []
  | c :: rest => c :: rest.takeWhile (· ≠ '?')

def grab_host (indexes : Indexes) (apis : List Api) : Bool :=
  !indexes.wildcard_hosts.isEmpty || apis.any fun api => !api.hosts.isEmpty

/-- The URI for the upstream, behind the path of that. -/
def upstreamUri (upstream : Upstream) (request_uri uri : Text) : Text :=
  match upstream.path, upstream.file with
  | some path, some file =>
    if path = ['/'] then uri
    else if uri ≠ ['/'] then file ++ uri
    else
      let uri_root := request_uri = ['/']
      let slash := request_uri.getLast? = some '/'
      if path ≠ file then if uri_root ∨ slash then path else file
      else if uri_root ∨ ¬ slash then file else file ++ uri
  | _, _ => uri

/-- What `find_api` gets of a request. -/
def Http.request (tables : Tables) (apis : List Api) (http : Http) : Except Fault Request :=
  sanitize http.method (withoutQuery http.request_uri)
    (if grab_host tables.indexes apis then http.http_host else none)

def serve (s : State) (http : Http) (api_t : ApiT) : Served :=
  let uri := withoutQuery http.request_uri
  let uri := if http.request_uri = ['/'] then uri else ((s.strips api_t.id).map (stripPrefix uri)).getD uri
  { id := api_t.id, api := api_t.api, upstream := api_t.upstream
    host_header := if api_t.api.preserve_host then http.http_host else none
    uri := upstreamUri api_t.upstream http.request_uri uri }

def exec (lua : Lua) (apis : List Api) (s : State) (http : Http) : Except Fault (Option Served × State) := do
  let (api_t, s) := find lua (new lua apis) s (← http.request (new lua apis) apis)
  return (api_t.map (serve s http), s)

end OpenResty.Kong.Router
