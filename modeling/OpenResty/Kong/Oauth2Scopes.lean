/-
The scopes of `kong.plugins.oauth2.access`: what `authorize` and `issue_token` make of the scope
parameter, which is a text, `true` when it has no value, or a list when it is repeated.

A request is taken as one step here; a code and a refresh token pass on the scope of their row.
The scope is looked for words only where it is there, and asked for only where it is not: a text
without a word is neither.
-/
import OpenResty.Kong.Oauth2Token

namespace OpenResty.Kong.Oauth2Scopes

open Lib.Transition
open Oauth2Token (Client CodeRow TokenRow Response checkClient redirectAllowed)

structure Conf extends Oauth2Token.Conf where
  enable_authorization_code : Bool
  enable_implicit_grant : Bool

/-- A parameter as the request parser gives it. -/
inductive Param
  | text (s : String)
  /-- `true`: a name without a value -/
  | flag
  /-- of a repeated name; none is `true` -/
  | list (values : List (Option String))

structure Request where
  /-- all but the scope, which is not looked at here -/
  base : Oauth2Token.Request
  response_type : Option String
  scope : Option Param

/-- What `retrieve_scopes` comes to. -/
inductive Retrieved
  | scopes (scopes : List String)
  | error (error error_description : String)
  | raises (message : String)

/-- `scope:gmatch` of what is no text raises. -/
def retrieve_scopes (conf : Conf) : Option Param → Retrieved
  | none => ofText none
  | some (.text s) => ofText (some s)
  | some .flag =>
    if conf.scopes.isSome then .raises "attempt to index local 'scope' (a boolean value)" else .scopes []
  | some (.list _) =>
    if conf.scopes.isSome then .raises "attempt to call method 'gmatch' (a nil value)" else .scopes []
where
  ofText (scope : Option String) : Retrieved :=
    match Oauth2Token.retrieve_scopes conf.toConf scope with
    | .ok scopes => .scopes scopes
    | .error (error, description) => .error error description

/-- What is sent, where nothing is raised. -/
inductive Reply
  | response (response : Response)
  | code (code : String)
  /-- by an error of the database -/
  | failed
  | raises (message : String)

def error (error error_description : String) : Reply := .response (.error error error_description 400)

structure State where
  codes : List CodeRow
  tokens : List TokenRow
  /-- ids are given out in order -/
  next : Nat
  /-- `retrieve_scopes` has raised -/
  raised : Bool

/-- The random strings of a row, when the database takes it. -/
abbrev Random := Option (String × String)

def apiId (conf : Conf) (r : Request) : Option Nat := if conf.global_credentials then none else some r.base.api_id

def generate_token (conf : Conf) (s : State) (r : Request) (client : Client)
    (authenticated_userid scope : Option String)
    (disable_refresh : Bool) (random : Random) : State × Reply :=
  match random with
  | none => (s, .failed)
  | some random =>
    let expires_in := conf.token_expiration
    let refresh_token := if !disable_refresh ∧ expires_in > 0 then some random.2 else none
    let row : TokenRow :=
      { id                   := s.next
        api_id               := apiId conf r
        credential_id        := client.id
        access_token         := random.1
        refresh_token        := refresh_token
        expires_in           := expires_in
        authenticated_userid := authenticated_userid
        scope                := scope }
    ({ s with tokens := s.tokens ++ [row], next := s.next + 1 },
      .response (.token random.1 (if expires_in > 0 then some expires_in else none) refresh_token r.base.state))

/-- The user id of a request is missing, or blank. -/
def missingUserid (r : Request) : Bool := (r.base.authenticated_userid.getD "").toList.all Lua.isSpace

/-- `authorize`, from where the scopes have been retrieved; a later error takes the place of an earlier one. -/
def authorizeClient (conf : Conf) (s : State) (r : Request) (random : Random) (params : Option Reply)
    (scopes : List String) : State × Reply :=
  match r.base.client with
  | none => (s, error "invalid_client" "Invalid client authentication")
  | some client =>
    let params :=
      if redirectAllowed r.base client then params
      else
        some
          (error "invalid_request"
            "Invalid redirect_uri that does not match with any redirect_uri created with the application")
    match params with
    | some params => (s, params)
    | none =>
      let scope := " ".intercalate scopes
      if r.response_type = some "code" then
        match random with
        | none => (s, .failed)
        | some random =>
          let row : CodeRow :=
            { id                   := s.next
              api_id               := apiId conf r
              credential_id        := client.id
              code                 := random.1
              authenticated_userid := r.base.authenticated_userid
              scope                := some scope }
          ({ s with codes := s.codes ++ [row], next := s.next + 1 }, .code random.1)
      else generate_token conf s r client r.base.authenticated_userid (some scope) true random

def responseTypeAllowed (conf : Conf) (r : Request) : Bool :=
  (r.response_type = some "code" && conf.enable_authorization_code) ||
    (conf.enable_implicit_grant && r.response_type = some "token")

def authorize (conf : Conf) (s : State) (r : Request) (random : Random) : State × Reply :=
  if !r.base.is_https then (s, error "access_denied" "You must use HTTPS")
  else if conf.provision_key ≠ r.base.provision_key then (s, error "invalid_provision_key" "Invalid provision_key")
  else if missingUserid r then (s, error "invalid_authenticated_userid" "Missing authenticated_userid parameter")
  else
    let params := if responseTypeAllowed conf r then none else
      some (error "unsupported_response_type" "Invalid response_type")
    match retrieve_scopes conf r.scope with
    | .raises message => ({ s with raised := true }, .raises message)
    | .error e description => authorizeClient conf s r random (some (error e description)) []
    | .scopes scopes => authorizeClient conf s r random params scopes

/-- A token with the scopes that a request asks for. -/
def issueWithScopes (conf : Conf) (s : State) (r : Request) (client : Client) (disable_refresh : Bool)
    (random : Random) :
    State × Reply :=
  match retrieve_scopes conf r.scope with
  | .raises message => ({ s with raised := true }, .raises message)
  | .error e description => (s, error e description)
  | .scopes scopes =>
    generate_token conf s r client r.base.authenticated_userid (some (" ".intercalate scopes)) disable_refresh random

/-- `find_all({api_id = api_id, code = code})[1]` -/
def findCode (conf : Conf) (s : State) (r : Request) : Option CodeRow :=
  r.base.code.bind fun code => s.codes.find? fun row => row.code = code ∧
    (conf.global_credentials ∨ row.api_id = some r.base.api_id)

def findToken (conf : Conf) (s : State) (r : Request) : Option TokenRow :=
  r.base.refresh_token.bind fun refresh_token => s.tokens.find? fun row =>
    row.refresh_token = some refresh_token ∧ (conf.global_credentials ∨ row.api_id = some r.base.api_id)

def issue_token (conf : Conf) (s : State) (r : Request) (random : Random) : State × Reply :=
  if !r.base.is_https then (s, error "access_denied" "You must use HTTPS")
  else
    match checkClient conf.toConf r.base, r.base.client with
    | some response, _ => (s, .response response)
    | none, none => (s, error "invalid_client" "Invalid client authentication")
    | none, some client =>
      if r.base.grant_type = some "authorization_code" then
        match findCode conf s r with
        | none => (s, error "invalid_request" "Invalid code")
        | some row =>
          if row.credential_id ≠ client.id then (s, error "invalid_request" "Invalid code")
          else
            let issued := generate_token conf s r client row.authenticated_userid row.scope false random
            if random.isSome then ({ issued.1 with codes := issued.1.codes.filter (·.id ≠ row.id) },
              issued.2) else issued
      else if r.base.grant_type = some "client_credentials" then
        if r.base.authenticated_userid.isSome ∧ conf.provision_key ≠ r.base.provision_key then
          (s, error "invalid_provision_key" "Invalid provision_key")
        else issueWithScopes conf s r client true random
      else if r.base.grant_type = some "password" then
        if conf.provision_key ≠ r.base.provision_key then (s, error "invalid_provision_key" "Invalid provision_key")
        else if missingUserid r then
          (s, error "invalid_authenticated_userid" "Missing authenticated_userid parameter")
        else issueWithScopes conf s r client false random
      else
        match findToken conf s r with
        | none => (s, error "invalid_request" "Invalid refresh_token")
        | some row =>
          if row.credential_id ≠ client.id then (s, error "invalid_client" "Invalid client authentication")
          else
            let issued := generate_token conf s r client row.authenticated_userid row.scope false random
            if random.isSome then ({ issued.1 with tokens := issued.1.tokens.filter (·.id ≠ row.id) },
              issued.2) else issued

/-! ## Steps -/

inductive Event
  | authorize (r : Request) (random : Random)
  | issue (r : Request) (random : Random)
  /-- a row is deleted by its time to live, or from outside -/
  | removeCode (id : Nat)
  | removeToken (id : Nat)

def step (conf : Conf) (s : State) : Event → Option State
  | .authorize r random => some (authorize conf s r random).1
  | .issue r random => some (issue_token conf s r random).1
  | .removeCode id => some { s with codes := s.codes.filter (·.id ≠ id) }
  | .removeToken id => some { s with tokens := s.tokens.filter (·.id ≠ id) }

/-! ## What is asked of it -/

/-- `%S+` -/
def words (s : String) : List String := ((s.toList.splitOnP Lua.isSpace).filter (· ≠ [])).map String.ofList

/-- Every word of a scope is one of the configuration, and it has one where a scope is mandatory. -/
def GoodScope (conf : Conf) (scope : Option String) : Prop :=
  (∀ word ∈ words (scope.getD ""), word ∈ conf.scopes.getD []) ∧
    (conf.mandatory_scope = true → words (scope.getD "") ≠ [])

/-- Every code and token has such a scope, and nothing was raised. -/
structure Good (conf : Conf) (s : State) : Prop where
  codes : ∀ row ∈ s.codes, GoodScope conf row.scope
  tokens : ∀ row ∈ s.tokens, GoodScope conf row.scope
  total : s.raised = false

/-- The request comes to its scope, before anything is issued. -/
def Event.asks (conf : Conf) : Event → Option Request
  | .authorize r _ =>
    if r.base.is_https ∧ conf.provision_key = r.base.provision_key ∧ missingUserid r = false then some r else none
  | .issue r _ =>
    if r.base.is_https ∧ checkClient conf.toConf r.base = none ∧
        (r.base.grant_type = some "client_credentials" ∧
            (r.base.authenticated_userid = none ∨ conf.provision_key = r.base.provision_key) ∨
          r.base.grant_type = some "password" ∧ conf.provision_key = r.base.provision_key ∧
            missingUserid r = false) then
      some r
    else none
  | _ => none

/-- Nothing but the scope keeps it from being issued a code or token. -/
def Event.allowed (conf : Conf) : Event → Bool
  | .authorize r random => responseTypeAllowed conf r && r.base.client.any (redirectAllowed r.base) && random.isSome
  | .issue _ random => random.isSome
  | _ => false

/-- A request that comes to its scope has none, or one text, which has a word where a scope is mandatory and the
request is allowed. -/
def Careful (conf : Conf) (_ : State) (e : Event) : Prop :=
  ∀ r, e.asks conf = some r →
    match r.scope with
    | none => True
    | some (.text s) => conf.mandatory_scope = true → e.allowed conf = true → words s ≠ []
    | some _ => False

end OpenResty.Kong.Oauth2Scopes
