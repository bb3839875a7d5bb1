/-
`issue_token` of `kong.plugins.oauth2.access`: tokens for authorization codes,
refresh tokens, client credentials and passwords.

A request looks for its code or refresh token, inserts the new token and deletes
what it was given, in three operations of the database; those of other requests
come between them. Every token that is inserted and every row that is deleted
is written down with the request that did it.
-/
import Mathlib.Data.List.Basic
import OpenResty.Lib.Transition
import OpenResty.Lua.Value

namespace OpenResty.Kong.Oauth2Token

open Lib.Transition Function Option List

/-! ## Requests -/

structure Conf where
  enable_client_credentials : Bool
  enable_password_grant : Bool
  global_credentials : Bool
  mandatory_scope : Bool
  provision_key : Option String
  scopes : Option (List String)
  token_expiration : Nat

/-- A row of `oauth2_credentials`. -/
structure Client where
  id : Nat
  client_secret : Option String
  redirect_uri : List String

/-- A row of `oauth2_authorization_codes`. -/
structure CodeRow where
  id : Nat
  api_id : Option Nat
  credential_id : Nat
  code : String
  authenticated_userid : Option String
  scope : Option String

/-- A row of `oauth2_tokens`. -/
structure TokenRow where
  id : Nat
  api_id : Option Nat
  credential_id : Nat
  access_token : String
  refresh_token : Option String
  expires_in : Nat
  authenticated_userid : Option String
  scope : Option String

/-- What a request is, and the client that `get_redirect_uri` found for its
`client_id`. -/
structure Request where
  is_https : Bool
  grant_type : Option String
  client_secret : Option String
  from_authorization_header : Bool
  redirect_uri : Option String
  code : Option String
  refresh_token : Option String
  scope : Option String
  provision_key : Option String
  authenticated_userid : Option String
  state : Option String
  api_id : Nat
  client : Option Client

inductive Response
  | error (error error_description : String) (status : Nat)
  | token (access_token : String) (expires_in : Option Nat) (refresh_token : Option String) (state : Option String)

def invalid_client (r : Request) : Response :=
  .error "invalid_client" "Invalid client authentication" (if r.from_authorization_header then 401 else 400)

/-- The scopes of a request, or the error and its description. -/
def retrieve_scopes (conf : Conf) (scope : Option String) : Except (String × String) (List String) :=
  match conf.scopes, scope with
  | some scopes, some scope =>
    let words := ((scope.toList.splitOnP Lua.isSpace).filter (· ≠ [])).map String.ofList
    match words.find? (· ∉ scopes) with
    | some v => .error ("invalid_scope", "\"" ++ v ++ "\" is an invalid scope")
    | none => .ok words
  | none, some _ => .ok []
  | _, none => if conf.mandatory_scope then .error ("invalid_scope", "You must specify a scope") else .ok []

def grantAllowed (conf : Conf) (r : Request) : Bool :=
  r.grant_type = some "authorization_code" || r.grant_type = some "refresh_token" ||
    (conf.enable_client_credentials && r.grant_type = some "client_credentials") ||
    (conf.enable_password_grant && r.grant_type = some "password")

/-- The redirect URI is among those of the client, the first of which stands for
one that is not given. -/
def redirectAllowed (r : Request) (client : Client) : Bool :=
  match r.redirect_uri.or client.redirect_uri.head? with
  | some redirect_uri => redirect_uri ∈ client.redirect_uri
  | none => false

/-- The checks of the grant type and the client: a later error takes the place of
an earlier one. -/
def checkClient (conf : Conf) (r : Request) : Option Response :=
  let params := if grantAllowed conf r then none else some (.error "unsupported_grant_type" "Invalid grant_type" 400)
  match r.client with
  | none => some (invalid_client r)
  | some client =>
    let params :=
      if redirectAllowed r client then params
      else
        some
          (.error "invalid_request"
            "Invalid redirect_uri that does not match with any redirect_uri created with the application" 400)
    if client.client_secret ≠ r.client_secret then some (invalid_client r) else params

/-! ## Steps -/

/-- The row that a token is given for. -/
inductive Origin
  | code (row : CodeRow)
  | refresh (row : TokenRow)

/-- Where a request is. -/
inductive Pc
  | findCode (code : String)
  | findToken (refresh_token : String)
  | insert (origin : Option Origin) (authenticated_userid scope : Option String) (disable_refresh : Bool)
  | delete (origin : Origin) (response : Response)
  | sent (response : Response)
  /-- ended by an error of the database -/
  | failed

structure Call where
  request : Request
  pc : Pc

/-- A token that was inserted, or a row that was deleted, by a request. -/
structure Entry (ι : Type) where
  caller : ι
  request : Request
  origin : Option Origin

structure System (ι : Type) where
  codes : List CodeRow
  tokens : List TokenRow
  /-- ids are given out in order -/
  next : Nat
  calls : ι → Option Call
  issued : List (Entry ι)
  consumed : List (Entry ι)

inductive Event (ι : Type)
  /-- the authorization endpoint inserts a code -/
  | authorize (row : CodeRow)
  /-- a token is inserted by the implicit grant, or from outside -/
  | addToken (row : TokenRow)
  /-- a row is deleted by its time to live, or from outside -/
  | removeCode (id : Nat)
  | removeToken (id : Nat)
  | begin (i : ι) (request : Request)
  | find (i : ι)
  /-- with the random strings, when the database takes the row -/
  | insert (i : ι) (random : Option (String × String))
  /-- whether or not the database deletes the row -/
  | delete (i : ι) (ok : Bool)

/-- What a request does until its first operation of the database. -/
def beginCall (conf : Conf) (r : Request) : Pc :=
  if !r.is_https then .sent (.error "access_denied" "You must use HTTPS" 400)
  else
    match checkClient conf r with
    | some response => .sent response
    | none =>
      if r.grant_type = some "authorization_code" then
        match r.code with
        | none => .sent (.error "invalid_request" "Invalid code" 400)
        | some code => .findCode code
      else if r.grant_type = some "client_credentials" then
        if r.authenticated_userid.isSome ∧ conf.provision_key ≠ r.provision_key then
          .sent (.error "invalid_provision_key" "Invalid provision_key" 400)
        else
          match retrieve_scopes conf r.scope with
          | .error (error, description) => .sent (.error error description 400)
          | .ok scopes => .insert none r.authenticated_userid (some (" ".intercalate scopes)) true
      else if r.grant_type = some "password" then
        if conf.provision_key ≠ r.provision_key then .sent (.error "invalid_provision_key" "Invalid provision_key" 400)
        else if (r.authenticated_userid.getD "").toList.all Lua.isSpace then
          .sent (.error "invalid_authenticated_userid" "Missing authenticated_userid parameter" 400)
        else
          match retrieve_scopes conf r.scope with
          | .error (error, description) => .sent (.error error description 400)
          | .ok scopes => .insert none r.authenticated_userid (some (" ".intercalate scopes)) false
      else
        match r.refresh_token with
        | none => .sent (.error "invalid_request" "Invalid refresh_token" 400)
        | some refresh_token => .findToken refresh_token

/-- What a request does with the row that was found, if it belongs to the client. -/
def foundCode (r : Request) : Option CodeRow → Pc
  | none => .sent (.error "invalid_request" "Invalid code" 400)
  | some row =>
    if r.client.map Client.id ≠ some row.credential_id then .sent (.error "invalid_request" "Invalid code" 400)
    else .insert (some (.code row)) row.authenticated_userid row.scope false

def foundToken (r : Request) : Option TokenRow → Pc
  | none => .sent (.error "invalid_request" "Invalid refresh_token" 400)
  | some row =>
    if r.client.map Client.id ≠ some row.credential_id then
      .sent (.error "invalid_client" "Invalid client authentication" 400)
    else .insert (some (.refresh row)) row.authenticated_userid row.scope false

variable {ι : Type} [DecidableEq ι]

def setPc (s : System ι) (i : ι) (call : Call) (pc : Pc) : System ι :=
  { s with calls := Function.update s.calls i (some { call with pc }) }

/-- `find_all({api_id = api_id, code = code})[1]` -/
def findCode (conf : Conf) (s : System ι) (r : Request) (code : String) : Option CodeRow :=
  s.codes.find? fun row => row.code = code ∧ (conf.global_credentials ∨ row.api_id = some r.api_id)

def findToken (conf : Conf) (s : System ι) (r : Request) (refresh_token : String) : Option TokenRow :=
  s.tokens.find? fun row =>
    row.refresh_token = some refresh_token ∧ (conf.global_credentials ∨ row.api_id = some r.api_id)

/-- `generate_token`, and what comes next. -/
def generate_token (conf : Conf) (s : System ι) (i : ι) (call : Call) (origin : Option Origin)
    (authenticated_userid scope : Option String) (disable_refresh : Bool) (random : String × String) : System ι :=
  let expires_in := conf.token_expiration
  let refresh_token := if !disable_refresh ∧ expires_in > 0 then some random.2 else none
  let row : TokenRow :=
    { id                   := s.next
      api_id               := if conf.global_credentials then none else some call.request.api_id
      credential_id        := (call.request.client.map Client.id).getD 0
      access_token         := random.1
      refresh_token        := refresh_token
      expires_in           := expires_in
      authenticated_userid := authenticated_userid
      scope                := scope }
  let response :=
    Response.token random.1 (if expires_in > 0 then some expires_in else none) refresh_token call.request.state
  setPc
    { s with
      tokens := s.tokens ++ [row]
      next   := s.next + 1
      issued := ⟨i, call.request, origin⟩ :: s.issued }
    i call (match origin with | some origin => .delete origin response | none => .sent response)

/-- The row is deleted by its id. -/
def deleteRow (s : System ι) : Origin → System ι
  | .code row => { s with codes := s.codes.filter (·.id ≠ row.id) }
  | .refresh row => { s with tokens := s.tokens.filter (·.id ≠ row.id) }

def step (conf : Conf) (s : System ι) : Event ι → Option (System ι)
  | .authorize row => some { s with codes := s.codes ++ [{ row with id := s.next }], next := s.next + 1 }
  | .addToken row => some { s with tokens := s.tokens ++ [{ row with id := s.next }], next := s.next + 1 }
  | .removeCode id => some { s with codes := s.codes.filter (·.id ≠ id) }
  | .removeToken id => some { s with tokens := s.tokens.filter (·.id ≠ id) }
  | .begin i request =>
    match s.calls i with
    | none => some (setPc s i ⟨request, .failed⟩ (beginCall conf request))
    | some _ => none
  | .find i =>
    match s.calls i with
    | some call =>
      match call.pc with
      | .findCode code => some (setPc s i call (foundCode call.request (findCode conf s call.request code)))
      | .findToken refresh_token =>
        some (setPc s i call (foundToken call.request (findToken conf s call.request refresh_token)))
      | _ => none
    | none => none
  | .insert i random =>
    match s.calls i with
    | some call =>
      match call.pc, random with
      | .insert origin userid scope disable_refresh, some random =>
        some (generate_token conf s i call origin userid scope disable_refresh random)
      | .insert _ _ _ _, none => some (setPc s i call .failed)
      | _, _ => none
    | none => none
  | .delete i ok =>
    match s.calls i with
    | some call =>
      match call.pc with
      | .delete origin response =>
        let s' := setPc s i call (.sent response)
        -- an error of the database is not looked at
        some (if ok then deleteRow { s' with consumed := ⟨i, call.request, some origin⟩ :: s'.consumed } origin else s')
      | _ => none
    | none => none

/-! ## What is to hold -/

/-- A row by its table and id. -/
def Origin.key : Origin → Bool × Nat
  | .code row => (true, row.id)
  | .refresh row => (false, row.id)

/-- The request passes the checks of its grant type, client, secret, redirect URI
and scope, and its code or refresh token belongs to its client. -/
structure Passes (conf : Conf) (r : Request) (origin : Option Origin) : Prop where
  https : r.is_https = true
  grant : grantAllowed conf r = true
  client : ∃ client, r.client = some client ∧ client.client_secret = r.client_secret ∧
    redirectAllowed r client = true ∧
    (∀ row, origin = some (.code row) → row.credential_id = client.id) ∧
    ∀ row, origin = some (.refresh row) → row.credential_id = client.id
  code : ∀ row, origin = some (.code row) → r.grant_type = some "authorization_code" ∧ r.code = some row.code
  refresh : ∀ row, origin = some (.refresh row) → r.grant_type = some "refresh_token" ∧ r.refresh_token = row.refresh_token
  scope : origin = none → ∃ scopes, retrieve_scopes conf r.scope = .ok scopes

/-- The codes and refresh tokens that tokens were given for. -/
def used (s : System ι) : List (Bool × Nat) := s.issued.filterMap fun x => x.origin.map Origin.key

structure Right (conf : Conf) (s : System ι) : Prop where
  /-- a code or refresh token was given one token for -/
  once : (used s).Nodup
  issued : ∀ x ∈ s.issued, Passes conf x.request x.origin
  consumed : ∀ x ∈ s.consumed, Passes conf x.request x.origin
  /-- a request that was refused did nothing -/
  refused : ∀ i call error description status, s.calls i = some call →
    call.pc = .sent (.error error description status) →
    (∀ x ∈ s.issued, x.caller ≠ i) ∧ ∀ x ∈ s.consumed, x.caller ≠ i

/-- A request that inserts its token is the first to insert one for the row it
found. -/
def Careful (s : System ι) : Event ι → Prop
  | .insert i (some _) =>
    ∀ call origin userid scope disable_refresh, s.calls i = some call →
      call.pc = .insert (some origin) userid scope disable_refresh → origin.key ∉ used s
  | _ => True

/-! ## What a request has passed -/

def NoTrace (s : System ι) (i : ι) : Prop := (∀ x ∈ s.issued, x.caller ≠ i) ∧ ∀ x ∈ s.consumed, x.caller ≠ i

/-- The request has passed the checks that come before the database. -/
structure Checked (conf : Conf) (r : Request) : Prop where
  https : r.is_https = true
  grant : grantAllowed conf r = true
  client : ∃ client, r.client = some client ∧ client.client_secret = r.client_secret ∧ redirectAllowed r client = true

/-- What holds of a request by where it is, `quiet` when it has left no trace. -/
def PcOk (conf : Conf) (r : Request) (quiet : Prop) : Pc → Prop
  | .findCode code =>
    Checked conf r ∧ r.grant_type = some "authorization_code" ∧ r.code = some code ∧ quiet
  | .findToken refresh_token =>
    Checked conf r ∧ r.grant_type = some "refresh_token" ∧ r.refresh_token = some refresh_token ∧ quiet
  | .insert origin _ _ _ => Passes conf r origin ∧ quiet
  | .delete origin response => Passes conf r (some origin) ∧ ∀ error description status, response ≠ .error error description status
  | .sent (.error _ _ _) => quiet
  | .sent (.token _ _ _ _) => True
  | .failed => True

variable {conf : Conf} {r : Request} {s s' : System ι}

theorem checkClient_none (h : checkClient conf r = none) :
    grantAllowed conf r = true ∧
      ∃ client, r.client = some client ∧ client.client_secret = r.client_secret ∧ redirectAllowed r client = true := by
  cases hclient : r.client with
  | none => simp [checkClient, hclient] at h
  | some client =>
    by_cases hsecret : client.client_secret = r.client_secret
    · by_cases hredirect : redirectAllowed r client = true
      · by_cases hgrant : grantAllowed conf r = true
        · exact ⟨hgrant, client, rfl, hsecret, hredirect⟩
        · simp [checkClient, hclient, hsecret, hredirect, hgrant] at h
      · simp [checkClient, hclient, hsecret, hredirect] at h
    · simp [checkClient, hclient, hsecret] at h

theorem Checked.passes (h : Checked conf r) (hscope : ∃ scopes, retrieve_scopes conf r.scope = .ok scopes) :
    Passes conf r none := by
  obtain ⟨client, hclient, hsecret, hredirect⟩ := h.client
  exact
    { https   := h.https
      grant   := h.grant
      client  := ⟨client, hclient, hsecret, hredirect, nofun, nofun⟩
      code    := nofun
      refresh := nofun
      scope   := fun _ => hscope }

/-- The last of the four grants. -/
theorem grant_refresh (h : grantAllowed conf r = true) (hcode : r.grant_type ≠ some "authorization_code")
    (hclient : r.grant_type ≠ some "client_credentials") (hpassword : r.grant_type ≠ some "password") :
    r.grant_type = some "refresh_token" := by
  simpa [grantAllowed, hcode, hclient, hpassword] using h

variable {quiet : Prop}

theorem beginCall_ok (hquiet : quiet) : PcOk conf r quiet (beginCall conf r) := by
  unfold beginCall
  split
  · exact hquiet
  · next hhttps =>
    have hhttps : r.is_https = true := by simpa using hhttps
    cases hcheck : checkClient conf r with
    | some response =>
      simp only
      cases response with
      | error => exact hquiet
      | token => trivial
    | none =>
      obtain ⟨hgrant, hclient⟩ := checkClient_none hcheck
      have hchecked : Checked conf r := ⟨hhttps, hgrant, hclient⟩
      simp only
      split
      · next hcode =>
        split
        · exact hquiet
        · next code hparam => exact ⟨hchecked, hcode, hparam, hquiet⟩
      · next hcode =>
        split
        · split
          · exact hquiet
          · split
            · exact hquiet
            · next scopes hscopes => exact ⟨hchecked.passes ⟨scopes, hscopes⟩, hquiet⟩
        · next hcredentials =>
          split
          · split
            · exact hquiet
            · split
              · exact hquiet
              · split
                · exact hquiet
                · next scopes hscopes => exact ⟨hchecked.passes ⟨scopes, hscopes⟩, hquiet⟩
          · next hpassword =>
            split
            · exact hquiet
            · next refresh_token hparam =>
              exact ⟨hchecked, grant_refresh hgrant hcode hcredentials hpassword, hparam, hquiet⟩

omit [DecidableEq ι] in
theorem foundCode_ok {code : String} (h : PcOk conf r quiet (.findCode code)) :
    PcOk conf r quiet (foundCode r (findCode conf s r code)) := by
  obtain ⟨hchecked, hgrant, hparam, hquiet⟩ := h
  cases hfind : findCode conf s r code with
  | none => exact hquiet
  | some row =>
    unfold foundCode
    simp only
    split
    · exact hquiet
    · next howner =>
      obtain ⟨client, hclient, hsecret, hredirect⟩ := hchecked.client
      have hcode := find?_some hfind
      simp only [decide_eq_true_eq] at hcode
      have hid : row.credential_id = client.id := by
        rw [hclient] at howner
        simpa using (not_not.mp howner).symm
      refine ⟨⟨hchecked.https, hchecked.grant, ⟨client, hclient, hsecret, hredirect, ?_, nofun⟩, ?_, nofun, nofun⟩, hquiet⟩
      · rintro row' ⟨rfl⟩
        exact hid
      · rintro row' ⟨rfl⟩
        exact ⟨hgrant, hparam.trans (congrArg some hcode.1.symm)⟩

omit [DecidableEq ι] in
theorem foundToken_ok {refresh_token : String} (h : PcOk conf r quiet (.findToken refresh_token)) :
    PcOk conf r quiet (foundToken r (findToken conf s r refresh_token)) := by
  obtain ⟨hchecked, hgrant, hparam, hquiet⟩ := h
  cases hfind : findToken conf s r refresh_token with
  | none => exact hquiet
  | some row =>
    unfold foundToken
    simp only
    split
    · exact hquiet
    · next howner =>
      obtain ⟨client, hclient, hsecret, hredirect⟩ := hchecked.client
      have htoken := find?_some hfind
      simp only [decide_eq_true_eq] at htoken
      have hid : row.credential_id = client.id := by
        rw [hclient] at howner
        simpa using (not_not.mp howner).symm
      refine ⟨⟨hchecked.https, hchecked.grant, ⟨client, hclient, hsecret, hredirect, nofun, ?_⟩, nofun, ?_, nofun⟩, hquiet⟩
      · rintro row' ⟨rfl⟩
        exact hid
      · rintro row' ⟨rfl⟩
        exact ⟨hgrant, hparam.trans htoken.1.symm⟩

theorem PcOk.mono {quiet' : Prop} (h : quiet → quiet') {pc : Pc} (hpc : PcOk conf r quiet pc) :
    PcOk conf r quiet' pc := by
  match pc with
  | .findCode _ => exact ⟨hpc.1, hpc.2.1, hpc.2.2.1, h hpc.2.2.2⟩
  | .findToken _ => exact ⟨hpc.1, hpc.2.1, hpc.2.2.1, h hpc.2.2.2⟩
  | .insert _ _ _ _ => exact ⟨hpc.1, h hpc.2⟩
  | .delete _ _ => exact hpc
  | .sent (.error _ _ _) => exact h hpc
  | .sent (.token _ _ _ _) => trivial
  | .failed => trivial

/-! ## What holds in every run -/

structure Inv (conf : Conf) (s : System ι) : Prop where
  issued : ∀ x ∈ s.issued, Passes conf x.request x.origin
  consumed : ∀ x ∈ s.consumed, Passes conf x.request x.origin
  call : ∀ i call, s.calls i = some call → PcOk conf call.request (NoTrace s i) call.pc
  fresh : ∀ i, s.calls i = none → NoTrace s i

omit [DecidableEq ι] in
/-- The invariant says nothing of the rows. -/
theorem Inv.rows (h : Inv conf s) (hcalls : s'.calls = s.calls) (hissued : s'.issued = s.issued)
    (hconsumed : s'.consumed = s.consumed) : Inv conf s' := by
  have htrace : ∀ i, NoTrace s' i ↔ NoTrace s i := fun i => by rw [NoTrace, NoTrace, hissued, hconsumed]
  exact
    { issued   := hissued ▸ h.issued
      consumed := hconsumed ▸ h.consumed
      call     := fun i call hi => (h.call i call (hcalls ▸ hi)).mono (htrace i).mpr
      fresh    := fun i hi => (htrace i).mpr (h.fresh i (hcalls ▸ hi)) }

variable {call : Call}

variable {i : ι}

/-- A request that goes on without a trace. -/
theorem Inv.setPc (h : Inv conf s) {pc : Pc} (hpc : PcOk conf call.request (NoTrace s i) pc) :
    Inv conf (setPc s i call pc) where
  issued := h.issued
  consumed := h.consumed
  call j call' hj := by
    simp only [Oauth2Token.setPc] at hj
    by_cases hji : j = i
    · subst hji
      rw [update_self] at hj
      cases hj
      exact hpc
    · rw [update_of_ne hji] at hj
      exact h.call j call' hj
  fresh j hj := by
    simp only [Oauth2Token.setPc] at hj
    by_cases hji : j = i
    · subst hji
      rw [update_self] at hj
      cases hj
    · rw [update_of_ne hji] at hj
      exact h.fresh j hj

variable {origin : Option Origin}

/-- A request leaves a trace, by what it has passed, and goes on to where no more
is asked. -/
theorem Inv.log (h : Inv conf s) {pc : Pc}
    (hpc : PcOk conf call.request False pc) (hpass : Passes conf call.request origin) {issued consumed : List (Entry ι)}
    (hissued : ∀ x ∈ issued, x = ⟨i, call.request, origin⟩ ∨ x ∈ s.issued)
    (hconsumed : ∀ x ∈ consumed, x = ⟨i, call.request, origin⟩ ∨ x ∈ s.consumed) :
    Inv conf (Oauth2Token.setPc { s with issued, consumed } i call pc) := by
  have hother : ∀ j, j ≠ i → NoTrace s j → NoTrace { s with issued, consumed } j := by
    intro j hji htrace
    constructor
    · intro x hx
      rcases hissued x hx with rfl | hx
      · exact hji.symm
      · exact htrace.1 x hx
    · intro x hx
      rcases hconsumed x hx with rfl | hx
      · exact hji.symm
      · exact htrace.2 x hx
  refine
    { issued   := fun x hx => ?_
      consumed := fun x hx => ?_
      call     := fun j call' hj => ?_
      fresh    := fun j hj => ?_ }
  · rcases hissued x hx with rfl | hx
    · exact hpass
    · exact h.issued x hx
  · rcases hconsumed x hx with rfl | hx
    · exact hpass
    · exact h.consumed x hx
  · simp only [Oauth2Token.setPc] at hj
    by_cases hji : j = i
    · subst hji
      rw [update_self] at hj
      cases hj
      exact hpc.mono False.elim
    · rw [update_of_ne hji] at hj
      exact (h.call j call' hj).mono (hother j hji)
  · simp only [Oauth2Token.setPc] at hj
    by_cases hji : j = i
    · subst hji
      rw [update_self] at hj
      cases hj
    · rw [update_of_ne hji] at hj
      exact hother j hji (h.fresh j hj)

theorem Inv.insert (h : Inv conf s) {i : ι} {call : Call} (hi : s.calls i = some call) {origin : Option Origin}
    {userid scope : Option String} {disable_refresh : Bool}
    (hpc : call.pc = .insert origin userid scope disable_refresh) (random : String × String) :
    Inv conf (generate_token conf s i call origin userid scope disable_refresh random) := by
  have hok := h.call i call hi
  rw [hpc] at hok
  have hlog : ∀ pc, PcOk conf call.request False pc →
      Inv conf (Oauth2Token.setPc { s with issued := ⟨i, call.request, origin⟩ :: s.issued } i call pc) :=
    fun pc hpc => h.log hpc hok.1 (fun x hx => mem_cons.mp hx) (fun x hx => .inr hx)
  unfold generate_token
  cases origin with
  | none => exact (hlog (.sent (.token _ _ _ _)) trivial).rows rfl rfl rfl
  | some origin => exact (hlog (.delete origin (.token _ _ _ _)) ⟨hok.1, nofun⟩).rows rfl rfl rfl

omit [DecidableEq ι] in
theorem deleteRow_same (s : System ι) (origin : Origin) :
    (deleteRow s origin).calls = s.calls ∧ (deleteRow s origin).issued = s.issued ∧
      (deleteRow s origin).consumed = s.consumed := by
  cases origin <;> exact ⟨rfl, rfl, rfl⟩

theorem sent_ok {response : Response}
    (h : ∀ error description status, response ≠ .error error description status) :
    PcOk conf r quiet (.sent response) := by
  cases response with
  | error error description status => exact absurd rfl (h error description status)
  | token => trivial

theorem Inv.delete (h : Inv conf s) (hi : s.calls i = some call) {origin : Origin}
    {response : Response} (hpc : call.pc = .delete origin response) (ok : Bool) :
    Inv conf
      (if ok then
        deleteRow
          { Oauth2Token.setPc s i call (.sent response) with
            consumed := ⟨i, call.request, some origin⟩ :: (Oauth2Token.setPc s i call (.sent response)).consumed } origin
      else Oauth2Token.setPc s i call (.sent response)) := by
  have hok := h.call i call hi
  rw [hpc] at hok
  split
  · have hlog := h.log (sent_ok hok.2) hok.1 (fun x hx => .inr hx)
      (show ∀ x ∈ ⟨i, call.request, some origin⟩ :: s.consumed, _ from fun x hx => mem_cons.mp hx)
    obtain ⟨hcalls, hissued, hconsumed⟩ := deleteRow_same
      { Oauth2Token.setPc s i call (.sent response) with
        consumed := ⟨i, call.request, some origin⟩ :: (Oauth2Token.setPc s i call (.sent response)).consumed } origin
    exact hlog.rows hcalls hissued hconsumed
  · exact h.setPc (sent_ok hok.2)

variable {e : Event ι}

theorem Inv.step (h : Inv conf s) (hstep : Oauth2Token.step conf s e = some s') : Inv conf s' := by
  cases e with
  | authorize | addToken | removeCode | removeToken =>
    cases hstep
    exact h.rows rfl rfl rfl
  | begin i request =>
    simp only [Oauth2Token.step] at hstep
    split at hstep
    · next hi =>
      cases hstep
      exact h.setPc (beginCall_ok (h.fresh i hi))
    · cases hstep
  | find i =>
    simp only [Oauth2Token.step] at hstep
    split at hstep
    · next call hi =>
      have hok := h.call i call hi
      split at hstep
      · next code hpc =>
        cases hstep
        rw [hpc] at hok
        exact h.setPc (foundCode_ok hok)
      · next refresh_token hpc =>
        cases hstep
        rw [hpc] at hok
        exact h.setPc (foundToken_ok hok)
      · cases hstep
    · cases hstep
  | insert i random =>
    simp only [Oauth2Token.step] at hstep
    split at hstep
    · next call hi =>
      split at hstep
      · next hpc =>
        cases hstep
        exact h.insert hi hpc _
      · cases hstep
        exact h.setPc trivial
      · cases hstep
    · cases hstep
  | delete i ok =>
    simp only [Oauth2Token.step] at hstep
    split at hstep
    · next call hi =>
      split at hstep
      · next origin response hpc =>
        cases hstep
        exact h.delete hi hpc ok
      · cases hstep
    · cases hstep

omit [DecidableEq ι] in
theorem Inv.right_iff (h : Inv conf s) : Right conf s ↔ (used s).Nodup := by
  refine ⟨Right.once, fun honce => ⟨honce, h.issued, h.consumed, ?_⟩⟩
  intro i call error description status hi hpc
  have hok := h.call i call hi
  rw [hpc] at hok
  exact hok

def empty (ι : Type) : System ι where
  codes := []
  tokens := []
  next := 0
  calls _ := none
  issued := []
  consumed := []

end OpenResty.Kong.Oauth2Token
