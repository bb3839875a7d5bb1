/-
`do_authentication` of the jwt plugin, with the consumers that the other plugins
of authentication cache.

All of them cache a consumer under its id, but for the jwt plugin, which caches
it under the key of its credential.
-/
import OpenResty.Kong.OneMemory

namespace OpenResty.Kong.JwtConsumers

open DatabaseCache (consumer_key)
open Lib.Transition OneMemory Function Option List

structure Consumer where
  id : String
  username : Option String
  custom_id : Option String
  deriving DecidableEq

/-- A row of `jwt_secrets`. -/
structure Credential where
  key : String
  consumer_id : String
  algorithm : Option String
  secret : Option String
  rsa_public_key : Option String
  deriving DecidableEq

/-- The methods of `jwt_parser`, for tokens that can be decoded. -/
structure Parser (T : Type) where
  claims : T → String → Option String
  alg : T → Option String
  b64_decode : String → Option String
  verify_signature : T → String → Bool
  /-- with the errors -/
  verify_registered_claims : T → List String → Option String

variable {T : Type}

/-- What `retrieve_token` and the decoder find. -/
inductive Token (T : Type)
  | nil
  | table
  | unrecognizable
  | bad (err : String)
  | jwt (jwt : T)

structure Conf where
  key_claim_name : String
  secret_is_base64 : Bool
  claims_to_verify : List String

/-- A status and a message. -/
abbrev Refusal := Nat × Option String

structure System where
  consumers : List Consumer
  /-- the part of the cache that is of the credentials -/
  cachedCredentials : Memory String Credential
  cachedConsumers : Memory String Consumer
  /-- the consumers that have been updated and whose events are still to come -/
  pending : List String

/-! ## Requests -/

def jwtauth_credential_key (secret : String) : String := "jwtauth_credentials:" ++ secret

def load_credential (jwt_secrets : List Credential) (jwt_secret_key : String) : Option Credential :=
  jwt_secrets.find? (·.key = jwt_secret_key)

def load_consumer (consumers : List Consumer) (consumer_id : String) : Option Consumer :=
  consumers.find? (·.id = consumer_id)

/-- The checks of a token against its credential. -/
def verify (parser : Parser T) (conf : Conf) (jwt : T) (jwt_secret : Credential) : Except Refusal Unit := do
  let algorithm := jwt_secret.algorithm.getD "HS256"
  if parser.alg jwt ≠ some algorithm then
    throw (403, some "Invalid algorithm")
  let jwt_secret_value :=
    if algorithm = "HS256" then jwt_secret.secret.or jwt_secret.rsa_public_key else jwt_secret.rsa_public_key
  let jwt_secret_value ←
    if conf.secret_is_base64 then
      match jwt_secret_value with
      | some value => pure (parser.b64_decode value)
      -- there is nothing to decode, which is an error of Lua
      | none => throw (500, none)
    else pure jwt_secret_value
  match jwt_secret_value with
  | none => throw (403, some "Invalid key/secret")
  | some value =>
    if ¬parser.verify_signature jwt value then
      throw (403, some "Invalid signature")
    match parser.verify_registered_claims jwt conf.claims_to_verify with
    | some errors => throw (401, some errors)
    | none => pure ()

/-- With the consumer and the credential of a request that is accepted. -/
def do_authentication (parser : Parser T) (jwt_secrets : List Credential) (conf : Conf) (s : System) :
    Token T → Except Refusal (Consumer × Credential) × System
  | .nil => (.error (401, none), s)
  | .table => (.error (401, some "Multiple tokens provided"), s)
  | .unrecognizable => (.error (401, some "Unrecognizable token"), s)
  | .bad err => (.error (401, some ("Bad token; " ++ err)), s)
  | .jwt jwt =>
    match parser.claims jwt conf.key_claim_name with
    | none => (.error (401, some ("No mandatory '" ++ conf.key_claim_name ++ "' in claims")), s)
    | some jwt_secret_key =>
      let (jwt_secret, cachedCredentials) :=
        get_or_set s.cachedCredentials (jwtauth_credential_key jwt_secret_key) (load_credential jwt_secrets jwt_secret_key)
      let s := { s with cachedCredentials }
      match jwt_secret with
      | none => (.error (403, some ("No credentials found for given '" ++ conf.key_claim_name ++ "'")), s)
      | some jwt_secret =>
        match verify parser conf jwt jwt_secret with
        | .error refusal => (.error refusal, s)
        | .ok () =>
          let (consumer, cachedConsumers) :=
            get_or_set s.cachedConsumers (consumer_key jwt_secret_key) (load_consumer s.consumers jwt_secret.consumer_id)
          let s := { s with cachedConsumers }
          match consumer with
          | none => (.error (403, some ("Could not find consumer for '" ++ conf.key_claim_name ++ "=" ++ jwt_secret_key ++ "'")), s)
          | some consumer => (.ok (consumer, jwt_secret), s)

/-- How the other plugins, and all for the anonymous consumer, get a consumer. -/
def get_consumer (s : System) (consumer_id : String) : Option Consumer × System :=
  let (consumer, cachedConsumers) :=
    get_or_set s.cachedConsumers (consumer_key consumer_id) (load_consumer s.consumers consumer_id)
  (consumer, { s with cachedConsumers })

inductive Event (T : Type)
  | jwt (conf : Conf) (token : Token T)
  | other (consumer_id : String)
  | update (row : Consumer)
  /-- the event of an update comes -/
  | deliver (id : String)
  /-- a key is lost from memory -/
  | evict (key : String)

def step (parser : Parser T) (jwt_secrets : List Credential) (s : System) : Event T → Option System
  | .jwt conf token => some (do_authentication parser jwt_secrets conf s token).2
  | .other consumer_id => some (get_consumer s consumer_id).2
  | .update row =>
    if (load_consumer s.consumers row.id).isSome then
      some { s with
        consumers := s.consumers.map fun old => if old.id = row.id then row else old
        pending := row.id :: s.pending }
    else none
  | .deliver id =>
    if id ∈ s.pending then
      some { s with cachedConsumers := delete s.cachedConsumers (consumer_key id), pending := s.pending.erase id }
    else none
  | .evict key =>
    some { s with cachedConsumers := delete s.cachedConsumers key, cachedCredentials := delete s.cachedCredentials key }

/-! ## What is to hold -/

/-- A consumer is the one of the credential, as it is in the database unless its
event is still to come. -/
def Attributed (s : System) (consumer : Consumer) (jwt_secret : Credential) : Prop :=
  consumer.id = jwt_secret.consumer_id ∧
    (jwt_secret.consumer_id ∉ s.pending → load_consumer s.consumers jwt_secret.consumer_id = some consumer)

/-- Whatever token comes next, a request that is accepted is attributed so by the
credential of its key. -/
def Right (parser : Parser T) (jwt_secrets : List Credential) (s : System) : Prop :=
  ∀ conf token consumer found, (do_authentication parser jwt_secrets conf s token).1 = .ok (consumer, found) →
    ∃ jwt key jwt_secret, token = .jwt jwt ∧ parser.claims jwt conf.key_claim_name = some key ∧
      load_credential jwt_secrets key = some jwt_secret ∧ Attributed s consumer jwt_secret

/-- A credential of the key that some token verifies with. -/
def Usable (parser : Parser T) (jwt_secrets : List Credential) (key : String) (jwt_secret : Credential) : Prop :=
  load_credential jwt_secrets key = some jwt_secret ∧
    ∃ conf jwt, parser.claims jwt conf.key_claim_name = some key ∧ verify parser conf jwt jwt_secret = .ok ()

/-- No plugin caches a consumer whose id is the key of another consumer's
credential, and when the event of a consumer comes, no credential of another key
than its id has it cached as it was. -/
def Careful (parser : Parser T) (jwt_secrets : List Credential) (s : System) : Event T → Prop
  | .other consumer_id =>
    s.cachedConsumers (consumer_key consumer_id) = none → (load_consumer s.consumers consumer_id).isSome →
      ∀ jwt_secret, Usable parser jwt_secrets consumer_id jwt_secret → jwt_secret.consumer_id = consumer_id
  | .deliver id => id ∉ s.pending.erase id →
      ∀ key jwt_secret, Usable parser jwt_secrets key jwt_secret → jwt_secret.consumer_id = id → key ≠ id →
        ∀ consumer, s.cachedConsumers (consumer_key key) = some consumer → load_consumer s.consumers id = some consumer
  | _ => True

/-! ## Requests that are accepted -/

variable {parser : Parser T} {jwt_secrets : List Credential} {s s' : System} {key id : String} {jwt_secret : Credential}
  {consumer : Consumer}

theorem consumer_key_inj : Injective consumer_key := fun _ _ h => (String.append_right_inj _).mp h

theorem jwtauth_credential_key_inj : Injective jwtauth_credential_key := fun _ _ h =>
  (String.append_right_inj _).mp h

theorem load_consumer_id {consumers : List Consumer} (h : load_consumer consumers id = some consumer) : consumer.id = id := by
  simpa using find?_some h

/-- The credentials that are cached are those of the database. -/
def Inv (jwt_secrets : List Credential) (s : System) : Prop :=
  ∀ key jwt_secret, s.cachedCredentials (jwtauth_credential_key key) = some jwt_secret →
    load_credential jwt_secrets key = some jwt_secret

/-- The credential of a token is the one of the database. -/
theorem Inv.credential (h : Inv jwt_secrets s) (key : String) :
    (s.cachedCredentials (jwtauth_credential_key key)).or (load_credential jwt_secrets key) = load_credential jwt_secrets key := by
  cases hcached : s.cachedCredentials (jwtauth_credential_key key) with
  | none => rfl
  | some jwt_secret =>
    rw [h key jwt_secret hcached]
    rfl

/-- The consumer that a usable credential gets. -/
def attributed (s : System) (key : String) (jwt_secret : Credential) : Option Consumer :=
  (s.cachedConsumers (consumer_key key)).or (load_consumer s.consumers jwt_secret.consumer_id)

/-- What a request leaves of the credentials in the cache. -/
def keepCredential (jwt_secrets : List Credential) (s : System) (key : String) : System :=
  { s with
    cachedCredentials :=
      update s.cachedCredentials (jwtauth_credential_key key) (load_credential jwt_secrets key) }

theorem Inv.keepCredential (h : Inv jwt_secrets s) (key : String) : Inv jwt_secrets (keepCredential jwt_secrets s key) := by
  intro key' jwt_secret hcached
  simp only [JwtConsumers.keepCredential] at hcached
  by_cases hkey : jwtauth_credential_key key' = jwtauth_credential_key key
  · rw [hkey, update_self] at hcached
    rwa [jwtauth_credential_key_inj hkey]
  · rw [update_of_ne hkey] at hcached
    exact h key' jwt_secret hcached

/-- A token that verifies with the credential of its key. -/
theorem do_authentication_verified {conf : Conf} {jwt : T} (h : Inv jwt_secrets s)
    (hkey : parser.claims jwt conf.key_claim_name = some key) (hsecret : load_credential jwt_secrets key = some jwt_secret)
    (hverify : verify parser conf jwt jwt_secret = .ok ()) :
    ((do_authentication parser jwt_secrets conf s (.jwt jwt)).1.toOption =
        (attributed s key jwt_secret).map fun consumer => (consumer, jwt_secret)) ∧
      (do_authentication parser jwt_secrets conf s (.jwt jwt)).2 =
        { keepCredential jwt_secrets s key with
          cachedConsumers := update s.cachedConsumers (consumer_key key) (attributed s key jwt_secret) } := by
  have hget : (s.cachedConsumers (consumer_key key)).or (load_consumer s.consumers jwt_secret.consumer_id) =
      attributed s key jwt_secret := rfl
  simp only [do_authentication, hkey, get_or_set_eq, h.credential]
  simp only [hsecret, hverify, hget, keepCredential]
  cases attributed s key jwt_secret with
  | none => exact ⟨rfl, rfl⟩
  | some consumer => exact ⟨rfl, rfl⟩

/-- Any other token. -/
theorem do_authentication_refused {conf : Conf} {token : Token T} (h : Inv jwt_secrets s)
    (hnot : ∀ jwt key jwt_secret, token = .jwt jwt → parser.claims jwt conf.key_claim_name = some key →
      load_credential jwt_secrets key = some jwt_secret → verify parser conf jwt jwt_secret ≠ .ok ()) :
    (do_authentication parser jwt_secrets conf s token).1.toOption = none ∧
      ((do_authentication parser jwt_secrets conf s token).2 = s ∨
        ∃ key, (do_authentication parser jwt_secrets conf s token).2 = keepCredential jwt_secrets s key) := by
  cases token with
  | nil => exact ⟨rfl, .inl rfl⟩
  | table => exact ⟨rfl, .inl rfl⟩
  | unrecognizable => exact ⟨rfl, .inl rfl⟩
  | bad err => exact ⟨rfl, .inl rfl⟩
  | jwt jwt =>
    simp only [do_authentication]
    cases hkey : parser.claims jwt conf.key_claim_name with
    | none => exact ⟨rfl, .inl rfl⟩
    | some key =>
      simp only [get_or_set_eq, h.credential]
      cases hsecret : load_credential jwt_secrets key with
      | none => exact ⟨rfl, .inr ⟨key, by rw [keepCredential, hsecret]⟩⟩
      | some jwt_secret =>
        dsimp only
        cases hverify : verify parser conf jwt jwt_secret with
        | error refusal => exact ⟨rfl, .inr ⟨key, by rw [keepCredential, hsecret]⟩⟩
        | ok _ => exact absurd hverify (hnot jwt key jwt_secret rfl hkey hsecret)

/-- What is cached for a credential that can be used is attributed right. -/
def Coherent (parser : Parser T) (jwt_secrets : List Credential) (s : System) : Prop :=
  ∀ key jwt_secret, Usable parser jwt_secrets key jwt_secret → ∀ consumer,
    s.cachedConsumers (consumer_key key) = some consumer → Attributed s consumer jwt_secret

theorem Coherent.attributed (hc : Coherent parser jwt_secrets s) (husable : Usable parser jwt_secrets key jwt_secret)
    (h : attributed s key jwt_secret = some consumer) : Attributed s consumer jwt_secret := by
  rcases or_eq_some_iff.mp h with h | ⟨-, h⟩
  · exact hc key jwt_secret husable consumer h
  · exact ⟨load_consumer_id h, fun _ => h⟩

theorem right_iff (h : Inv jwt_secrets s) : Right parser jwt_secrets s ↔ Coherent parser jwt_secrets s := by
  constructor
  · rintro hright key jwt_secret ⟨hsecret, conf, jwt, hkey, hverify⟩ consumer hcached
    have hok := (do_authentication_verified h hkey hsecret hverify).1
    rw [attributed, hcached, some_or, map_some] at hok
    cases hresult : (do_authentication parser jwt_secrets conf s (.jwt jwt)).1 with
    | error refusal =>
      rw [hresult] at hok
      cases hok
    | ok result =>
      rw [hresult] at hok
      cases hok
      obtain ⟨jwt', key', jwt_secret', hjwt, hkey', hsecret', hattributed⟩ := hright conf _ consumer jwt_secret hresult
      cases hjwt
      cases hkey.symm.trans hkey'
      cases hsecret.symm.trans hsecret'
      exact hattributed
  · intro hc conf token consumer found hok
    by_cases hverified : ∃ jwt key jwt_secret, token = .jwt jwt ∧ parser.claims jwt conf.key_claim_name = some key ∧
        load_credential jwt_secrets key = some jwt_secret ∧ verify parser conf jwt jwt_secret = .ok ()
    · obtain ⟨jwt, key, jwt_secret, rfl, hkey, hsecret, hverify⟩ := hverified
      have hresult := (do_authentication_verified h hkey hsecret hverify).1
      rw [hok] at hresult
      obtain ⟨consumer, hconsumer, heq⟩ := map_eq_some_iff.mp hresult.symm
      cases heq
      exact ⟨jwt, key, _, rfl, hkey, hsecret, hc.attributed ⟨hsecret, conf, jwt, hkey, hverify⟩ hconsumer⟩
    · have hresult := (do_authentication_refused h
        fun jwt key jwt_secret h₁ h₂ h₃ h₄ => hverified ⟨jwt, key, jwt_secret, h₁, h₂, h₃, h₄⟩).1
      rw [hok] at hresult
      cases hresult

/-! ## Steps -/

theorem Coherent.keepCredential (hc : Coherent parser jwt_secrets s) (key : String) :
    Coherent parser jwt_secrets (JwtConsumers.keepCredential jwt_secrets s key) := hc

/-- The jwt plugin caches for a credential what is attributed to it. -/
theorem Coherent.keepConsumer (hc : Coherent parser jwt_secrets s) (hsecret : load_credential jwt_secrets key = some jwt_secret)
    (husable : Usable parser jwt_secrets key jwt_secret) :
    Coherent parser jwt_secrets { JwtConsumers.keepCredential jwt_secrets s key with
      cachedConsumers := update s.cachedConsumers (consumer_key key) (JwtConsumers.attributed s key jwt_secret) } := by
  intro key' jwt_secret' husable' consumer hcached
  dsimp only at hcached
  by_cases hkey : consumer_key key' = consumer_key key
  · cases consumer_key_inj hkey
    cases hsecret.symm.trans husable'.1
    rw [update_self] at hcached
    exact hc.attributed husable hcached
  · rw [update_of_ne hkey] at hcached
    exact hc key' jwt_secret' husable' consumer hcached

theorem Inv.jwt (h : Inv jwt_secrets s) (conf : Conf) (token : Token T) :
    Inv jwt_secrets (do_authentication parser jwt_secrets conf s token).2 ∧ (Coherent parser jwt_secrets s →
      Coherent parser jwt_secrets (do_authentication parser jwt_secrets conf s token).2) := by
  by_cases hverified : ∃ jwt key jwt_secret, token = .jwt jwt ∧ parser.claims jwt conf.key_claim_name = some key ∧
      load_credential jwt_secrets key = some jwt_secret ∧ verify parser conf jwt jwt_secret = .ok ()
  · obtain ⟨jwt, key, jwt_secret, rfl, hkey, hsecret, hverify⟩ := hverified
    rw [(do_authentication_verified h hkey hsecret hverify).2]
    exact ⟨h.keepCredential key, fun hc => hc.keepConsumer hsecret ⟨hsecret, conf, jwt, hkey, hverify⟩⟩
  · rcases (do_authentication_refused h
      fun jwt key jwt_secret h₁ h₂ h₃ h₄ => hverified ⟨jwt, key, jwt_secret, h₁, h₂, h₃, h₄⟩).2 with heq | ⟨key, heq⟩
    · rw [heq]
      exact ⟨h, id⟩
    · rw [heq]
      exact ⟨h.keepCredential key, fun hc => hc.keepCredential key⟩

theorem Coherent.other_iff (hc : Coherent parser jwt_secrets s) :
    Coherent parser jwt_secrets (get_consumer s id).2 ↔ Careful parser jwt_secrets s (.other id) := by
  simp only [get_consumer, get_or_set_eq]
  constructor
  · intro hafter hnone hloaded jwt_secret husable
    obtain ⟨consumer, hconsumer⟩ := isSome_iff_exists.mp hloaded
    have hattributed := hafter id jwt_secret husable consumer (by simp [hnone, hconsumer])
    exact hattributed.1.symm.trans (load_consumer_id hconsumer)
  · intro hcareful key jwt_secret husable consumer hcached
    dsimp only at hcached
    by_cases hkey : consumer_key key = consumer_key id
    · cases consumer_key_inj hkey
      rw [update_self] at hcached
      rcases or_eq_some_iff.mp hcached with hcached | ⟨hnone, hconsumer⟩
      · exact hc _ jwt_secret husable consumer hcached
      · have hid := hcareful hnone (by simp [hconsumer]) jwt_secret husable
        exact ⟨(load_consumer_id hconsumer).trans hid.symm, fun _ => hid ▸ hconsumer⟩
    · rw [update_of_ne hkey] at hcached
      exact hc key jwt_secret husable consumer hcached

/-- Another row than the one that is updated. -/
theorem load_consumer_update {consumers : List Consumer} {row : Consumer} (hne : id ≠ row.id) :
    load_consumer (consumers.map fun old => if old.id = row.id then row else old) id = load_consumer consumers id := by
  induction consumers with
  | nil => rfl
  | cons old consumers ih =>
    simp only [load_consumer, map_cons, find?_cons] at ih ⊢
    by_cases hold : old.id = row.id
    · rw [if_pos hold, decide_eq_false hne.symm, decide_eq_false (hold ▸ hne.symm)]
      exact ih
    · rw [if_neg hold, ih]

theorem Coherent.update (hc : Coherent parser jwt_secrets s) (row : Consumer) :
    Coherent parser jwt_secrets { s with
      consumers := s.consumers.map fun old => if old.id = row.id then row else old
      pending := row.id :: s.pending } := by
  intro key jwt_secret husable consumer hcached
  obtain ⟨hid, hcurrent⟩ := hc key jwt_secret husable consumer hcached
  refine ⟨hid, fun hpending => ?_⟩
  simp only [mem_cons, not_or] at hpending
  obtain ⟨hne, hpending⟩ := hpending
  exact (load_consumer_update hne).trans (hcurrent hpending)

theorem Coherent.deliver_iff (hc : Coherent parser jwt_secrets s) :
    Coherent parser jwt_secrets
        { s with cachedConsumers := delete s.cachedConsumers (consumer_key id), pending := s.pending.erase id } ↔
      Careful parser jwt_secrets s (.deliver id) := by
  constructor
  · rintro hafter hlast key jwt_secret husable rfl hkey consumer hcached
    refine (hafter key jwt_secret husable consumer ?_).2 hlast
    simp only [delete]
    rw [update_of_ne (consumer_key_inj.ne hkey)]
    exact hcached
  · intro hcareful key jwt_secret husable consumer hcached
    simp only [delete] at hcached
    by_cases hkey : key = id
    · rw [hkey, update_self] at hcached
      cases hcached
    · rw [update_of_ne (consumer_key_inj.ne hkey)] at hcached
      obtain ⟨hid, hcurrent⟩ := hc key jwt_secret husable consumer hcached
      refine ⟨hid, fun hlast => ?_⟩
      dsimp only at hlast ⊢
      by_cases hconsumer : jwt_secret.consumer_id = id
      · subst hconsumer
        exact hcareful hlast key jwt_secret husable rfl hkey consumer hcached
      · exact hcurrent fun hpending => hlast ((mem_erase_of_ne hconsumer).mpr hpending)

theorem Inv.step {e : Event T} (h : Inv jwt_secrets s) (hstep : step parser jwt_secrets s e = some s') :
    Inv jwt_secrets s' ∧ (Coherent parser jwt_secrets s →
      (Coherent parser jwt_secrets s' ↔ Careful parser jwt_secrets s e)) := by
  cases e with
  | jwt conf token =>
    cases hstep
    exact ⟨(h.jwt conf token).1, fun hc => iff_of_true ((h.jwt conf token).2 hc) trivial⟩
  | other consumer_id =>
    cases hstep
    exact ⟨h, fun hc => hc.other_iff⟩
  | update row =>
    simp only [JwtConsumers.step, ite_none_right_eq_some, some.injEq] at hstep
    obtain ⟨-, rfl⟩ := hstep
    exact ⟨h, fun hc => iff_of_true (hc.update row) trivial⟩
  | deliver id =>
    simp only [JwtConsumers.step, ite_none_right_eq_some, some.injEq] at hstep
    obtain ⟨-, rfl⟩ := hstep
    exact ⟨h, fun hc => hc.deliver_iff⟩
  | evict key =>
    cases hstep
    have hless : ∀ {V : Type} {memory : Memory String V} {key' : String} {value : V},
        delete memory key key' = some value → memory key' = some value := by
      intro V memory key' value hvalue
      by_cases hkey : key' = key
      · rw [hkey, delete, update_self] at hvalue
        cases hvalue
      · rwa [delete, update_of_ne hkey] at hvalue
    exact ⟨fun key' jwt_secret hcached => h key' jwt_secret (hless hcached),
      fun hc => iff_of_true (fun key' jwt_secret husable consumer hcached => hc key' jwt_secret husable consumer (hless hcached))
        trivial⟩

def start (consumers : List Consumer) : System where
  consumers := consumers
  cachedCredentials _ := none
  cachedConsumers _ := none
  pending := []

/-- **A request that the jwt plugin accepts is attributed to the consumer of its
credential, as the last update that has been heard of left it, in exactly the runs
in which no plugin caches a consumer under another one's key and no event leaves a
consumer cached as it was under a key.** -/
theorem jwt_right_iff_careful {consumers : List Consumer} {evs : List (Event T)} :
    Always (step parser jwt_secrets) (Right parser jwt_secrets) (start consumers) evs ↔
      Along (step parser jwt_secrets) (Careful parser jwt_secrets) (start consumers) evs := by
  have hinv : Inv jwt_secrets (start consumers) := by simp [Inv, start]
  have hc : Coherent parser jwt_secrets (start consumers) := by simp [Coherent, start]
  refine always_iff_along (I := fun s => Inv jwt_secrets s ∧ Coherent parser jwt_secrets s)
    (fun s h => (right_iff h.1).mpr h.2) ?_ ?_ ⟨hinv, hc⟩
  · rintro s e s' ⟨h, hc⟩ hstep hcareful
    obtain ⟨h', hiff⟩ := h.step hstep
    exact ⟨h', (hiff hc).mpr hcareful⟩
  · rintro s e s' ⟨h, hc⟩ hstep hright
    obtain ⟨h', hiff⟩ := h.step hstep
    exact (hiff hc).mp ((right_iff h').mp hright)

/-- Tokens that are the keys of their credentials, and verify. -/
def plain : Parser String where
  claims jwt _ := some jwt
  alg _ := some "HS256"
  b64_decode value := some value
  verify_signature _ _ := true
  verify_registered_claims _ _ := none

def alice : Consumer := { id := "1", username := some "alice", custom_id := none }

def mallory : Consumer := { id := "2", username := some "mallory", custom_id := none }

/-- The credential of one consumer has the id of another one as its key. -/
def mallorys : Credential :=
  { key := "1", consumer_id := "2", algorithm := none, secret := some "s", rsa_public_key := none }

/-- The other one comes first, by another plugin. -/
def otherFirst : List (Event String) := [.other "1"]

/-- The token of the credential is then taken for the other one's. -/
theorem not_right_otherFirst :
    ¬Always (step plain [mallorys]) (Right plain [mallorys]) (start [alice, mallory]) otherFirst := by
  intro h
  obtain ⟨s, hrun⟩ : ∃ s, run (step plain [mallorys]) (start [alice, mallory]) otherFirst = some s := ⟨_, rfl⟩
  have hok : (run (step plain [mallorys]) (start [alice, mallory]) otherFirst).map (fun s =>
      (do_authentication plain [mallorys] ⟨"iss", false, []⟩ s (.jwt "1")).1.toOption) = some (some (alice, mallorys)) := by
    decide +kernel
  rw [hrun, map_some, some.injEq] at hok
  cases hresult : (do_authentication plain [mallorys] ⟨"iss", false, []⟩ s (.jwt "1")).1 with
  | error refusal =>
    rw [hresult] at hok
    cases hok
  | ok result =>
    rw [hresult] at hok
    cases hok
    obtain ⟨_, key, jwt_secret, hjwt, hkey, hsecret, hid, -⟩ := h.reached hrun _ _ _ _ hresult
    cases hjwt
    cases hkey
    cases hsecret
    exact absurd hid (by decide)

end OpenResty.Kong.JwtConsumers
