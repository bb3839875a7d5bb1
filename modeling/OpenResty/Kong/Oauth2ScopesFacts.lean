/-
What is issued by `authorize` and `issue_token` has a good scope, as long as the requests come with
one text that has a word.
-/
import OpenResty.Kong.Oauth2Scopes

namespace OpenResty.Kong.Oauth2Scopes

open Lib.Transition List Option
open Oauth2Token (Client CodeRow TokenRow checkClient redirectAllowed)

variable {conf : Conf} {s s' : State} {r : Request} {random : Random} {e : Event} {scopes : List String}

/-! ## Words -/

theorem notSpace_of_mem_splitOnP {α : Type} {p : α → Bool} {xs w : List α} (h : w ∈ xs.splitOnP p) :
    ∀ x ∈ w, p x = false := by
  induction xs generalizing w with
  | nil =>
    rw [splitOnP_nil, mem_singleton] at h
    subst h
    exact fun x hx => (by cases hx)
  | cons c xs ih =>
    rw [splitOnP_cons_eq_if_modifyHead] at h
    split at h
    · rcases mem_cons.mp h with rfl | h
      · exact fun x hx => (by cases hx)
      · exact ih h
    · next hc =>
      obtain ⟨first, rest, hsplit⟩ := exists_cons_of_ne_nil (splitOnP_ne_nil p xs)
      rw [hsplit, modifyHead_cons] at h
      rcases mem_cons.mp h with rfl | h
      · intro x hx
        rcases mem_cons.mp hx with rfl | hx
        · simpa using hc
        · exact ih (hsplit ▸ .head _) x hx
      · exact ih (hsplit ▸ mem_cons_of_mem _ h)

/-- A text without white space, and not empty. -/
def IsWord (w : String) : Prop := w.toList ≠ [] ∧ ∀ c ∈ w.toList, Lua.isSpace c = false

theorem isWord_of_mem {w t : String} (h : w ∈ words t) : IsWord w := by
  obtain ⟨cs, hcs, rfl⟩ := mem_map.mp h
  obtain ⟨hmem, hne⟩ := mem_filter.mp hcs
  rw [IsWord, String.toList_ofList]
  exact ⟨by simpa using hne, notSpace_of_mem_splitOnP hmem⟩

/-- The words of words with blanks between them. -/
theorem words_intercalate (ws : List String) (h : ∀ w ∈ ws, IsWord w) : words (" ".intercalate ws) = ws := by
  rw [words, String.toList_intercalate]
  induction ws with
  | nil => rfl
  | cons w ws ih =>
    obtain ⟨hne, hword⟩ := h w (.head _)
    have hrest := ih fun v hv => h v (mem_cons_of_mem _ hv)
    cases ws with
    | nil =>
      have hone : " ".toList.intercalate [w.toList] = w.toList := by simp [List.intercalate]
      rw [map_cons, map_nil, hone, splitOnP_eq_singleton hword,
        filter_cons_of_pos (by simpa using hne)]
      simp
    | cons v ws =>
      have hblank : " ".toList = [' '] := rfl
      rw [map_cons, map_cons, intercalate_cons_cons, hblank, append_assoc, singleton_append,
        splitOnP_append_cons_of_forall_mem hword _ (by decide), filter_cons_of_pos (by simpa using hne),
        map_cons, String.ofList_toList]
      rw [map_cons, hblank] at hrest
      rw [hrest]

/-! ## What is retrieved -/

theorem ofText_some (hscopes : conf.scopes = some scopes) (t : String) :
    retrieve_scopes conf (some (.text t)) =
      match (words t).find? (· ∉ scopes) with
      | some v => .error "invalid_scope" ("\"" ++ v ++ "\" is an invalid scope")
      | none => .scopes (words t) := by
  rw [retrieve_scopes, retrieve_scopes.ofText]
  unfold Oauth2Token.retrieve_scopes
  rw [hscopes]
  dsimp only
  rw [← words]
  cases (words t).find? (· ∉ scopes) <;> rfl

theorem ofText_none (hscopes : conf.scopes = some scopes) :
    retrieve_scopes conf none =
      if conf.mandatory_scope then .error "invalid_scope" "You must specify a scope" else .scopes [] := by
  rw [retrieve_scopes, retrieve_scopes.ofText]
  unfold Oauth2Token.retrieve_scopes
  rw [hscopes]
  dsimp only
  by_cases h : conf.mandatory_scope = true
  · rw [if_pos h, if_pos h]
  · rw [if_neg h, if_neg h]

/-- The scopes that are retrieved are the words of the text, and ones of the configuration. -/
theorem of_retrieve {p : Option Param} {ws : List String} (hscopes : conf.scopes = some scopes)
    (h : retrieve_scopes conf p = .scopes ws) :
    (∀ w ∈ ws, IsWord w ∧ w ∈ scopes) ∧
      ((p = none ∧ ws = [] ∧ conf.mandatory_scope = false) ∨ ∃ t, p = some (.text t) ∧ ws = words t) := by
  match p with
  | none =>
    rw [ofText_none hscopes] at h
    split at h
    · cases h
    · next hmandatory =>
      cases h
      exact ⟨fun w hw => (by cases hw), .inl ⟨rfl, rfl, by simpa using hmandatory⟩⟩
  | some (.text t) =>
    rw [ofText_some hscopes] at h
    split at h
    · cases h
    · next hnone =>
      cases h
      refine ⟨fun w hw => ⟨isWord_of_mem hw, ?_⟩, .inr ⟨t, rfl, rfl⟩⟩
      simpa using find?_eq_none.mp hnone w hw
  | some .flag =>
    rw [retrieve_scopes, hscopes] at h
    cases h
  | some (.list values) =>
    rw [retrieve_scopes, hscopes] at h
    cases h

theorem retrieve_raises (hscopes : conf.scopes = some scopes) (p : Option Param) :
    (∃ message, retrieve_scopes conf p = .raises message) ↔ ∃ q, p = some q ∧ ∀ t, q ≠ .text t := by
  match p with
  | none =>
    rw [ofText_none hscopes]
    constructor
    · rintro ⟨message, h⟩
      split at h <;> cases h
    · rintro ⟨q, h, -⟩
      cases h
  | some (.text t) =>
    rw [ofText_some hscopes]
    constructor
    · rintro ⟨message, h⟩
      split at h <;> cases h
    · rintro ⟨q, h, hq⟩
      cases h
      exact absurd rfl (hq t)
  | some .flag =>
    rw [retrieve_scopes, hscopes]
    exact ⟨fun _ => ⟨_, rfl, fun t h => (by cases h)⟩, fun _ => ⟨_, rfl⟩⟩
  | some (.list values) =>
    rw [retrieve_scopes, hscopes]
    exact ⟨fun _ => ⟨_, rfl, fun t h => (by cases h)⟩, fun _ => ⟨_, rfl⟩⟩

/-- A scope of words that are configured is good, if there is one or none is asked for. -/
theorem goodScope_iff (hscopes : conf.scopes = some scopes) {ws : List String} (h : ∀ w ∈ ws, IsWord w ∧ w ∈ scopes) :
    GoodScope conf (some (" ".intercalate ws)) ↔ (conf.mandatory_scope = true → ws ≠ []) := by
  rw [GoodScope, getD_some, words_intercalate ws fun w hw => (h w hw).1, hscopes, getD_some]
  exact and_iff_right fun w hw => (h w hw).2

/-! ## What a step does -/

theorem good_generate (hs : Good conf s) (client : Client) (userid scope : Option String) (disable_refresh : Bool) :
    Good conf (generate_token conf s r client userid scope disable_refresh random).1 ↔
      (random.isSome = true → GoodScope conf scope) := by
  cases random with
  | none => exact ⟨fun _ h => (by cases h), fun _ => hs⟩
  | some random =>
    constructor
    · intro h _
      exact h.tokens _ (mem_append_right _ (mem_singleton.mpr rfl))
    · intro h
      refine ⟨hs.codes, fun row hrow => ?_, hs.total⟩
      rcases mem_append.mp hrow with hrow | hrow
      · exact hs.tokens row hrow
      · rw [mem_singleton.mp hrow]
        exact h rfl

theorem good_authorizeClient (hs : Good conf s) (params : Option Reply) (ws : List String) :
    Good conf (authorizeClient conf s r random params ws).1 ↔
      (params = none → r.base.client.any (redirectAllowed r.base) = true → random.isSome = true →
        GoodScope conf (some (" ".intercalate ws))) := by
  rw [authorizeClient]
  cases hclient : r.base.client with
  | none => exact ⟨fun _ _ h => (by cases h), fun _ => hs⟩
  | some client =>
    rw [any_some]
    by_cases hredirect : redirectAllowed r.base client = true
    · dsimp only
      rw [if_pos hredirect]
      cases params with
      | some params => exact ⟨fun _ h => (by cases h), fun _ => hs⟩
      | none =>
        dsimp only
        split
        · cases random with
          | none => exact ⟨fun _ _ _ h => (by cases h), fun _ => hs⟩
          | some random =>
            constructor
            · intro h _ _ _
              exact h.codes _ (mem_append_right _ (mem_singleton.mpr rfl))
            · intro h
              refine ⟨fun row hrow => ?_, hs.tokens, hs.total⟩
              rcases mem_append.mp hrow with hrow | hrow
              · exact hs.codes row hrow
              · rw [mem_singleton.mp hrow]
                exact h rfl hredirect rfl
        · rw [good_generate hs]
          exact ⟨fun h _ _ => h, fun h => h rfl hredirect⟩
    · dsimp only
      rw [if_neg hredirect]
      exact ⟨fun _ _ h => absurd h hredirect, fun _ => hs⟩

theorem not_good_raised {s : State} (h : s.raised = true) : ¬ Good conf s := by
  intro hgood
  rw [hgood.total] at h
  cases h

/-- What the scope of a request that comes to it must be. -/
def ScopeOk (conf : Conf) (allowed : Prop) : Option Param → Prop
  | none => True
  | some (.text t) => conf.mandatory_scope = true → allowed → words t ≠ []
  | some _ => False

/-- A use of the scopes that issues with them, where it is allowed to, is good just where the scope is. -/
theorem good_retrieve {allowed : Prop} {p : Option Param} {next : State} (hscopes : conf.scopes = some scopes)
    (hraises : ∀ message, retrieve_scopes conf p = .raises message → next.raised = true)
    (herror : ∀ e d, retrieve_scopes conf p = .error e d → Good conf next)
    (hgood : ∀ ws, retrieve_scopes conf p = .scopes ws →
      (Good conf next ↔ (allowed → GoodScope conf (some (" ".intercalate ws))))) :
    Good conf next ↔ ScopeOk conf allowed p := by
  have htext : ∀ ws, retrieve_scopes conf p = .scopes ws →
      (Good conf next ↔ (conf.mandatory_scope = true → allowed → ws ≠ [])) := by
    intro ws h
    rw [hgood ws h, goodScope_iff hscopes (of_retrieve hscopes h).1]
    exact ⟨fun h hmandatory hallowed => h hallowed hmandatory, fun h hallowed hmandatory => h hmandatory hallowed⟩
  match p with
  | none =>
    cases hret : retrieve_scopes conf none with
    | scopes ws =>
      obtain ⟨-, ⟨-, -, hmandatory⟩ | ⟨t, ht, -⟩⟩ := of_retrieve hscopes hret
      · rw [htext ws hret, hmandatory]
        exact ⟨fun _ => trivial, fun _ h => (by cases h)⟩
      · cases ht
    | error e d => exact ⟨fun _ => trivial, fun _ => herror e d hret⟩
    | raises message =>
      obtain ⟨q, hq, -⟩ := (retrieve_raises hscopes none).mp ⟨message, hret⟩
      cases hq
  | some (.text t) =>
    cases hret : retrieve_scopes conf (some (.text t)) with
    | scopes ws =>
      obtain ⟨-, ⟨h, -, -⟩ | ⟨t', ht, rfl⟩⟩ := of_retrieve hscopes hret
      · cases h
      · cases ht
        exact htext _ hret
    | error e d =>
      -- a word that is not configured is one
      refine ⟨fun _ _ _ hnil => ?_, fun _ => herror e d hret⟩
      rw [ofText_some hscopes, hnil] at hret
      cases hret
    | raises message =>
      obtain ⟨q, hq, hnot⟩ := (retrieve_raises hscopes _).mp ⟨message, hret⟩
      cases hq
      exact absurd rfl (hnot t)
  | some .flag =>
    obtain ⟨message, hret⟩ := (retrieve_raises hscopes (some .flag)).mpr ⟨_, rfl, fun t h => (by cases h)⟩
    exact ⟨fun h => absurd h (not_good_raised (hraises message hret)), fun h => h.elim⟩
  | some (.list values) =>
    obtain ⟨message, hret⟩ := (retrieve_raises hscopes (some (.list values))).mpr ⟨_, rfl, fun t h => (by cases h)⟩
    exact ⟨fun h => absurd h (not_good_raised (hraises message hret)), fun h => h.elim⟩

theorem careful_of_asks_none (h : e.asks conf = none) : Careful conf s e := by
  intro r hr
  rw [h] at hr
  cases hr

theorem careful_iff (h : e.asks conf = some r) : Careful conf s e ↔ ScopeOk conf (e.allowed conf = true) r.scope := by
  constructor
  · intro hcareful
    have := hcareful r h
    match hscope : r.scope with
    | none => trivial
    | some (.text t) => rwa [hscope] at this
    | some .flag => rwa [hscope] at this
    | some (.list values) => rwa [hscope] at this
  · intro hok r' hr'
    obtain rfl : r = r' := some.inj (h.symm.trans hr')
    match hscope : r.scope with
    | none => trivial
    | some (.text t) => rwa [hscope] at hok
    | some .flag => rwa [hscope] at hok
    | some (.list values) => rwa [hscope] at hok

theorem good_authorize (hscopes : conf.scopes = some scopes) (hs : Good conf s) :
    Good conf (authorize conf s r random).1 ↔ Careful conf s (.authorize r random) := by
  rw [authorize]
  by_cases hhttps : r.base.is_https = true
  · by_cases hkey : conf.provision_key = r.base.provision_key
    · by_cases huser : missingUserid r = true
      · rw [if_neg (by simp [hhttps]), if_neg (by simpa using hkey), if_pos huser]
        exact ⟨fun _ => careful_of_asks_none (if_neg (by simp [huser])), fun _ => hs⟩
      · rw [if_neg (by simp [hhttps]), if_neg (by simpa using hkey), if_neg huser]
        have hasks : (Event.authorize r random).asks conf = some r := if_pos ⟨hhttps, hkey, by simpa using huser⟩
        rw [careful_iff hasks]
        refine good_retrieve hscopes (fun message hret => ?_) (fun e d hret => ?_) (fun ws hret => ?_)
        · rw [hret]
        · rw [hret]
          exact (good_authorizeClient hs _ []).mpr fun h => (by cases h)
        · rw [hret]
          refine (good_authorizeClient hs _ ws).trans ?_
          rw [Event.allowed]
          by_cases htype : responseTypeAllowed conf r = true
          · simp [htype]
          · simp [htype]
    · rw [if_neg (by simp [hhttps]), if_pos (by simpa using hkey)]
      exact ⟨fun _ => careful_of_asks_none (if_neg (by simp [hkey])), fun _ => hs⟩
  · rw [if_pos (by simp [hhttps])]
    exact ⟨fun _ => careful_of_asks_none (if_neg (by simp [hhttps])), fun _ => hs⟩

theorem good_issueWithScopes (hscopes : conf.scopes = some scopes) (hs : Good conf s) (client : Client)
    (disable_refresh : Bool) :
    Good conf (issueWithScopes conf s r client disable_refresh random).1 ↔
      ScopeOk conf (random.isSome = true) r.scope := by
  rw [issueWithScopes]
  refine good_retrieve hscopes (fun message hret => ?_) (fun e d hret => ?_) (fun ws hret => ?_)
  · rw [hret]
  · rw [hret]
    exact hs
  · rw [hret]
    exact good_generate hs client _ _ _

/-- What passes on the scope of a row is good with it, and so is the removal of the row. -/
theorem good_passOn (hs : Good conf s) (r : Request) (random : Random) (client : Client) (userid : Option String)
    {scope : Option String} (h : GoodScope conf scope) :
    Good conf (generate_token conf s r client userid scope false random).1 :=
  (good_generate hs client userid scope false).mpr fun _ => h

theorem Good.removeCode (hs : Good conf s) (id : Nat) : Good conf { s with codes := s.codes.filter (·.id ≠ id) } :=
  ⟨fun row hrow => hs.codes row (mem_of_mem_filter hrow), hs.tokens, hs.total⟩

theorem Good.removeToken (hs : Good conf s) (id : Nat) : Good conf { s with tokens := s.tokens.filter (·.id ≠ id) } :=
  ⟨hs.codes, fun row hrow => hs.tokens row (mem_of_mem_filter hrow), hs.total⟩

theorem asks_issue_none (h : ¬ (r.base.grant_type = some "client_credentials" ∧
      (r.base.authenticated_userid = none ∨ conf.provision_key = r.base.provision_key) ∨
    r.base.grant_type = some "password" ∧ conf.provision_key = r.base.provision_key ∧ missingUserid r = false)) :
    (Event.issue r random).asks conf = none := if_neg fun hasks => h hasks.2.2

theorem good_issue (hscopes : conf.scopes = some scopes) (hs : Good conf s) :
    Good conf (issue_token conf s r random).1 ↔ Careful conf s (.issue r random) := by
  have hnone : ∀ {s' : State}, Good conf s' → (Event.issue r random).asks conf = none →
      (Good conf s' ↔ Careful conf s (.issue r random)) :=
    fun hgood hasks => ⟨fun _ => careful_of_asks_none hasks, fun _ => hgood⟩
  rw [issue_token]
  by_cases hhttps : r.base.is_https = true
  · rw [if_neg (by simp [hhttps])]
    cases hcheck : checkClient conf.toConf r.base with
    | some response => exact hnone hs (if_neg fun h => (by rw [hcheck] at h; cases h.2.1))
    | none =>
      cases hclient : r.base.client with
      | none =>
        rw [checkClient, hclient] at hcheck
        cases hcheck
      | some client =>
        dsimp only
        split
        · next hgrant =>
          have hasks : (Event.issue r random).asks conf = none := asks_issue_none (by simp [hgrant])
          split
          · exact hnone hs hasks
          · next row hrow =>
            split
            · exact hnone hs hasks
            · have hmem : row ∈ s.codes := by
                obtain ⟨code, -, hfind⟩ := bind_eq_some_iff.mp hrow
                exact mem_of_find?_eq_some hfind
              have hgood := good_passOn hs r random client row.authenticated_userid (hs.codes row hmem)
              split
              · exact hnone (hgood.removeCode row.id) hasks
              · exact hnone hgood hasks
        · split
          · next hgrant =>
            split
            · next huser =>
              refine hnone hs (asks_issue_none ?_)
              rintro (⟨-, h | h⟩ | ⟨h, -⟩)
              · simp [h] at huser
              · exact huser.2 h
              · exact absurd (hgrant.symm.trans h) (by decide)
            · next huser =>
              have hprovision : r.base.authenticated_userid = none ∨ conf.provision_key = r.base.provision_key := by
                by_cases hkey : conf.provision_key = r.base.provision_key
                · exact .inr hkey
                · exact .inl (by simpa [hkey] using huser)
              have hasks : (Event.issue r random).asks conf = some r :=
                if_pos ⟨hhttps, hcheck, .inl ⟨hgrant, hprovision⟩⟩
              rw [careful_iff hasks]
              exact good_issueWithScopes hscopes hs client true
          · split
            · next hother hgrant =>
              split
              · next hkey =>
                refine hnone hs (asks_issue_none ?_)
                rintro (⟨h, -⟩ | ⟨-, h, -⟩)
                · exact hother h
                · exact hkey h
              · next hkey =>
                split
                · next huser =>
                  refine hnone hs (asks_issue_none ?_)
                  rintro (⟨h, -⟩ | ⟨-, -, h⟩)
                  · exact hother h
                  · rw [huser] at h
                    cases h
                · next huser =>
                  have hasks : (Event.issue r random).asks conf = some r :=
                    if_pos ⟨hhttps, hcheck, .inr ⟨hgrant, by simpa using hkey, by simpa using huser⟩⟩
                  rw [careful_iff hasks]
                  exact good_issueWithScopes hscopes hs client false
            · next hother hgrant =>
              have hasks : (Event.issue r random).asks conf = none := asks_issue_none (by simp [hother, hgrant])
              split
              · exact hnone hs hasks
              · next row hrow =>
                split
                · exact hnone hs hasks
                · have hmem : row ∈ s.tokens := by
                    obtain ⟨refresh_token, -, hfind⟩ := bind_eq_some_iff.mp hrow
                    exact mem_of_find?_eq_some hfind
                  have hgood := good_passOn hs r random client row.authenticated_userid (hs.tokens row hmem)
                  split
                  · exact hnone (hgood.removeToken row.id) hasks
                  · exact hnone hgood hasks
  · rw [if_pos (by simp [hhttps])]
    exact hnone hs (if_neg fun h => hhttps h.1)

theorem step_good_iff (hscopes : conf.scopes = some scopes) (hs : Good conf s) (hstep : step conf s e = some s') :
    Good conf s' ↔ Careful conf s e := by
  cases e with
  | authorize r random =>
    cases hstep
    exact good_authorize hscopes hs
  | issue r random =>
    cases hstep
    exact good_issue hscopes hs
  | removeCode id =>
    cases hstep
    exact ⟨fun _ => careful_of_asks_none rfl, fun _ => hs.removeCode id⟩
  | removeToken id =>
    cases hstep
    exact ⟨fun _ => careful_of_asks_none rfl, fun _ => hs.removeToken id⟩

/-- **Codes and tokens have good scopes in every state of a run, and nothing is raised, if and only if every request
that comes to its scope has none, or a text that has a word where one is asked for.** -/
theorem always_good_iff (hscopes : conf.scopes = some scopes) (hs : Good conf s) (es : List Event) :
    Always (step conf) (Good conf) s es ↔ Along (step conf) (Careful conf) s es :=
  always_iff_along (fun _ h => h) (fun _ _ _ hs hstep hok => (step_good_iff hscopes hs hstep).mpr hok)
    (fun _ _ _ hs hstep hgood => (step_good_iff hscopes hs hstep).mp hgood) hs

/-- One scope, which is mandatory. -/
def emailConf : Conf where
  enable_client_credentials := true
  enable_password_grant := false
  global_credentials := false
  mandatory_scope := true
  provision_key := some "key"
  scopes := some ["email"]
  token_expiration := 7200
  enable_authorization_code := false
  enable_implicit_grant := false

def emailClient : Client where
  id := 1
  client_secret := some "secret"
  redirect_uri := ["http://google.com/kong"]

/-- A request of the client for itself. -/
def request (scope : Option Param) : Request where
  base :=
    { is_https := true
      grant_type := some "client_credentials"
      client_secret := some "secret"
      from_authorization_header := false
      redirect_uri := none
      code := none
      refresh_token := none
      scope := none
      provision_key := none
      authenticated_userid := none
      state := none
      api_id := 1
      client := some emailClient }
  response_type := none
  scope := scope

def start : State where
  codes := []
  tokens := []
  next := 1
  raised := false

theorem good_start : Good emailConf start :=
  ⟨fun _ h => (by cases h), fun _ h => (by cases h), rfl⟩

theorem always_good_email : Always (step emailConf) (Good emailConf) start
    [.issue (request (some (.text "email"))) (some ("access", "refresh"))] := by
  refine (always_good_iff rfl good_start _).mpr fun s' hstep => ⟨?_, trivial⟩
  intro r hr
  have hasks : (Event.issue (request (some (.text "email"))) (some ("access", "refresh"))).asks emailConf =
      some (request (some (.text "email"))) := by
    rw [Event.asks]
    exact if_pos (by decide)
  obtain rfl := some.inj (hasks.symm.trans hr)
  exact fun _ _ => (by decide)

/-- Blanks are a scope without a word, and a name without a value raises. -/
theorem not_always_good : (∃ s', run (step emailConf) start
      [.issue (request (some (.text " "))) (some ("access", "refresh"))] = some s' ∧ ¬ Good emailConf s') ∧
    ∃ s', run (step emailConf) start [.issue (request (some .flag)) none] = some s' ∧ s'.raised = true := by
  refine ⟨⟨_, rfl, fun h => ?_⟩, ⟨_, rfl, by decide⟩⟩
  have hword := (h.tokens _ (.head _)).2 rfl
  exact hword (by decide)

end OpenResty.Kong.Oauth2Scopes
