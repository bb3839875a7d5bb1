/-
A search against the rules of the APIs, as their definitions give them.
-/
import OpenResty.Kong.RouterIndexes

namespace OpenResty.Kong.Router

open List

variable {lua : Lua} {strips : Strips} {a : ApiT} {api : Api} {apis : List Api} {r : Request}

/-! ## What an API asks of a request -/

/-- The request satisfies all rules that the API has. -/
structure Satisfied (api : Api) (r : Request) : Prop where
  host : api.hosts ≠ [] → ∃ host, r.host = some host ∧ ∃ pattern ∈ api.hosts, Covers pattern host
  uri : api.uris ≠ [] → ∃ u ∈ api.uris, u <+: r.uri
  method : api.methods ≠ [] → r.method ∈ api.methods.map upper

/-- The API lists what the host is resolved to. -/
def Listed (apis : List Api) (api : Api) (r : Request) : Prop :=
  api.hosts ≠ [] → ∃ host, r.host = some host ∧ resolved apis host ∈ api.hosts

/-- The request as it is looked up in the categories -/
def Fits (lua : Lua) (apis : List Api) (a : ApiT) (r : Request) : Prop :=
  Matches a r.method ((new lua apis).indexes.resolveUri r.uri) ((new lua apis).indexes.resolveHost r.host)

theorem isSome_matchUri (ha : a ∈ apis.mapIdx marshall_api) (uri : Text) :
    (matchUri a uri).isSome ↔ ∃ u ∈ a.api.uris, u <+: uri := by
  have hfind : ∀ p, findPrefix uri p = true ↔ p <+: uri := fun p => isPrefixOf_iff_prefix
  rw [(marshalled_eq ha).2]
  simp only [matchUri, marshall_api, mem_dedup]
  split
  · next hmem => exact ⟨fun _ => ⟨uri, hmem, prefix_refl uri⟩, fun _ => rfl⟩
  · simp only [find?_isSome, hfind]

theorem isEmpty_eq_false {α : Type} {l : List α} : (!l.isEmpty) = true ↔ l ≠ [] := by
  cases l with
  | nil => simp
  | cons x l => simp

theorem holds_host (ha : a ∈ apis.mapIdx marshall_api) (method uri : Text) (host : Option Text) :
    holds a method uri ((new lua apis).indexes.resolveHost host) .host ↔
      ∃ h, host = some h ∧ resolved apis h ∈ a.api.hosts := by
  simp only [holds, resolveHost_new, marshalled_hosts ha, Option.map_eq_some_iff]
  constructor
  · rintro ⟨_, ⟨h, hr, rfl⟩, hlisted⟩
    exact ⟨h, hr, hlisted⟩
  · rintro ⟨h, hr, hlisted⟩
    exact ⟨_, ⟨h, hr, rfl⟩, hlisted⟩

theorem holds_uri (ha : a ∈ apis.mapIdx marshall_api) (method uri : Text) (host : Option Text) :
    holds a method ((new lua apis).indexes.resolveUri uri) host .uri ↔ ∃ u ∈ a.api.uris, u <+: uri := by
  rw [holds, isSome_matchUri ha]
  exact exists_congr fun u => and_congr_right fun hu => prefix_resolveUri_iff lua (marshalled_eq ha).1 hu

theorem fits_iff (ha : a ∈ apis.mapIdx marshall_api) :
    Fits lua apis a r ↔ Satisfied a.api r ∧ Listed apis a.api r := by
  unfold Fits Matches
  rw [marshalled_rules ha]
  constructor
  · intro h
    have hlisted : Listed apis a.api r := fun hhosts => (holds_host ha ..).mp (h .host (isEmpty_eq_false.mpr hhosts))
    refine ⟨⟨fun hhosts => ?_, fun huris => (holds_uri ha ..).mp (h .uri (isEmpty_eq_false.mpr huris)),
      fun hmethods => (marshalled_methods ha _).mp (h .method (isEmpty_eq_false.mpr hmethods))⟩, hlisted⟩
    obtain ⟨host, hr, hresolved⟩ := hlisted hhosts
    exact ⟨host, hr, resolved apis host, hresolved, covers_resolved apis host⟩
  · rintro ⟨hsatisfied, hlisted⟩ rule hrule
    cases rule with
    | host => exact (holds_host ha ..).mpr (hlisted (isEmpty_eq_false.mp hrule))
    | uri => exact (holds_uri ha ..).mpr (hsatisfied.uri (isEmpty_eq_false.mp hrule))
    | method => exact (marshalled_methods ha _).mpr (hsatisfied.method (isEmpty_eq_false.mp hrule))

/-! ## The category of a request -/

/-- The rules of an API that fits are among those of the request. -/
theorem category_has (h : Satisfied api r ∧ Listed apis api r) (hapi : api ∈ apis) (rule : Rule)
    (hrule : api.rules.has rule = true) :
    ((new lua apis).indexes.category r.method r.uri r.host).has rule = true := by
  cases rule with
  | host =>
    obtain ⟨host, hr, hlisted⟩ := h.2 (isEmpty_eq_false.mp hrule)
    simp only [Rules.has, Indexes.category, hr, Option.any_some, Bool.or_eq_true, hosts_new, wildcard_hosts_new]
    unfold resolved at hlisted
    split at hlisted
    · next hknown => exact .inl hknown
    · cases hfind : (apis.flatMap (·.hosts)).find? fun p => '*' ∈ p ∧ findWildcard p host = true with
      | none =>
        rw [hfind] at hlisted
        exact .inl ⟨api, hapi, hlisted⟩
      | some p =>
        have hp : '*' ∈ p ∧ findWildcard p host = true := by simpa using find?_some hfind
        refine .inr (any_eq_true.mpr ⟨p, mem_filter.mpr ⟨mem_of_find?_eq_some hfind, ?_⟩, hp.2⟩)
        simpa using hp.1
  | uri =>
    obtain ⟨u, hu, hpre⟩ := h.1.uri (isEmpty_eq_false.mp hrule)
    simp only [Rules.has, Indexes.category, Bool.or_eq_true]
    exact .inr (any_eq_true.mpr ⟨u, (uris_prefixes_new lua apis u).mpr ⟨api, hapi, hu⟩,
      isPrefixOf_iff_prefix.mpr hpre⟩)
  | method =>
    exact (methods_new lua apis r.method).mpr ⟨api, hapi, h.1.method (isEmpty_eq_false.mp hrule)⟩

instance (c m : Rules) : Decidable (∀ rule, m.has rule = true → c.has rule = true) :=
  decidable_of_iff (∀ rule ∈ [Rule.host, .uri, .method], m.has rule = true → c.has rule = true)
    ⟨fun h rule => h rule (by cases rule <;> simp), fun h rule _ => h rule⟩

/-- Sets of rules come after those that have them all. -/
theorem mem_dropWhile_of_has {c m : Rules} (hc : ∀ rule, m.has rule = true → c.has rule = true)
    (hm : m ≠ ⟨false, false, false⟩) :
    c ≠ ⟨false, false, false⟩ ∧ m ∈ CATEGORIES.dropWhile (· ≠ c) := by
  obtain ⟨ch, cu, cm⟩ := c
  obtain ⟨mh, mu, mm⟩ := m
  revert hc hm
  cases ch <;> cases cu <;> cases cm <;> cases mh <;> cases mu <;> cases mm <;> decide

theorem rules_ne (api : Api) : api.rules ≠ ⟨false, false, false⟩ := by
  intro h
  have hhosts : api.hosts = [] := by simpa [Api.rules] using congrArg Rules.host h
  have huris : api.uris = [] := by simpa [Api.rules] using congrArg Rules.uri h
  have hmethods : api.methods = [] := by simpa [Api.rules] using congrArg Rules.method h
  rcases api.some_rule with h | h | h
  · exact h hhosts
  · exact h huris
  · exact h hmethods

/-- The category of an API that fits is searched. -/
theorem rules_searched (lua : Lua) (h : Satisfied api r ∧ Listed apis api r) (hapi : api ∈ apis) :
    (new lua apis).indexes.category r.method r.uri r.host ≠ ⟨false, false, false⟩ ∧
      api.rules ∈ CATEGORIES.dropWhile (· ≠ (new lua apis).indexes.category r.method r.uri r.host) :=
  mem_dropWhile_of_has (category_has h hapi) (rules_ne api)

/-! ## The best API -/

/-- The API has a longer URI than the other that is a prefix of the request's. -/
def PrefixesLonger (b a : Api) (r : Request) : Prop :=
  ∃ u ∈ b.uris, u <+: r.uri ∧ ∀ v ∈ a.uris, v <+: r.uri → v.length < u.length

/-- The API has a longer URI than all of the other. -/
def DeclaresLonger (b a : Api) : Prop := ∃ u ∈ b.uris, ∀ v ∈ a.uris, v.length < u.length

/-- No other API goes before one that is found, and none is left out. -/
def Best (apis : List Api) (r : Request) : Option Api → Prop
  | none => ∀ api ∈ apis, Satisfied api r → ¬ Listed apis api r
  | some api => api ∈ apis ∧ Satisfied api r ∧ Listed apis api r ∧ ∀ other ∈ apis, Satisfied other r →
      Listed apis other r →
      CATEGORIES.idxOf api.rules ≤ CATEGORIES.idxOf other.rules ∧
      (other.rules = api.rules → PrefixesLonger other api r → ¬ DeclaresLonger other api)

theorem le_maxUri {u : Text} (hu : u ∈ a.uris_prefixes_regexes) : u.length + 4 ≤ maxUri a := by
  have hfold : ∀ (l : List Text) (n : Nat), n ≤ l.foldl (fun m u => if m < u.length + 4 then u.length + 4 else m) n ∧
      ∀ u ∈ l, u.length + 4 ≤ l.foldl (fun m u => if m < u.length + 4 then u.length + 4 else m) n := by
    intro l
    induction l with
    | nil => exact fun n => ⟨Nat.le_refl n, fun _ h => by cases h⟩
    | cons v l ih =>
      intro n
      rw [foldl_cons]
      have hstep : n ≤ (if n < v.length + 4 then v.length + 4 else n) ∧
        v.length + 4 ≤ (if n < v.length + 4 then v.length + 4 else n) := by
        split <;> omega
      obtain ⟨hn, hl⟩ := ih (if n < v.length + 4 then v.length + 4 else n)
      refine ⟨Nat.le_trans hstep.1 hn, fun u hu => ?_⟩
      rcases mem_cons.mp hu with rfl | hu
      · exact Nat.le_trans hstep.2 hn
      · exact hl u hu
  exact (hfold a.uris_prefixes_regexes 0).2 u hu

theorem maxUri_lt {n : Nat} (hn : 0 < n) (h : ∀ u ∈ a.uris_prefixes_regexes, u.length + 4 < n) : maxUri a < n := by
  have hfold : ∀ (l : List Text) (k : Nat), k < n → (∀ u ∈ l, u.length + 4 < n) →
      l.foldl (fun m u => if m < u.length + 4 then u.length + 4 else m) k < n := by
    intro l
    induction l with
    | nil => exact fun k hk _ => hk
    | cons v l ih =>
      intro k hk hl
      rw [foldl_cons]
      refine ih _ ?_ fun u hu => hl u (mem_cons_of_mem v hu)
      split
      · exact hl v mem_cons_self
      · exact hk
  exact hfold a.uris_prefixes_regexes 0 hn h

theorem not_declaresLonger {b : ApiT} (ha : a ∈ apis.mapIdx marshall_api) (hb : b ∈ apis.mapIdx marshall_api)
    (h : maxUri b ≤ maxUri a) : ¬ DeclaresLonger b.api a.api := by
  rintro ⟨u, hu, hlonger⟩
  have hle : u.length + 4 ≤ maxUri b := le_maxUri (by rw [(marshalled_eq hb).2]; exact hu)
  have hlt : maxUri a < u.length + 4 := by
    refine maxUri_lt (by omega) fun v hv => ?_
    rw [(marshalled_eq ha).2] at hv
    exact Nat.add_lt_add_right (hlonger v hv) 4
  omega

/-- Behind a set of rules there is none that comes before it. -/
theorem idxOf_le {as bs : List Rules} {c m m' : Rules} (hsplit : CATEGORIES.dropWhile (· ≠ c) = as ++ m :: bs)
    (hm' : m' ∈ CATEGORIES.dropWhile (· ≠ c)) (has : m' ∉ as) : CATEGORIES.idxOf m ≤ CATEGORIES.idxOf m' := by
  obtain ⟨pre, hpre⟩ := dropWhile_suffix (l := CATEGORIES) (· ≠ c)
  have hnodup : CATEGORIES.Nodup := by decide
  have hall : CATEGORIES = (pre ++ as) ++ m :: bs := by rw [append_assoc, ← hsplit, hpre]
  have hm : m' ∈ m :: bs := by
    rw [hsplit] at hm'
    exact (mem_append.mp hm').resolve_left has
  rw [hall] at hnodup
  have hnot (k : Rules) (hk : k ∈ m :: bs) : k ∉ pre ++ as := fun hmem =>
    (nodup_append.mp hnodup).2.2 k hmem k hk rfl
  rw [hall, idxOf_append_of_notMem (hnot m mem_cons_self), idxOf_append_of_notMem (hnot m' hm),
    idxOf_cons_self]
  omega

/-- **A search finds the best of the APIs that have all their rules satisfied and
list the host that the request is resolved to.** -/
theorem best_search (lua : Lua) (apis : List Api) (r : Request) (strips : Strips) :
    Best apis r ((search lua (new lua apis) strips r.method r.uri r.host).1.map (·.api)) := by
  have hfiled := filed_new lua apis
  cases hfound : (search lua (new lua apis) strips r.method r.uri r.host).1 with
  | none =>
    intro api hapi hsatisfied hlisted
    obtain ⟨hnonzero, hmem⟩ := rules_searched lua ⟨hsatisfied, hlisted⟩ hapi
    obtain ⟨a, ha, rfl⟩ := exists_marshalled hapi
    rw [search, if_neg hnonzero] at hfound
    refine searchFrom_none hfiled _ hfound a ha ?_ ((fits_iff ha).mpr ⟨hsatisfied, hlisted⟩)
    rw [marshalled_rules ha]
    exact hmem
  | some a =>
    have hsearch : ∃ cs, cs = CATEGORIES.dropWhile (· ≠ (new lua apis).indexes.category r.method r.uri r.host) ∧
        (searchFrom lua (new lua apis) r.method ((new lua apis).indexes.resolveUri r.uri)
          ((new lua apis).indexes.resolveHost r.host) strips cs).1 = some a := by
      simp only [search] at hfound
      split at hfound
      · cases hfound
      · exact ⟨_, rfl, hfound⟩
    obtain ⟨cs, hcs, hfound⟩ := hsearch
    obtain ⟨ha, hfits, ⟨as, bs, hsplit, has⟩, hbest⟩ := searchFrom_some hfiled cs hfound
    obtain ⟨hsatisfied, hlisted⟩ := (fits_iff ha).mp hfits
    refine ⟨(marshalled_eq ha).1, hsatisfied, hlisted, fun other hother hsatisfied' hlisted' => ?_⟩
    obtain ⟨b, hb, rfl⟩ := exists_marshalled hother
    have hfits' : Fits lua apis b r := (fits_iff hb).mpr ⟨hsatisfied', hlisted'⟩
    have hsearched := (rules_searched lua ⟨hsatisfied', hlisted'⟩ hother).2
    rw [← marshalled_rules ha, ← marshalled_rules hb]
    rw [← marshalled_rules hb] at hsearched
    refine ⟨?_, fun hrules hprefixes hdeclares => ?_⟩
    · rw [hcs] at hsplit
      exact idxOf_le hsplit hsearched fun hmem => has b hb hmem hfits'
    · rcases hbest with hlists | hbest
      · obtain ⟨u, hu, hupre, hlonger⟩ := hprefixes
        rw [(marshalled_eq ha).2] at hlists
        have hlt := hlonger _ (mem_dedup.mp hlists) (resolveUri_isPrefix _ r.uri)
        have hle := (prefix_resolveUri lua hother hu hupre).length_le
        omega
      · exact not_declaresLonger ha hb (hbest b hb hrules hfits') hdeclares

end OpenResty.Kong.Router
