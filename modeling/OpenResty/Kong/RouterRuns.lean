/-
A router over the requests that it handles: what its cache and the URIs left to
be stripped have to do with what a new router would do.
-/
import Mathlib.Data.List.Find
import Mathlib.Data.List.Sort
import OpenResty.Kong.RouterSelect

namespace OpenResty.Kong.Router

open Lib.Transition List Option Function

variable {lua : Lua} {strips strips' : Strips} {a b : ApiT} {apis : List Api} {r : Request}
  {method uri : Text} {host : Option Text}

/-! ## What is found does not depend on what was stripped -/

theorem searchCategory_fst (lua : Lua) (method uri : Text) (host : Option Text) (strips : Strips)
    (category : Category)
    (rules : Rules) : (searchCategory lua category rules method uri host strips).1 =
      ((reduce lua category rules method uri host).getD [] ++ category.apis).find? fun a =>
        (match_api lua (fun _ => none) a method uri host).1 := by
  have hfirst := firstMatch_fst lua method uri host strips ((reduce lua category rules method uri host).getD [])
  rw [searchCategory, find?_append, ← hfirst]
  split
  · next heq => rw [heq, some_or]
  · next heq => rw [heq, none_or, firstMatch_fst]

theorem searchFrom_same (strips strips' : Strips) (tables : Tables) (cs : List Rules) :
    (searchFrom lua tables method uri host strips cs).1 = (searchFrom lua tables method uri host strips' cs).1 := by
  induction cs generalizing strips strips' with
  | nil => rfl
  | cons c cs ih =>
    simp only [searchFrom]
    cases hcategory : tables.categories c with
    | none => exact ih strips strips'
    | some category =>
      dsimp only
      have hsame : (searchCategory lua category c method uri host strips).1 =
        (searchCategory lua category c method uri host strips').1 := by
        rw [searchCategory_fst, searchCategory_fst]
      generalize searchCategory lua category c method uri host strips = x at hsame ⊢
      generalize searchCategory lua category c method uri host strips' = y at hsame ⊢
      obtain ⟨found, strips₁⟩ := x
      obtain ⟨found', strips₂⟩ := y
      cases hsame
      cases found with
      | none => exact ih strips₁ strips₂
      | some a => rfl

/-- What a search for the request finds -/
def searched (lua : Lua) (apis : List Api) (r : Request) : Option ApiT :=
  (search lua (new lua apis) (fun _ => none) r.method r.uri r.host).1

theorem search_fst (strips : Strips) :
    (search lua (new lua apis) strips r.method r.uri r.host).1 = searched lua apis r := by
  unfold searched
  simp only [search]
  split
  · rfl
  · exact searchFrom_same ..

theorem leaves_search (lua : Lua) (apis : List Api) (r : Request) (strips : Strips) :
    Leaves (apis.mapIdx marshall_api) ((new lua apis).indexes.resolveUri r.uri) strips
      (search lua (new lua apis) strips r.method r.uri r.host) := by
  simp only [search]
  split
  · exact .none .refl
  · exact leaves_searchFrom (filed_new lua apis) _

theorem searched_mem (h : searched lua apis r = some a) : a ∈ apis.mapIdx marshall_api := by
  unfold searched at h
  simp only [search] at h
  split at h
  · cases h
  · exact (searchFrom_some (filed_new lua apis) _ h).1

/-! ## Finding with a cache -/

variable {s : State}

/-- The API that the cache has for the request, when it matches that. -/
def hit (lua : Lua) (s : State) (r : Request) : Option ApiT :=
  (s.cache r.cache_key).filter fun a => (match_api lua s.strips a r.method r.uri r.host).1

theorem hit_some (h : hit lua s r = some a) : s.cache r.cache_key = some a ∧ Matches a r.method r.uri r.host := by
  obtain ⟨hcache, hmatch⟩ := filter_eq_some_iff.mp h
  exact ⟨hcache, match_api_fst.mp hmatch⟩

theorem find_hit {tables : Tables} (h : hit lua s r = some a) :
    find lua tables s r = (some a, { s with strips := (match_api lua s.strips a r.method r.uri r.host).2 }) := by
  obtain ⟨hcache, hmatch⟩ := filter_eq_some_iff.mp h
  simp only [find, hcache]
  split
  · next heq => rw [heq]
  · next heq =>
    rw [heq] at hmatch
    cases hmatch

/-- What a search leaves of the router, with what it found in the cache -/
def State.searched (s : State) (key : Text) (found : Option ApiT × Strips) : Option ApiT × State :=
  (found.1, { cache := if found.1.isSome then update s.cache key found.1 else s.cache, strips := found.2 })

theorem find_miss (tables : Tables) (h : hit lua s r = none)
    (hcached : ∀ a, s.cache r.cache_key = some a → a ∈ apis.mapIdx marshall_api) :
    ∃ strips, Touched (apis.mapIdx marshall_api) s.strips strips ∧
      find lua tables s r = s.searched r.cache_key (search lua tables strips r.method r.uri r.host) := by
  cases hcache : s.cache r.cache_key with
  | none =>
    refine ⟨s.strips, .refl, ?_⟩
    simp only [find, hcache]
    rcases search lua tables s.strips r.method r.uri r.host with ⟨_ | found, strips⟩
    · rfl
    · rfl
  | some a =>
    refine ⟨(match_api lua s.strips a r.method r.uri r.host).2, touched_match (hcached a hcache), ?_⟩
    have hmatch : (match_api lua s.strips a r.method r.uri r.host).1 = false := by
      simpa [hit, hcache, Option.filter] using h
    simp only [find, hcache]
    split
    · next heq =>
      rw [heq] at hmatch
      cases hmatch
    · next strips heq =>
      rw [heq]
      rcases search lua tables strips r.method r.uri r.host with ⟨_ | found, strips⟩
      · rfl
      · rfl

/-! ## Runs -/

/-- A request for the proxy, one for the router itself, and an entry that the
cache drops. -/
inductive Event
  | exec (http : Http)
  | select (method uri : Text) (host : Option Text)
  | evict (key : Text)

/-- A router, and beside it the requests that it has seen. -/
structure Session where
  state : State
  seen : List Request

def start : Session := { state := { cache := fun _ => none, strips := fun _ => none }, seen := [] }

/-- What a call that throws an error leaves is what was there. -/
def Session.after {α : Type} (s : Session) (r : Except Fault Request) : Except Fault (α × State) → Session
  | .ok (_, state) => { state, seen := r.toOption.toList ++ s.seen }
  | .error _ => s

def step (lua : Lua) (apis : List Api) (s : Session) : Event → Option Session
  | .exec http => some (s.after (http.request (new lua apis) apis) (exec lua apis s.state http))
  | .select method uri host => some (s.after (sanitize method uri host)
      (find_api lua (new lua apis) s.state method uri host))
  | .evict key => some { s with state := { s.state with cache := update s.state.cache key none } }

/-- What the cache has is what a search found for a request of the key, and
nothing is left to be stripped but of APIs that strip. -/
structure Inv (lua : Lua) (apis : List Api) (s : Session) : Prop where
  cached : ∀ key a, s.state.cache key = some a → ∃ e ∈ s.seen, e.cache_key = key ∧ searched lua apis e = some a
  strips : Touched (apis.mapIdx marshall_api) (fun _ => none) s.state.strips

variable {s : Session} {e : Event}

theorem Inv.mem (h : Inv lua apis s) {key : Text} (hcache : s.state.cache key = some a) :
    a ∈ apis.mapIdx marshall_api := by
  obtain ⟨e, -, -, hsearched⟩ := h.cached key a hcache
  exact searched_mem hsearched

theorem inv_find (h : Inv lua apis s) (r : Request) :
    Inv lua apis { state := (find lua (new lua apis) s.state r).2, seen := r :: s.seen } := by
  have hold : ∀ key a, s.state.cache key = some a → ∃ e ∈ r :: s.seen, e.cache_key = key ∧
    searched lua apis e = some a :=
    fun key a hcache => by
      obtain ⟨e, he, hkey⟩ := h.cached key a hcache
      exact ⟨e, mem_cons_of_mem r he, hkey⟩
  cases hhit : hit lua s.state r with
  | some a =>
    rw [find_hit hhit]
    exact ⟨hold, h.strips.trans (touched_match (h.mem (hit_some hhit).1))⟩
  | none =>
    obtain ⟨strips, htouched, hfind⟩ := find_miss (new lua apis) hhit fun a hcache => h.mem hcache
    rw [hfind]
    refine ⟨fun key a hcache => ?_, (h.strips.trans htouched).trans (leaves_search lua apis r strips).touched⟩
    simp only [State.searched, search_fst] at hcache
    split at hcache
    · by_cases hkey : key = r.cache_key
      · rw [hkey, update_self] at hcache
        exact ⟨r, mem_cons_self, hkey.symm, hcache⟩
      · rw [update_of_ne hkey] at hcache
        exact hold key a hcache
    · exact hold key a hcache

theorem exec_eq (s : State) (http : Http) (h : http.request (new lua apis) apis = .ok r) : exec lua apis s http =
    .ok ((find lua (new lua apis) s r).1.map (serve (find lua (new lua apis) s r).2 http),
      (find lua (new lua apis) s r).2) := by
  simp only [exec, h]
  rfl

theorem exec_error {fault : Fault} (s : State) (http : Http) (h : http.request (new lua apis) apis = .error fault) :
    exec lua apis s http = .error fault := by
  simp only [exec, h]
  rfl

theorem inv_step (s : Session) (e : Event) (s' : Session) (h : Inv lua apis s) (hstep : step lua apis s e = some s') :
    Inv lua apis s' := by
  cases e with
  | exec http =>
    cases hstep
    cases hrequest : http.request (new lua apis) apis with
    | error fault =>
      rw [exec_error s.state http hrequest]
      exact h
    | ok r =>
      rw [exec_eq s.state http hrequest]
      exact inv_find h r
  | select method uri host =>
    cases hstep
    unfold find_api
    cases hrequest : sanitize method uri host with
    | error fault => exact h
    | ok r => exact inv_find h r
  | evict key =>
    cases hstep
    refine ⟨fun key' a hcache => ?_, h.strips⟩
    by_cases hkey : key' = key
    · rw [hkey] at hcache
      cases (update_self key (none : Option ApiT) s.state.cache).symm.trans hcache
    · exact h.cached key' a ((update_of_ne hkey ..).symm.trans hcache)

theorem inv_start (lua : Lua) (apis : List Api) : Inv lua apis start :=
  ⟨fun _ _ h => (by cases h), .refl⟩

/-! ## What is found in a run -/

/-- No other request that was seen has the key of this one. -/
def NoClash (seen : List Request) (r : Request) : Prop := ∀ e ∈ seen, e.cache_key = r.cache_key → e = r

/-- A router finds what a search finds. -/
theorem find_searched (h : Inv lua apis s) (hclash : NoClash s.seen r) :
    (find lua (new lua apis) s.state r).1 = searched lua apis r := by
  cases hhit : hit lua s.state r with
  | some a =>
    obtain ⟨e, he, hkey, hsearched⟩ := h.cached r.cache_key a (hit_some hhit).1
    rw [find_hit hhit, ← hclash e he hkey, hsearched]
  | none =>
    obtain ⟨strips, -, hfind⟩ := find_miss (new lua apis) hhit fun a hcache => h.mem hcache
    rw [hfind]
    exact search_fst strips

/-- **At any point of a run the router finds the best of the APIs that have all
their rules satisfied and list the host that the request is resolved to.** -/
theorem find_best (lua : Lua) (apis : List Api) (es : List Event) (s : Session)
    (hrun : run (step lua apis) start es = some s)
    (method uri : Text) (host : Option Text) (r : Request) (hr : sanitize method uri host = .ok r)
    (hclash : NoClash s.seen r) :
    ∃ found s', find_api lua (new lua apis) s.state method uri host = .ok (found, s') ∧
      Best apis r (found.map (·.api)) := by
  have hinv : Inv lua apis s := (always_of_step inv_step (inv_start lua apis)).reached hrun
  refine ⟨(find lua (new lua apis) s.state r).1, (find lua (new lua apis) s.state r).2, by rw [find_api, hr]; rfl, ?_⟩
  rw [find_searched hinv hclash]
  exact best_search lua apis r _

/-! ## Two runs -/

/-- The longest of the API's URIs that are prefixes of the request's. -/
structure Longest (api : Api) (uri u : Text) : Prop where
  mem : u ∈ api.uris
  isPrefix : u <+: uri
  longest : ∀ v ∈ api.uris, v <+: uri → v.length ≤ u.length

theorem Longest.unique {api : Api} {u v : Text} (hu : Longest api uri u) (hv : Longest api uri v) : u = v := by
  have hlength : u.length = v.length :=
    Nat.le_antisymm (hv.longest u hu.mem hu.isPrefix) (hu.longest v hv.mem hv.isPrefix)
  exact (prefix_of_prefix_length_le hu.isPrefix hv.isPrefix (Nat.le_of_eq hlength)).eq_of_length hlength

/-- A request is handled as a new router would handle it, and the longest URI is
what is stripped. -/
def Right (lua : Lua) (apis : List Api) (s : Session) : Event → Prop
  | .exec http =>
    (exec lua apis s.state http).map Prod.fst = (exec lua apis start.state http).map Prod.fst ∧
    ∀ served s', exec lua apis s.state http = .ok (some served, s') → served.api.strip_uri = true →
      served.api.uris ≠ [] →
      ∃ u, s'.strips served.id = some u ∧ Longest served.api (withoutQuery http.request_uri) u
  | _ => True

/-- The first that the API lists of its URIs that are prefixes is the longest. -/
def FirstLongest (api : Api) (uri : Text) : Prop :=
  ∀ u, api.uris.find? (findPrefix uri) = some u → ∀ v ∈ api.uris, v <+: uri → v.length ≤ u.length

/-- What the cache has for a request is what a search finds for it, and the API
lists its longest URI first or has as a URI what the matcher gets: the URI of the
request from the cache, and the longest known prefix from a search. -/
def Careful (lua : Lua) (apis : List Api) (s : Session) : Event → Prop
  | .exec http => ∀ r, http.request (new lua apis) apis = .ok r →
    (∀ a, hit lua s.state r = some a → searched lua apis r = some a) ∧
    ∀ a, searched lua apis r = some a → a.api.strip_uri = true →
      (if (hit lua s.state r).isSome then r.uri else (new lua apis).indexes.resolveUri r.uri) ∈ a.api.uris ∨
        FirstLongest a.api r.uri
  | _ => True

theorem matchUri_longest (ha : a ∈ apis.mapIdx marshall_api) {known : Text} (hknown : known <+: uri)
    (hpre : ∀ u ∈ a.api.uris, u <+: uri → u <+: known) (hsome : ∃ u ∈ a.api.uris, u <+: uri) :
    (∃ u, matchUri a known = some u ∧ Longest a.api uri u) ↔ known ∈ a.api.uris ∨ FirstLongest a.api uri := by
  have hmatch : matchUri a known = if known ∈ a.api.uris then some known else a.api.uris.find? (findPrefix uri) := by
    have hsame : a.api.uris.find? (findPrefix known) = a.api.uris.find? (findPrefix uri) := by
      refine find?_congr fun u hu => ?_
      exact Bool.eq_iff_iff.mpr (( isPrefixOf_iff_prefix.trans
        ⟨fun h => h.trans hknown, hpre u hu⟩).trans isPrefixOf_iff_prefix.symm)
    rw [← hsame]
    conv_lhs => rw [(marshalled_eq ha).2]
    simp only [matchUri, marshall_api, mem_dedup]
  rw [hmatch]
  by_cases hmem : known ∈ a.api.uris
  · rw [if_pos hmem]
    exact ⟨fun _ => .inl hmem, fun _ => ⟨known, rfl, hmem, hknown, fun v hv h => (hpre v hv h).length_le⟩⟩
  · rw [if_neg hmem]
    constructor
    · rintro ⟨u, hfind, hlongest⟩
      refine .inr fun v hv => ?_
      cases hfind.symm.trans hv
      exact hlongest.longest
    · intro h
      have hfirst : FirstLongest a.api uri := h.resolve_left hmem
      cases hfind : a.api.uris.find? (findPrefix uri) with
      | none =>
        obtain ⟨u, hu, hupre⟩ := hsome
        exact absurd ( isPrefixOf_iff_prefix.mpr hupre) (find?_eq_none.mp hfind u hu)
      | some u =>
        have hu : findPrefix uri u = true := find?_some hfind
        exact ⟨u, rfl, mem_of_find?_eq_some hfind, isPrefixOf_iff_prefix.mp hu, hfirst u hfind⟩

/-- The API that a router finds -/
theorem find_fst (h : Inv lua apis s) :
    (find lua (new lua apis) s.state r).1 = (hit lua s.state r).or (searched lua apis r) := by
  cases hhit : hit lua s.state r with
  | some a => rw [find_hit hhit, some_or]
  | none =>
    obtain ⟨strips, -, hfind⟩ := find_miss (new lua apis) hhit fun a hcache => h.mem hcache
    rw [hfind, none_or]
    exact search_fst strips

/-- What the matcher gets of the URI -/
def matched (lua : Lua) (apis : List Api) (s : State) (r : Request) : Text :=
  if (hit lua s r).isSome then r.uri else (new lua apis).indexes.resolveUri r.uri

/-- A router leaves what the matcher finds, of an API that strips its URIs. -/
theorem find_leaves (h : Inv lua apis s) (hfound : (find lua (new lua apis) s.state r).1 = some a)
    (hstrip : a.api.strip_uri = true) (huris : a.api.uris ≠ []) :
    (find lua (new lua apis) s.state r).2.strips a.id = matchUri a (matched lua apis s.state r) := by
  have hrule (ha : a ∈ apis.mapIdx marshall_api) : a.match_rules.uri = true := by
    rw [marshalled_rules ha]
    exact isEmpty_eq_false.mpr huris
  cases hhit : hit lua s.state r with
  | some b =>
    rw [find_hit hhit] at hfound ⊢
    cases hfound
    obtain ⟨hcache, hmatch⟩ := hit_some hhit
    rw [matched, hhit, match_api_leaves hmatch (hrule (h.mem hcache)), Strips.leave, if_pos hstrip]
    exact update_self ..
  | none =>
    obtain ⟨strips, -, hfind⟩ := find_miss (new lua apis) hhit fun a hcache => h.mem hcache
    rw [hfind] at hfound ⊢
    rw [matched, hhit]
    have ha : a ∈ apis.mapIdx marshall_api := searched_mem ((search_fst strips).symm.trans hfound)
    exact (leaves_search lua apis r strips).left a hfound (hrule ha) hstrip

/-- Of other APIs nothing is stripped. -/
theorem find_strips_none (h : Inv lua apis s) (ha : a ∈ apis.mapIdx marshall_api)
    (hno : ¬ (a.api.strip_uri = true ∧ a.api.uris ≠ [])) :
    (find lua (new lua apis) s.state r).2.strips a.id = none := by
  by_contra hsome
  obtain ⟨b, hb, hid, hstrip, huri⟩ := (inv_find h r).strips a.id hsome
  cases marshalled_unique hb ha hid
  rw [marshalled_rules ha] at huri
  exact hno ⟨hstrip, isEmpty_eq_false.mp huri⟩

theorem http_uri {http : Http} (h : http.request (new lua apis) apis = .ok r) :
    r.uri = withoutQuery http.request_uri := by
  unfold Http.request sanitize at h
  cases hhost : (if grab_host (new lua apis).indexes apis = true then http.http_host else none) with
  | none =>
    rw [hhost] at h
    cases h
    rfl
  | some host =>
    rw [hhost] at h
    cases hport : stripPort host with
    | error fault =>
      simp only [hport] at h
      cases h
    | ok host =>
      simp only [hport] at h
      cases h
      rfl

/-- What is stripped is the longest URI if and only if the API is careful about
what the matcher gets. -/
theorem leaves_longest (hsearched : searched lua apis r = some a) (huris : a.api.uris ≠ []) (s : State) :
    (∃ u, matchUri a (matched lua apis s r) = some u ∧ Longest a.api r.uri u) ↔
      matched lua apis s r ∈ a.api.uris ∨ FirstLongest a.api r.uri := by
  have ha := searched_mem hsearched
  have hbest : Best apis r ((searched lua apis r).map (·.api)) := best_search lua apis r fun _ => none
  rw [hsearched] at hbest
  refine matchUri_longest ha ?_ (fun u hu hpre => ?_) (hbest.2.1.uri huris)
  · unfold matched
    split
    · exact prefix_refl _
    · exact resolveUri_isPrefix _ _
  · unfold matched
    split
    · exact hpre
    · exact prefix_resolveUri lua (marshalled_eq ha).1 hu hpre

theorem start_hit (r : Request) : hit lua start.state r = none := rfl

/-- What is right for the URI from the cache is right for the one from a search. -/
theorem careful_search (hsearched : searched lua apis r = some a) (s : State)
    (h : matched lua apis s r ∈ a.api.uris ∨ FirstLongest a.api r.uri) :
    matched lua apis start.state r ∈ a.api.uris ∨ FirstLongest a.api r.uri := by
  refine h.imp (fun hmem => ?_) id
  unfold matched at hmem ⊢
  split at hmem
  · have hknown := (uris_new lua apis r.uri).mpr ⟨a.api, (marshalled_eq (searched_mem hsearched)).1, hmem⟩
    rw [start_hit, if_neg (by simp), Indexes.resolveUri, if_pos hknown]
    exact hmem
  · exact hmem

theorem right_of_careful (h : Inv lua apis s) {http : Http} (hcareful : Careful lua apis s (.exec http)) :
    Right lua apis s (.exec http) := by
  cases hrequest : http.request (new lua apis) apis with
  | error fault =>
    simp only [Right, exec_error _ http hrequest]
    exact ⟨trivial, fun _ _ h => by cases h⟩
  | ok r =>
    obtain ⟨hcached, hlongest⟩ := hcareful r hrequest
    have hstart := inv_start lua apis
    have hfound : (find lua (new lua apis) s.state r).1 = searched lua apis r := by
      rw [find_fst h]
      cases hhit : hit lua s.state r with
      | some a => rw [some_or, hcached a hhit]
      | none => rw [none_or]
    have hfresh : (find lua (new lua apis) start.state r).1 = searched lua apis r := by
      rw [find_fst hstart, start_hit, none_or]
    simp only [Right, exec_eq _ http hrequest, hfound, hfresh]
    cases hsearched : searched lua apis r with
    | none => exact ⟨rfl, fun _ _ h => by cases h⟩
    | some a =>
      rw [hsearched] at hfound hfresh
      have hleft (hstrip : a.api.strip_uri = true) (huris : a.api.uris ≠ []) :
          ∃ u, matchUri a (matched lua apis s.state r) = some u ∧ Longest a.api r.uri u :=
        (leaves_longest hsearched huris s.state).mpr (hlongest a hsearched hstrip)
      have hsame : (find lua (new lua apis) s.state r).2.strips a.id =
        (find lua (new lua apis) start.state r).2.strips a.id := by
        by_cases hstrips : a.api.strip_uri = true ∧ a.api.uris ≠ []
        · obtain ⟨hstrip, huris⟩ := hstrips
          obtain ⟨u, hu, hulongest⟩ := hleft hstrip huris
          obtain ⟨v, hv, hvlongest⟩ := (leaves_longest hsearched huris start.state).mpr
            (careful_search hsearched s.state (hlongest a hsearched hstrip))
          rw [find_leaves h hfound hstrip huris, find_leaves hstart hfresh hstrip huris, hu, hv,
            hulongest.unique hvlongest]
        · rw [find_strips_none h (searched_mem hsearched) hstrips,
            find_strips_none hstart (searched_mem hsearched) hstrips]
      refine ⟨?_, fun served s' hserved hstrip huris => ?_⟩
      · simp only [Except.map, map_some, serve, hsame]
      · cases hserved
        obtain ⟨u, hu, hulongest⟩ := hleft hstrip huris
        refine ⟨u, (find_leaves h hfound hstrip huris).trans hu, ?_⟩
        rw [← http_uri hrequest]
        exact hulongest

theorem careful_of_right (h : Inv lua apis s) {http : Http} (hright : Right lua apis s (.exec http)) :
    Careful lua apis s (.exec http) := by
  intro r hrequest
  have hstart := inv_start lua apis
  have hfresh : (find lua (new lua apis) start.state r).1 = searched lua apis r := by
    rw [find_fst hstart, start_hit, none_or]
  simp only [Right, exec_eq _ http hrequest, hfresh] at hright
  obtain ⟨hsame, hlongest⟩ := hright
  have hcached : ∀ a, hit lua s.state r = some a → searched lua apis r = some a := fun a hhit => by
    have hfound : (find lua (new lua apis) s.state r).1 = some a := by rw [find_fst h, hhit, some_or]
    rw [hfound] at hsame
    cases hsearched : searched lua apis r with
    | none =>
      rw [hsearched] at hsame
      cases hsame
    | some b =>
      rw [hsearched] at hsame
      have hid : a.id = b.id := congrArg Served.id (some.inj (Except.ok.inj hsame))
      rw [marshalled_unique (h.mem (hit_some hhit).1) (searched_mem hsearched) hid]
  refine ⟨hcached, fun a hsearched hstrip => ?_⟩
  by_cases huris : a.api.uris = []
  · exact .inr fun u hu => by rw [huris] at hu; cases hu
  · have hfound : (find lua (new lua apis) s.state r).1 = some a := by
      rw [find_fst h]
      cases hhit : hit lua s.state r with
      | some b => rw [some_or, ← hcached b hhit, hsearched]
      | none => rw [none_or, hsearched]
    rw [hfound] at hlongest
    obtain ⟨u, hu, hulongest⟩ := hlongest _ _ rfl hstrip huris
    refine (leaves_longest hsearched huris s.state).mp ⟨u, ?_, ?_⟩
    · rw [← find_leaves h hfound hstrip huris]
      exact hu
    · rw [http_uri hrequest]
      exact hulongest

/-- **Every request is handled as by a new router, and the longest URI is what is
stripped, if and only if every request is a careful one.** -/
theorem router_right_iff_careful (lua : Lua) (apis : List Api) (es : List Event) :
    Along (step lua apis) (Right lua apis) start es ↔ Along (step lua apis) (Careful lua apis) start es := by
  refine along_iff_along (fun s e s' h _ => ?_) (fun s e s' h hstep _ => inv_step s e s' h hstep) (inv_start lua apis)
  cases e with
  | exec http => exact ⟨careful_of_right h, right_of_careful h⟩
  | select method uri host => exact Iff.rfl
  | evict key => exact Iff.rfl

/-! ## Requests that go wrong -/

def byInsertion : Lua where
  pairs := [.host, .uri, .method]
  pairs_all rule := by cases rule <;> decide
  sort size l := l.insertionSort fun a b => size b ≤ size a
  sort_perm size l := perm_insertionSort _ l
  sort_sorted size l :=
    have : Std.Total fun a b => size b ≤ size a := ⟨fun a b => Nat.le_total (size b) (size a)⟩
    have : IsTrans _ fun a b => size b ≤ size a := ⟨fun _ _ _ hab hbc => Nat.le_trans hbc hab⟩
    pairwise_insertionSort _ l

def upstream_url : Parsed := { scheme := some "http".toList, host := some "up".toList, port := none, path := none }

/-- Its shorter URI comes first. -/
def stripped : Api :=
  { hosts := [], uris := ["/a".toList, "/a/b".toList], methods := [], strip_uri := true, preserve_host := false
    upstream_url, some_rule := by decide }

def again : Http := { method := "GET".toList, request_uri := "/a/b/c".toList, http_host := none }

/-- The same request twice: only the first is stripped of the longer URI. -/
theorem not_right_again : ¬ Along (step byInsertion [stripped]) (Right byInsertion [stripped]) start
    [.exec again, .exec again] := by
  intro h
  obtain ⟨-, hrest⟩ := h _ rfl
  obtain ⟨⟨hsame, -⟩, -⟩ := hrest _ rfl
  have huri := congrArg (fun x => x.toOption.map fun served => served.map Served.uri) hsame
  exact absurd huri (by decide)

/-- It has the host of the request for another method. -/
def plain : Api :=
  { hosts := ["foo.api.com".toList], uris := [], methods := ["POST".toList], strip_uri := false,
    preserve_host := false
    upstream_url, some_rule := by decide }

def wildcard : Api :=
  { hosts := ["*.api.com".toList], uris := [], methods := ["GET".toList], strip_uri := false, preserve_host := false
    upstream_url, some_rule := by decide }

def get : Request := { method := "GET".toList, uri := "/".toList, host := some "foo.api.com".toList }

/-- The wildcard API has all its rules satisfied and is not found. -/
theorem not_found_behindPlain : Satisfied wildcard get ∧ wildcard ∈ [plain, wildcard] ∧
    (find_api byInsertion (new byInsertion [plain, wildcard]) start.state get.method get.uri get.host).map
      Prod.fst = .ok none := by
  have hhost : Covers "*.api.com".toList "foo.api.com".toList := .inr (by decide)
  exact ⟨⟨fun _ => ⟨_, rfl, _, mem_singleton_self _, hhost⟩, fun h => absurd rfl h, fun _ => by decide⟩,
    by decide, by rfl⟩

/-- The wildcard API is found, and then found in the cache. -/
theorem find_best_wildcard : ∃ s, run (step byInsertion [wildcard]) start
    [.select get.method get.uri get.host] = some s ∧
    ∃ found s', find_api byInsertion (new byInsertion [wildcard]) s.state "get".toList "/".toList
      (some "foo.api.com:80".toList) = .ok (found, s') ∧ Best [wildcard] get (found.map (·.api)) := by
  refine ⟨_, rfl, find_best byInsertion [wildcard] [.select get.method get.uri get.host] _ rfl "get".toList
    "/".toList (some "foo.api.com:80".toList) get (by rfl) ?_⟩
  exact fun e he _ => mem_singleton.mp he

end OpenResty.Kong.Router
