/-
What the indexes know of the APIs, and what they make of a request: its host as
an API lists it, and its URI cut to the longest known prefix.
-/
import OpenResty.Kong.RouterSearch

namespace OpenResty.Kong.Router

open List hiding getElem?_eq_some_iff

variable {lua : Lua} {strips : Strips} {a b : ApiT} {api : Api} {apis : List Api} {method uri : Text}
  {host : Option Text}

/-! ## APIs in the list -/

theorem mem_marshalled : a ∈ apis.mapIdx marshall_api ↔ ∃ api, apis[a.id]? = some api ∧
    a = marshall_api a.id api := by
  rw [mem_mapIdx]
  constructor
  · rintro ⟨i, hi, rfl⟩
    exact ⟨apis[i], getElem?_eq_getElem hi, rfl⟩
  · rintro ⟨api, hapi, ha⟩
    obtain ⟨hi, rfl⟩ := List.getElem?_eq_some_iff.mp hapi
    exact ⟨a.id, hi, ha.symm⟩

theorem marshalled_eq (ha : a ∈ apis.mapIdx marshall_api) : a.api ∈ apis ∧ a = marshall_api a.id a.api := by
  obtain ⟨api, hapi, heq⟩ := mem_marshalled.mp ha
  have hsame : a.api = api := by rw [heq]; rfl
  rw [hsame]
  exact ⟨mem_of_getElem? hapi, heq⟩

/-- The place of an API in the list tells it from all others. -/
theorem marshalled_unique (ha : a ∈ apis.mapIdx marshall_api) (hb : b ∈ apis.mapIdx marshall_api)
    (hid : a.id = b.id) :
    a = b := by
  obtain ⟨api, hapi, heq⟩ := mem_marshalled.mp ha
  obtain ⟨api', hapi', heq'⟩ := mem_marshalled.mp hb
  rw [hid, hapi'] at hapi
  cases hapi
  rw [heq, heq', hid]

theorem exists_marshalled (hapi : api ∈ apis) : ∃ a ∈ apis.mapIdx marshall_api, a.api = api := by
  obtain ⟨i, hi, rfl⟩ := mem_iff_getElem.mp hapi
  exact ⟨marshall_api i apis[i], mem_mapIdx.mpr ⟨i, hi, rfl⟩, rfl⟩

theorem exists_marshalled_iff {p : Api → Prop} : (∃ a ∈ apis.mapIdx marshall_api, p a.api) ↔ ∃ api ∈ apis, p api := by
  constructor
  · rintro ⟨a, ha, hp⟩
    exact ⟨a.api, (marshalled_eq ha).1, hp⟩
  · rintro ⟨api, hapi, hp⟩
    obtain ⟨a, ha, rfl⟩ := exists_marshalled hapi
    exact ⟨a, ha, hp⟩

theorem marshalled_hosts (ha : a ∈ apis.mapIdx marshall_api) (h : Text) : h ∈ a.hosts ↔ h ∈ a.api.hosts := by
  rw [(marshalled_eq ha).2]
  exact mem_dedup

theorem marshalled_uris (ha : a ∈ apis.mapIdx marshall_api) (u : Text) : u ∈ a.uris ↔ u ∈ a.api.uris := by
  rw [(marshalled_eq ha).2]
  exact mem_dedup

theorem marshalled_prefixes (ha : a ∈ apis.mapIdx marshall_api) : a.uris_prefixes_regexes = a.api.uris := by
  rw [(marshalled_eq ha).2]
  rfl

theorem marshalled_methods (ha : a ∈ apis.mapIdx marshall_api) (m : Text) :
    m ∈ a.methods ↔ m ∈ a.api.methods.map upper := by
  rw [(marshalled_eq ha).2]
  exact mem_dedup

/-- The rules that an API has -/
def Api.rules (api : Api) : Rules :=
  { host := !api.hosts.isEmpty, uri := !api.uris.isEmpty, method := !api.methods.isEmpty }

theorem marshalled_rules (ha : a ∈ apis.mapIdx marshall_api) : a.match_rules = a.api.rules := by
  rw [(marshalled_eq ha).2]
  rfl

/-! ## The indexes -/

/-- The indexes know what the APIs list. -/
structure Knows (apis_t : List ApiT) (indexes : Indexes) : Prop where
  hosts : ∀ h, indexes.hosts h = true ↔ ∃ a ∈ apis_t, h ∈ a.hosts
  uris : ∀ u, indexes.uris u = true ↔ ∃ a ∈ apis_t, u ∈ a.uris
  methods : ∀ m, indexes.methods m = true ↔ ∃ a ∈ apis_t, m ∈ a.methods
  uris_prefixes : ∀ u, u ∈ indexes.uris_prefixes ↔ ∃ a ∈ apis_t, u ∈ a.uris_prefixes_regexes
  wildcard_hosts : indexes.wildcard_hosts = apis_t.flatMap (·.wildcard_hosts)

theorem Knows.index {apis_t : List ApiT} {indexes : Indexes} (h : Knows apis_t indexes) (a : ApiT) :
    Knows (apis_t ++ [a]) (index_api_t indexes a) := by
  have hmem {p : ApiT → Prop} : (∃ b ∈ apis_t ++ [a], p b) ↔ (∃ b ∈ apis_t, p b) ∨ p a := by
    simp only [mem_append, mem_singleton, or_and_right, exists_or, exists_eq_left]
  refine ⟨fun host => ?_, fun uri => ?_, fun method => ?_, fun uri => ?_, ?_⟩
  · rw [hmem, ← h.hosts, index_api_t, Bool.or_eq_true, decide_eq_true_iff, or_comm]
  · rw [hmem, ← h.uris, index_api_t, Bool.or_eq_true, decide_eq_true_iff, or_comm]
  · rw [hmem, ← h.methods, index_api_t, Bool.or_eq_true, decide_eq_true_iff, or_comm]
  · rw [hmem, ← h.uris_prefixes, index_api_t, mem_append]
  · rw [index_api_t, h.wildcard_hosts, flatMap_append, flatMap_singleton]

theorem Knows.foldl {apis_t : List ApiT} {indexes : Indexes} (h : Knows apis_t indexes) (l : List ApiT) :
    Knows (apis_t ++ l) (l.foldl index_api_t indexes) := by
  induction l generalizing apis_t indexes with
  | nil => rwa [append_nil]
  | cons a l ih =>
    rw [append_cons]
    exact ih (h.index a)

theorem knows_new (lua : Lua) (apis : List Api) : Knows (apis.mapIdx marshall_api) (new lua apis).indexes := by
  have hempty : Knows []
      { hosts := fun _ => false, uris := fun _ => false, methods := fun _ => false, uris_prefixes := [],
        wildcard_hosts := [] } :=
    ⟨fun _ => by simp, fun _ => by simp, fun _ => by simp, fun _ => by simp, rfl⟩
  have hknows := hempty.foldl (apis.mapIdx marshall_api)
  exact ⟨hknows.hosts, hknows.uris, hknows.methods, fun u => (lua.sort_perm ..).mem_iff.trans
    (hknows.uris_prefixes u),
    hknows.wildcard_hosts⟩

theorem hosts_new (lua : Lua) (apis : List Api) (h : Text) :
    (new lua apis).indexes.hosts h = true ↔ ∃ api ∈ apis, h ∈ api.hosts := by
  rw [(knows_new lua apis).hosts, ← exists_marshalled_iff]
  exact exists_congr fun a => and_congr_right fun ha => marshalled_hosts ha h

theorem uris_new (lua : Lua) (apis : List Api) (u : Text) :
    (new lua apis).indexes.uris u = true ↔ ∃ api ∈ apis, u ∈ api.uris := by
  rw [(knows_new lua apis).uris, ← exists_marshalled_iff]
  exact exists_congr fun a => and_congr_right fun ha => marshalled_uris ha u

theorem methods_new (lua : Lua) (apis : List Api) (m : Text) :
    (new lua apis).indexes.methods m = true ↔ ∃ api ∈ apis, m ∈ api.methods.map upper := by
  rw [(knows_new lua apis).methods, ← exists_marshalled_iff]
  exact exists_congr fun a => and_congr_right fun ha => marshalled_methods ha m

theorem uris_prefixes_new (lua : Lua) (apis : List Api) (u : Text) :
    u ∈ (new lua apis).indexes.uris_prefixes ↔ ∃ api ∈ apis, u ∈ api.uris := by
  rw [(knows_new lua apis).uris_prefixes, ← exists_marshalled_iff]
  exact exists_congr fun a => and_congr_right fun ha => by rw [marshalled_prefixes ha]

theorem wildcard_hosts_new (lua : Lua) (apis : List Api) :
    (new lua apis).indexes.wildcard_hosts = (apis.flatMap (·.hosts)).filter ('*' ∈ ·) := by
  rw [(knows_new lua apis).wildcard_hosts, filter_flatMap, mapIdx_eq_zipIdx_map, flatMap_map]
  conv_rhs => rw [← zipIdx_map_fst 0 apis, flatMap_map]
  rfl

/-! ## The host -/

instance : LawfulBEq Text := inferInstanceAs (LawfulBEq (List Char))

/-- The host as the APIs know it: itself if an API lists it, else the first
wildcard for it. -/
def resolved (apis : List Api) (host : Text) : Text :=
  if ∃ api ∈ apis, host ∈ api.hosts then host
  else ((apis.flatMap (·.hosts)).find? fun p => '*' ∈ p ∧ findWildcard p host = true).getD host

theorem resolveHost_new (lua : Lua) (apis : List Api) (host : Option Text) :
    (new lua apis).indexes.resolveHost host = host.map (resolved apis) := by
  cases host with
  | none => rfl
  | some host =>
    simp only [Indexes.resolveHost, hosts_new, wildcard_hosts_new, find?_filter, decide_eq_true_eq,
      Option.map_some, resolved]
    split
    · rfl
    · rfl

/-- A host matches a pattern. -/
def Covers (pattern host : Text) : Prop := pattern = host ∨ '*' ∈ pattern ∧ findWildcard pattern host = true

/-- What a host is resolved to covers it. -/
theorem covers_resolved (apis : List Api) (host : Text) : Covers (resolved apis host) host := by
  unfold resolved
  split
  · exact .inl rfl
  · cases hfind : (apis.flatMap (·.hosts)).find? fun p => '*' ∈ p ∧ findWildcard p host = true with
    | none => exact .inl rfl
    | some p => exact .inr (by simpa using find?_some hfind)

/-! ## The URI -/

theorem resolveUri_isPrefix (indexes : Indexes) (uri : Text) : indexes.resolveUri uri <+: uri := by
  unfold Indexes.resolveUri
  split
  · exact prefix_refl uri
  · cases hfind : indexes.uris_prefixes.find? (findPrefix uri) with
    | none => exact prefix_refl uri
    | some p =>
      have hp : findPrefix uri p = true := find?_some hfind
      exact isPrefixOf_iff_prefix.mp hp

/-- No known prefix of the URI is longer. -/
theorem prefix_resolveUri (lua : Lua) {u : Text} (hapi : api ∈ apis) (hu : u ∈ api.uris) (hpre : u <+: uri) :
    u <+: (new lua apis).indexes.resolveUri uri := by
  have hknown := (uris_prefixes_new lua apis u).mpr ⟨api, hapi, hu⟩
  have hsorted : (new lua apis).indexes.uris_prefixes.Pairwise fun u v => v.length + 4 ≤ u.length + 4 :=
    lua.sort_sorted ..
  unfold Indexes.resolveUri
  split
  · exact hpre
  · cases hfind : (new lua apis).indexes.uris_prefixes.find? (findPrefix uri) with
    | none => exact absurd ( isPrefixOf_iff_prefix.mpr hpre) (find?_eq_none.mp hfind u hknown)
    | some p =>
      obtain ⟨hp, as, bs, hsplit, has⟩ := find?_eq_some_iff_append.mp hfind
      rw [hsplit] at hknown hsorted
      have hlength : u.length ≤ p.length := by
        rcases mem_append.mp hknown with hu | hu
        · have hnot := has u hu
          rw [findPrefix, isPrefixOf_iff_prefix.mpr hpre] at hnot
          cases hnot
        · rcases mem_cons.mp hu with rfl | hu
          · exact Nat.le_refl _
          · have hle := (pairwise_cons.mp (pairwise_append.mp hsorted).2.1).1 u hu
            omega
      exact prefix_of_prefix_length_le hpre ( isPrefixOf_iff_prefix.mp hp) hlength

/-- The URIs of an API that are prefixes stay the same. -/
theorem prefix_resolveUri_iff (lua : Lua) {u : Text} (hapi : api ∈ apis) (hu : u ∈ api.uris) :
    u <+: (new lua apis).indexes.resolveUri uri ↔ u <+: uri :=
  ⟨fun h => h.trans (resolveUri_isPrefix _ uri), prefix_resolveUri lua hapi hu⟩

end OpenResty.Kong.Router
