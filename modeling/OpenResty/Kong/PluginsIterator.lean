/-
`kong.core.plugins_iterator`, with the changes of plugins and `kong.core.hooks`:
the configurations of a request are found in the cache, which the event of each
change brings up to date.

The event of an update deletes what is cached for the row as it was, not for the
row as it is now.
-/
import Mathlib.Data.List.Pairwise
import OpenResty.Kong.OneMemory
import OpenResty.Lib.Join

namespace OpenResty.Kong.PluginsIterator

open DatabaseCache (Message invalidate plugin_key)
open Lib.Transition OneMemory List Function Option

variable {C : Type}

/-- What a plugin is configured for. -/
structure Scope where
  name : String
  api_id : Option String
  consumer_id : Option String
  deriving DecidableEq

/-- A row of `plugins`. -/
structure Plugin (C : Type) extends Scope where
  id : String
  enabled : Bool
  config : C

/-- The plugins, the APIs and the consumers that there are. -/
structure Installation where
  loaded_plugins : List String
  /-- `no_consumer` of the schema of a plugin -/
  schemas : String → Option Bool
  /-- the ids -/
  apis : List String
  consumers : List String

variable {inst : Installation}

def cache_key (t : Scope) : String := plugin_key t.name t.api_id t.consumer_id

/-! ## Requests -/

/-- `find_all`: what is nil is not asked for. -/
def find_all (rows : List (Plugin C)) (t : Scope) : List (Plugin C) :=
  rows.filter fun row => row.name = t.name ∧ (t.api_id = none ∨ row.api_id = t.api_id) ∧
    (t.consumer_id = none ∨ row.consumer_id = t.consumer_id)

/-- Without a row it is the sentinel that is cached. -/
def load_plugin_into_memory (rows : List (Plugin C)) (t : Scope) : Option (Plugin C) :=
  (find_all rows t).find? fun row => t.api_id = row.api_id ∧ t.consumer_id = row.consumer_id

/-- What is cached: a row, or the sentinel. -/
abbrev Cache (C : Type) := Memory String (Option (Plugin C))

/-- The row that the configuration is of. -/
def load_plugin_configuration (rows : List (Plugin C)) (cache : Cache C) (t : Scope) : Option (Plugin C) × Cache C :=
  let (plugin, cache) := get_or_set cache (cache_key t) (some (load_plugin_into_memory rows t))
  (plugin.join.filter (·.enabled), cache)

/-- Where `get_next` searches for a plugin: API and consumer specific, or consumer
specific, then API specific, or global. -/
def searches (inst : Installation) (name : String) (api consumer_id : Option String) : List Scope :=
  (match consumer_id with
    | some consumer_id =>
      if inst.schemas name = some false then
        (api.map fun api => ⟨name, some api, some consumer_id⟩).toList ++ [⟨name, none, some consumer_id⟩]
      else []
    | none => []) ++
  (api.map fun api => ⟨name, some api, none⟩).toList ++ [⟨name, none, none⟩]

/-- Until there is a configuration. -/
def search (rows : List (Plugin C)) : List Scope → Cache C → Option (Plugin C) × Cache C
  | [], cache => (none, cache)
  | t :: ts, cache =>
    match load_plugin_configuration rows cache t with
    | (some plugin_configuration, cache) => (some plugin_configuration, cache)
    | (none, cache) => search rows ts cache

/-! ## Changes -/

/-- What `DAO` publishes, with the row. -/
inductive Published (C : Type)
  | created (row : Plugin C)
  | updated (old : Plugin C)
  | deleted (row : Plugin C)

/-- What is published of a row of a plugin. -/
def entity (row : Plugin C) : String × Option String × Option String := (row.name, row.api_id, row.consumer_id)

def samePrimaryKey (a b : Plugin C) : Bool := a.id = b.id ∧ a.name = b.name

/-- `POST /cluster/events/`: the new row of an update is loaded, and if there is
none the event is ignored. -/
def receive (rows : List (Plugin C)) : Published C → Option Message
  | .created row => some (.plugins (entity row) none)
  | .deleted row => some (.plugins (entity row) none)
  | .updated old =>
    match rows.filter (samePrimaryKey · old) with
    | [row] => some (.plugins (entity row) (some (entity old)))
    | _ => none

structure System (C : Type) where
  rows : List (Plugin C)
  cache : Cache C

/-- The rows after a change, and the delivery of its event. -/
def publish (s : System C) (rows : List (Plugin C)) (event : Published C) : System C where
  rows := rows
  cache := (((receive rows event).map invalidate).getD []).foldl delete s.cache

/-- The foreign keys, and the part of `self_check` that is not of the configuration. -/
def accepted (inst : Installation) (row : Plugin C) : Bool :=
  row.api_id.all (· ∈ inst.apis) && row.consumer_id.all (· ∈ inst.consumers) &&
    match inst.schemas row.name with
    | none => false
    | some no_consumer => !(no_consumer && row.consumer_id.isSome)

def replace (rows : List (Plugin C)) (row : Plugin C) : List (Plugin C) :=
  rows.map fun old => if samePrimaryKey old row then row else old

/-- An INSERT of Cassandra writes the columns that it names to the row that is
there. -/
def merged (old row : Plugin C) : Plugin C :=
  { row with
    api_id := row.api_id.or old.api_id
    consumer_id := row.consumer_id.or old.consumer_id }

/-- A row with the primary key is written to by an INSERT of Cassandra, and makes
one of PostgreSQL fail. -/
def insert (inst : Installation) (cassandra : Bool) (s : System C) (row : Plugin C) : System C :=
  if ¬accepted inst row ∨ (find_all s.rows row.toScope).any (·.toScope = row.toScope) then s
  else
    match s.rows.find? (samePrimaryKey · row) with
    | none => publish s (s.rows ++ [row]) (.created row)
    | some old =>
      if cassandra then publish s (replace s.rows (merged old row)) (.created (merged old row)) else s

/-- `row` is the row as the UPDATE leaves it. -/
def update (inst : Installation) (s : System C) (row : Plugin C) : System C :=
  match s.rows.find? (samePrimaryKey · row) with
  | none => s
  | some old => if accepted inst row then publish s (replace s.rows row) (.updated old) else s

def remove (s : System C) (row : Plugin C) : System C :=
  match s.rows.find? (samePrimaryKey · row) with
  | none => s
  | some old => publish s (s.rows.filter fun r => !samePrimaryKey r row) (.deleted old)

inductive Event (C : Type)
  | request (name : String) (api consumer_id : Option String)
  | insert (row : Plugin C)
  | update (row : Plugin C)
  | delete (row : Plugin C)
  /-- a key is lost from memory -/
  | evict (key : String)

/-- A request of an API and a consumer that there are comes to a plugin. -/
def Request (inst : Installation) (name : String) (api consumer_id : Option String) : Prop :=
  name ∈ inst.loaded_plugins ∧ (∀ a ∈ api, a ∈ inst.apis) ∧ ∀ c ∈ consumer_id, c ∈ inst.consumers

instance (name : String) (api consumer_id : Option String) : Decidable (Request inst name api consumer_id) :=
  inferInstanceAs (Decidable (_ ∧ _ ∧ _))

def step (inst : Installation) (cassandra : Bool) (s : System C) : Event C → Option (System C)
  | .request name api consumer_id =>
    if Request inst name api consumer_id then
      some { s with cache := (search s.rows (searches inst name api consumer_id) s.cache).2 }
    else none
  | .insert row => some (insert inst cassandra s row)
  | .update row => some (update inst s row)
  | .delete row => some (remove s row)
  | .evict key => some { s with cache := delete s.cache key }

/-! ## What is to hold -/

/-- The row of a scope, when it is enabled. -/
def picked (rows : List (Plugin C)) (t : Scope) : Option (Plugin C) :=
  (load_plugin_into_memory rows t).filter (·.enabled)

/-- What requests can search for. -/
def Searched (inst : Installation) (t : Scope) : Prop :=
  Request inst t.name t.api_id t.consumer_id ∧ (t.consumer_id ≠ none → inst.schemas t.name = some false)

/-- Two scopes never share a key. -/
def KeysApart (inst : Installation) : Prop :=
  ∀ t t', Searched inst t → Searched inst t' → cache_key t = cache_key t' → t = t'

structure Right (inst : Installation) (s : System C) : Prop where
  apart : KeysApart inst
  /-- a request gets what it would with an empty cache -/
  picks : ∀ name api consumer_id, Request inst name api consumer_id →
    (search s.rows (searches inst name api consumer_id) s.cache).1 =
      (search s.rows (searches inst name api consumer_id) fun _ => none).1

/-- What is cached for a scope is no longer so, or right for the new rows. -/
def Keeps (inst : Installation) (s : System C) (rows : List (Plugin C)) (deleted t : Scope) : Prop :=
  Searched inst t → s.cache (cache_key t) = none ∨ cache_key t = cache_key deleted ∨ picked rows t = picked s.rows t

/-- Nothing is cached for a scope that a row is moved to, unless no other row is
picked there; and likewise for one that a row is moved from by an INSERT. -/
def Careful (inst : Installation) (cassandra : Bool) (s : System C) : Event C → Prop
  | .update row => ∀ old, s.rows.find? (samePrimaryKey · row) = some old → accepted inst row = true →
      Keeps inst s (replace s.rows row) old.toScope row.toScope
  | .insert row => ∀ old, s.rows.find? (samePrimaryKey · row) = some old → accepted inst row = true →
      cassandra = true → (find_all s.rows row.toScope).any (·.toScope = row.toScope) = false →
      Keeps inst s (replace s.rows (merged old row)) (merged old row).toScope old.toScope
  | _ => True

/-! ## Searches -/

variable {rows : List (Plugin C)} {cache : Cache C} {t t' : Scope} {ts : List Scope} {s s' : System C} {row old : Plugin C}

/-- The row of the scope that comes first. -/
theorem load_eq (rows : List (Plugin C)) (t : Scope) : load_plugin_into_memory rows t = rows.find? (·.toScope = t) := by
  rw [load_plugin_into_memory, find_all, find?_filter]
  congr 1
  funext row
  obtain ⟨⟨name, api_id, consumer_id⟩, -, -, -⟩ := row
  obtain ⟨name', api_id', consumer_id'⟩ := t
  rw [Bool.eq_iff_iff]
  simp only [Scope.mk.injEq, decide_eq_true_eq]
  constructor
  · rintro ⟨⟨rfl, -, -⟩, rfl, rfl⟩
    exact ⟨rfl, rfl, rfl⟩
  · rintro ⟨rfl, rfl, rfl⟩
    exact ⟨⟨rfl, .inr rfl, .inr rfl⟩, rfl, rfl⟩

theorem load_scope (h : load_plugin_into_memory rows t = some row) : row.toScope = t := by
  rw [load_eq] at h
  simpa using find?_some h

theorem picked_scope (h : picked rows t = some row) : row.toScope = t :=
  load_scope (filter_eq_some_iff.mp h).1

/-- What a search finds in one place. -/
def seen (rows : List (Plugin C)) (cache : Cache C) (t : Scope) : Option (Plugin C) :=
  ((cache (cache_key t)).getD (load_plugin_into_memory rows t)).filter (·.enabled)

theorem load_plugin_configuration_fst : (load_plugin_configuration rows cache t).1 = seen rows cache t := by
  simp only [load_plugin_configuration, get_or_set_fst, seen]
  cases cache (cache_key t) <;> rfl

theorem load_plugin_configuration_snd : (load_plugin_configuration rows cache t).2 =
    Function.update cache (cache_key t) (some ((cache (cache_key t)).getD (load_plugin_into_memory rows t))) := by
  simp only [load_plugin_configuration, get_or_set_snd]
  cases cache (cache_key t) <;> rfl

/-- A row is cached for its own scope. -/
def Own (inst : Installation) (cache : Cache C) : Prop :=
  ∀ t row, Searched inst t → cache (cache_key t) = some (some row) → row.toScope = t

theorem seen_scope (hown : Own inst cache) (ht : Searched inst t) (h : seen rows cache t = some row) : row.toScope = t := by
  unfold seen at h
  cases hcache : cache (cache_key t) with
  | none =>
    rw [hcache] at h
    exact picked_scope h
  | some plugin =>
    rw [hcache] at h
    obtain ⟨rfl, -⟩ := filter_eq_some_iff.mp h
    exact hown t row ht hcache

theorem seen_load (rows : List (Plugin C)) (cache : Cache C) (hapart : KeysApart inst) (ht : Searched inst t) (ht' : Searched inst t') :
    seen rows (load_plugin_configuration rows cache t).2 t' = seen rows cache t' := by
  rw [load_plugin_configuration_snd, seen, seen]
  by_cases hkey : cache_key t' = cache_key t
  · cases hapart t' t ht' ht hkey
    rw [update_self]
    rfl
  · rw [update_of_ne hkey]

theorem Own.load (rows : List (Plugin C)) (hown : Own inst cache) (hapart : KeysApart inst) (ht : Searched inst t) :
    Own inst (load_plugin_configuration rows cache t).2 := by
  intro t' row ht' h
  rw [load_plugin_configuration_snd] at h
  by_cases hkey : cache_key t' = cache_key t
  · cases hapart t' t ht' ht hkey
    rw [update_self, some.injEq] at h
    cases hcache : cache (cache_key t) with
    | none =>
      rw [hcache] at h
      exact load_scope h
    | some plugin =>
      rw [hcache, getD_some] at h
      exact hown t row ht (h ▸ hcache)
  · rw [update_of_ne hkey] at h
    exact hown t' row ht' h

theorem findSome?_congr {f g : Scope → Option (Plugin C)} (h : ∀ t ∈ ts, f t = g t) : ts.findSome? f = ts.findSome? g := by
  induction ts with
  | nil => rfl
  | cons t ts ih =>
    rw [findSome?_cons, findSome?_cons, h t mem_cons_self, ih fun t ht => h t (mem_cons_of_mem _ ht)]

/-- A search finds what it would find in each place alone. -/
theorem search_fst (hapart : KeysApart inst) (hts : ∀ t ∈ ts, Searched inst t) :
    (search rows ts cache).1 = ts.findSome? (seen rows cache) := by
  induction ts generalizing cache with
  | nil => rfl
  | cons t ts ih =>
    have ht := hts t mem_cons_self
    have hrest : ∀ t ∈ ts, Searched inst t := fun t ht => hts t (mem_cons_of_mem _ ht)
    have hfst : (load_plugin_configuration rows cache t).1 = seen rows cache t := load_plugin_configuration_fst
    have hseen : ts.findSome? (seen rows (load_plugin_configuration rows cache t).2) = ts.findSome? (seen rows cache) :=
      findSome?_congr fun t' ht' => seen_load rows cache hapart ht (hrest t' ht')
    rw [search, findSome?_cons, ← hfst]
    split
    · next hload =>
      rw [hload]
    · next hload =>
      rw [hload] at hseen ⊢
      exact (ih hrest).trans hseen

theorem seen_search (hapart : KeysApart inst) (hts : ∀ t ∈ ts, Searched inst t) (ht' : Searched inst t') :
    seen rows (search rows ts cache).2 t' = seen rows cache t' := by
  induction ts generalizing cache with
  | nil => rfl
  | cons t ts ih =>
    have hload := seen_load rows cache hapart (hts t mem_cons_self) ht'
    rw [search]
    split
    · next heq =>
      rwa [heq] at hload
    · next heq =>
      rw [heq] at hload
      exact (ih fun t ht => hts t (mem_cons_of_mem _ ht)).trans hload

theorem Own.search (hown : Own inst cache) (hapart : KeysApart inst) (hts : ∀ t ∈ ts, Searched inst t) :
    Own inst (search rows ts cache).2 := by
  induction ts generalizing cache with
  | nil => exact hown
  | cons t ts ih =>
    have hload := hown.load rows hapart (hts t mem_cons_self)
    rw [PluginsIterator.search]
    split
    · next heq =>
      rwa [heq] at hload
    · next heq =>
      rw [heq] at hload
      exact ih hload fun t ht => hts t (mem_cons_of_mem _ ht)

theorem searches_searched {name : String} {api consumer_id : Option String} (h : Request inst name api consumer_id)
    (ht : t ∈ searches inst name api consumer_id) : Searched inst t := by
  obtain ⟨hname, hapi, hconsumer⟩ := h
  rcases mem_append.mp ht with ht | ht
  · rcases mem_append.mp ht with ht | ht
    · split at ht
      · split at ht
        · next hschema =>
          rcases mem_append.mp ht with ht | ht
          · obtain ⟨a, ha, rfl⟩ := map_eq_some_iff.mp (mem_toList.mp ht)
            exact ⟨⟨hname, by simpa [ha] using hapi, hconsumer⟩, fun _ => hschema⟩
          · obtain rfl := mem_singleton.mp ht
            exact ⟨⟨hname, by simp, hconsumer⟩, fun _ => hschema⟩
        · cases ht
      · cases ht
    · obtain ⟨a, ha, rfl⟩ := map_eq_some_iff.mp (mem_toList.mp ht)
      exact ⟨⟨hname, by simpa [ha] using hapi, by simp⟩, by simp⟩
  · obtain rfl := mem_singleton.mp ht
    exact ⟨⟨hname, by simp, by simp⟩, by simp⟩

/-- Each scope is where some request searches first. -/
theorem searches_head (ht : Searched inst t) :
    ∃ rest, searches inst t.name t.api_id t.consumer_id = t :: rest ∧ t ∉ rest := by
  obtain ⟨name, api_id, consumer_id⟩ := t
  have hschema := ht.2
  dsimp only at hschema
  cases api_id with
  | none =>
    cases consumer_id with
    | none => exact ⟨_, rfl, by simp⟩
    | some c => exact ⟨_, by simp only [searches, hschema (by simp)]; rfl, by simp⟩
  | some a =>
    cases consumer_id with
    | none => exact ⟨_, rfl, by simp⟩
    | some c => exact ⟨_, by simp only [searches, hschema (by simp)]; rfl, by simp⟩

/-- What is seen in each place is what the rows have. -/
def Coherent (inst : Installation) (s : System C) : Prop :=
  ∀ t, Searched inst t → seen s.rows s.cache t = picked s.rows t

/-- With an empty cache a search finds the first row that is enabled where it
looks. -/
theorem search_empty {name : String} {api consumer_id : Option String} (hapart : KeysApart inst)
    (h : Request inst name api consumer_id) :
    (search rows (searches inst name api consumer_id) fun _ => none).1 =
      (searches inst name api consumer_id).findSome? (picked rows) :=
  search_fst hapart fun _ ht => searches_searched h ht

theorem right_iff (hapart : KeysApart inst) (hown : Own inst s.cache) : Right inst s ↔ Coherent inst s := by
  constructor
  · intro hright t ht
    obtain ⟨rest, hsearches, hrest⟩ := searches_head ht
    have hall : ∀ t' ∈ t :: rest, Searched inst t' := fun t' ht' => searches_searched ht.1 (hsearches ▸ ht')
    have hpicks := hright.picks _ _ _ ht.1
    rw [search_empty hapart ht.1, hsearches, search_fst hapart hall, findSome?_cons, findSome?_cons] at hpicks
    -- a row that is found later is of another scope
    cases hseen : seen s.rows s.cache t with
    | some row =>
      rw [hseen] at hpicks
      cases hpicked : picked s.rows t with
      | some row' => simpa [hpicked] using hpicks
      | none =>
        rw [hpicked] at hpicks
        obtain ⟨t', ht', hrow⟩ := exists_of_findSome?_eq_some hpicks.symm
        have hscope := seen_scope hown ht hseen
        rw [picked_scope hrow] at hscope
        exact absurd (hscope ▸ ht') hrest
    | none =>
      rw [hseen] at hpicks
      cases hpicked : picked s.rows t with
      | none => rfl
      | some row =>
        rw [hpicked] at hpicks
        obtain ⟨t', ht', hrow⟩ := exists_of_findSome?_eq_some hpicks
        have hscope := seen_scope hown (hall t' (mem_cons_of_mem _ ht')) hrow
        rw [picked_scope hpicked] at hscope
        exact absurd (hscope ▸ ht') hrest
  · intro hcoherent
    refine ⟨hapart, fun name api consumer_id hrequest => ?_⟩
    rw [search_empty hapart hrequest, search_fst hapart fun t ht => searches_searched hrequest ht]
    exact findSome?_congr fun t ht => hcoherent t (searches_searched hrequest ht)

/-! ## Rows -/

theorem samePrimaryKey_iff {a b : Plugin C} : samePrimaryKey a b = true ↔ (a.id, a.name) = (b.id, b.name) := by
  simp [samePrimaryKey]

theorem samePrimaryKey_comm (a b : Plugin C) : samePrimaryKey a b = samePrimaryKey b a := by
  rw [Bool.eq_iff_iff, samePrimaryKey_iff, samePrimaryKey_iff]
  exact eq_comm

/-- Rows with the primary key of one row have it of another one with that key. -/
theorem samePrimaryKey_congr {a b c : Plugin C} (h : samePrimaryKey b c = true) : samePrimaryKey a b = samePrimaryKey a c := by
  rw [Bool.eq_iff_iff, samePrimaryKey_iff, samePrimaryKey_iff, samePrimaryKey_iff.mp h]

/-- No two rows have one primary key. -/
def Keyed (rows : List (Plugin C)) : Prop := rows.Pairwise fun a b => samePrimaryKey a b = false

instance : Std.Symm fun a b : Plugin C => samePrimaryKey a b = false where
  symm a b h := (samePrimaryKey_comm b a).trans h

theorem Keyed.eq {a b : Plugin C} (h : Keyed rows) (ha : a ∈ rows) (hb : b ∈ rows) (hab : samePrimaryKey a b = true) :
    a = b := by
  by_contra hne
  have hdiff := List.Pairwise.forall h ha hb hne
  rw [hab] at hdiff
  cases hdiff

theorem samePrimaryKey_replace (r : Plugin C) :
    samePrimaryKey (if samePrimaryKey r row then row else r) = samePrimaryKey r := by
  split
  · next h =>
    funext c
    rw [samePrimaryKey_comm, samePrimaryKey_comm r, samePrimaryKey_congr h]
  · rfl

theorem Keyed.replace (h : Keyed rows) : Keyed (replace rows row) := by
  refine pairwise_map.mpr (h.imp fun {a b} hab => ?_)
  rw [samePrimaryKey_replace, samePrimaryKey_comm, samePrimaryKey_replace, samePrimaryKey_comm, hab]

/-- The new row is the one with the primary key. -/
theorem Keyed.filter_replace (h : Keyed rows) (hold : old ∈ rows) (hkey : samePrimaryKey old row = true) :
    (PluginsIterator.replace rows row).filter (samePrimaryKey · old) = [row] := by
  induction rows with
  | nil => cases hold
  | cons r rows ih =>
    obtain ⟨hr, hrows⟩ := pairwise_cons.mp h
    rw [PluginsIterator.replace, map_cons, filter_cons, samePrimaryKey_replace]
    rcases mem_cons.mp hold with rfl | hold
    · have hself : samePrimaryKey old old = true := samePrimaryKey_iff.mpr rfl
      rw [if_pos hself, if_pos hkey, filter_eq_nil_iff.mpr]
      intro r' hr' hsame
      obtain ⟨r, hmem, rfl⟩ := mem_map.mp hr'
      rw [samePrimaryKey_replace, samePrimaryKey_comm, hr r hmem] at hsame
      cases hsame
    · rw [if_neg (by simp [hr old hold])]
      exact ih hrows hold

theorem picked_append (ht : row.toScope ≠ t) : picked (rows ++ [row]) t = picked rows t := by
  rw [picked, picked, load_eq, load_eq, find?_append, find?_cons_of_neg (by simpa using ht)]
  simp

theorem picked_filter {p : Plugin C → Bool} (hp : ∀ r ∈ rows, p r = false → r.toScope ≠ t) :
    picked (rows.filter p) t = picked rows t := by
  rw [picked, picked, load_eq, load_eq]
  congr 1
  induction rows with
  | nil => rfl
  | cons r rows ih =>
    have hrest := ih fun r hr => hp r (mem_cons_of_mem _ hr)
    by_cases hr : p r = true
    · rw [filter_cons_of_pos hr, find?_cons, find?_cons, hrest]
    · rw [filter_cons_of_neg hr, find?_cons_of_neg, hrest]
      simpa using hp r mem_cons_self (by simpa using hr)

theorem picked_replace (hrow : row.toScope ≠ t) (hold : ∀ r ∈ rows, samePrimaryKey r row = true → r.toScope ≠ t) :
    picked (replace rows row) t = picked rows t := by
  rw [picked, picked, load_eq, load_eq]
  congr 1
  induction rows with
  | nil => rfl
  | cons r rows ih =>
    have hrest := ih fun r hr => hold r (mem_cons_of_mem _ hr)
    rw [replace, map_cons]
    split
    · next hkey =>
      rw [find?_cons_of_neg (by simpa using hrow), find?_cons_of_neg (by simpa using hold r mem_cons_self hkey)]
      exact hrest
    · rw [find?_cons, find?_cons]
      split
      · rfl
      · exact hrest

/-! ## Events -/

theorem publish_created (rows : List (Plugin C)) (row : Plugin C) : publish s rows (.created row) =
    { rows, cache := delete s.cache (cache_key row.toScope) } := rfl

theorem publish_deleted (rows : List (Plugin C)) (row : Plugin C) : publish s rows (.deleted row) =
    { rows, cache := delete s.cache (cache_key row.toScope) } := rfl

theorem publish_updated (h : rows.filter (samePrimaryKey · old) = [row]) : publish s rows (.updated old) =
    { rows, cache := delete s.cache (cache_key old.toScope) } := by
  rw [publish, receive, h]
  rfl

/-- What a change of rows does, of which only some scopes are concerned. -/
theorem Coherent.change_iff (ts : List Scope) {deleted : Scope} (h : Coherent inst s)
    (hrows : ∀ t, t ∉ ts → picked rows t = picked s.rows t) :
    Coherent inst { rows, cache := delete s.cache (cache_key deleted) } ↔ ∀ t ∈ ts, Keeps inst s rows deleted t := by
  have hseen : ∀ t, Searched inst t → (seen rows (delete s.cache (cache_key deleted)) t = picked rows t ↔
      s.cache (cache_key t) = none ∨ cache_key t = cache_key deleted ∨ picked rows t = picked s.rows t) := by
    intro t ht
    by_cases hkey : cache_key t = cache_key deleted
    · refine iff_of_true ?_ (.inr (.inl hkey))
      rw [seen, hkey, delete, update_self]
      rfl
    · have hwas := h t ht
      rw [seen] at hwas ⊢
      rw [delete, update_of_ne hkey]
      cases hcache : s.cache (cache_key t) with
      | none => exact iff_of_true rfl (.inl rfl)
      | some plugin =>
        rw [hcache, getD_some] at hwas
        rw [getD_some, hwas]
        simp [hkey, eq_comm]
  constructor
  · intro hafter t _ hsearched
    exact (hseen t hsearched).mp (hafter t hsearched)
  · intro hkeeps t hsearched
    refine (hseen t hsearched).mpr ?_
    by_cases ht : t ∈ ts
    · exact hkeeps t ht hsearched
    · exact .inr (.inr (hrows t ht))

theorem Own.delete (hown : Own inst cache) (key : String) : Own inst (delete cache key) := by
  intro t row ht h
  by_cases hkey : cache_key t = key
  · rw [OneMemory.delete, hkey, update_self] at h
    cases h
  · rw [OneMemory.delete, update_of_ne hkey] at h
    exact hown t row ht h

structure Inv (inst : Installation) (s : System C) : Prop where
  keyed : Keyed s.rows
  own : Own inst s.cache

/-- The row that is written to is the one with the primary key. -/
theorem Keyed.replaced (h : Keyed rows) (hold : old ∈ rows) (hkey : samePrimaryKey old row = true) (hrow : row.toScope ≠ t)
    (ht : old.toScope ≠ t) : picked (PluginsIterator.replace rows row) t = picked rows t := by
  refine picked_replace hrow fun r hr hsame => ?_
  cases h.eq hr hold (by rwa [samePrimaryKey_congr hkey])
  exact ht

theorem Inv.insert {cassandra : Bool} (h : Inv inst s) : Inv inst (insert inst cassandra s row) ∧
    (Coherent inst s → (Coherent inst (insert inst cassandra s row) ↔ Careful inst cassandra s (.insert row))) := by
  unfold PluginsIterator.insert
  split
  · next hrefused =>
    refine ⟨h, fun hc => iff_of_true hc fun _ _ haccepted _ hnone => ?_⟩
    rcases hrefused with hrefused | hrefused
    · exact absurd haccepted hrefused
    · rw [hnone] at hrefused
      cases hrefused
  · next haccepted =>
    simp only [not_or, Bool.not_eq_true, Bool.not_eq_false] at haccepted
    cases hfind : s.rows.find? (samePrimaryKey · row) with
    | none =>
      dsimp only
      rw [publish_created]
      have hkeyed : Keyed (s.rows ++ [row]) := by
        refine pairwise_append.mpr ⟨h.keyed, pairwise_singleton _ _, fun a ha b hb => ?_⟩
        obtain rfl := mem_singleton.mp hb
        simpa using find?_eq_none.mp hfind a ha
      refine ⟨⟨hkeyed, h.own.delete _⟩, fun hc => iff_of_true ?_ fun old hold => by rw [hfind] at hold; cases hold⟩
      refine (hc.change_iff [row.toScope] fun t ht => picked_append fun heq => ht (by simp [heq])).mpr fun t ht => ?_
      obtain rfl := mem_singleton.mp ht
      exact fun _ => .inr (.inl rfl)
    | some old =>
      dsimp only
      have hmem := mem_of_find?_eq_some hfind
      have hkey : samePrimaryKey old row = true := find?_some (p := (samePrimaryKey · row)) hfind
      split
      · next hcassandra =>
        rw [publish_created]
        refine ⟨⟨h.keyed.replace, h.own.delete _⟩, fun hc => ?_⟩
        rw [hc.change_iff [old.toScope, (merged old row).toScope] fun t ht => ?_]
        · constructor
          · rintro hkeeps _ hold - - -
            cases hfind.symm.trans hold
            exact hkeeps old.toScope (by simp)
          · intro hcareful t ht
            rcases mem_pair.mp ht with rfl | rfl
            · exact hcareful old hfind haccepted.1 hcassandra haccepted.2
            · exact fun _ => .inr (.inl rfl)
        · simp only [mem_pair, not_or] at ht
          exact h.keyed.replaced hmem hkey (Ne.symm ht.2) (Ne.symm ht.1)
      · next hpostgres => exact ⟨h, fun hc => iff_of_true hc fun _ _ _ hcassandra => absurd hcassandra hpostgres⟩

theorem Inv.update (h : Inv inst s) {cassandra : Bool} : Inv inst (update inst s row) ∧
    (Coherent inst s → (Coherent inst (update inst s row) ↔ Careful inst cassandra s (.update row))) := by
  unfold PluginsIterator.update
  cases hfind : s.rows.find? (samePrimaryKey · row) with
  | none => exact ⟨h, fun hc => iff_of_true hc fun old hold => by rw [hfind] at hold; cases hold⟩
  | some old =>
    dsimp only
    have hmem := mem_of_find?_eq_some hfind
    have hkey : samePrimaryKey old row = true := find?_some (p := (samePrimaryKey · row)) hfind
    split
    · next haccepted =>
      rw [publish_updated (h.keyed.filter_replace hmem hkey)]
      refine ⟨⟨h.keyed.replace, h.own.delete _⟩, fun hc => ?_⟩
      rw [hc.change_iff [old.toScope, row.toScope] fun t ht => ?_]
      · constructor
        · rintro hkeeps _ hold -
          cases hfind.symm.trans hold
          exact hkeeps row.toScope (by simp)
        · intro hcareful t ht
          rcases mem_pair.mp ht with rfl | rfl
          · exact fun _ => .inr (.inl rfl)
          · exact hcareful old hfind haccepted
      · simp only [mem_pair, not_or] at ht
        exact h.keyed.replaced hmem hkey (Ne.symm ht.2) (Ne.symm ht.1)
    · next hrefused => exact ⟨h, fun hc => iff_of_true hc fun _ _ haccepted => absurd haccepted hrefused⟩

theorem Inv.remove (h : Inv inst s) : Inv inst (remove s row) ∧ (Coherent inst s → Coherent inst (remove s row)) := by
  unfold PluginsIterator.remove
  cases hfind : s.rows.find? (samePrimaryKey · row) with
  | none => exact ⟨h, id⟩
  | some old =>
    dsimp only
    have hmem := mem_of_find?_eq_some hfind
    have hkey : samePrimaryKey old row = true := find?_some (p := (samePrimaryKey · row)) hfind
    rw [publish_deleted]
    refine ⟨⟨h.keyed.sublist filter_sublist, h.own.delete _⟩, fun hc => ?_⟩
    refine (hc.change_iff [old.toScope] fun t ht => picked_filter fun r hr hsame => ?_).mpr ?_
    · cases h.keyed.eq hr hmem (by rw [samePrimaryKey_congr hkey]; simpa using hsame)
      exact fun heq => ht (by simp [heq])
    · intro t ht
      obtain rfl := mem_singleton.mp ht
      exact fun _ => .inr (.inl rfl)

theorem Inv.step {cassandra : Bool} {e : Event C} (h : Inv inst s) (hapart : KeysApart inst)
    (hstep : step inst cassandra s e = some s') :
    Inv inst s' ∧ (Coherent inst s → (Coherent inst s' ↔ Careful inst cassandra s e)) := by
  cases e with
  | request name api consumer_id =>
    simp only [PluginsIterator.step, ite_none_right_eq_some, some.injEq] at hstep
    obtain ⟨hrequest, rfl⟩ := hstep
    have hsearched : ∀ t ∈ searches inst name api consumer_id, Searched inst t := fun t ht => searches_searched hrequest ht
    exact ⟨⟨h.keyed, h.own.search hapart hsearched⟩,
      fun hc => iff_of_true (fun t ht => (seen_search hapart hsearched ht).trans (hc t ht)) trivial⟩
  | insert row =>
    cases hstep
    exact h.insert
  | update row =>
    cases hstep
    exact h.update
  | delete row =>
    cases hstep
    exact ⟨h.remove.1, fun hc => iff_of_true (h.remove.2 hc) trivial⟩
  | evict key =>
    cases hstep
    refine ⟨⟨h.keyed, h.own.delete key⟩, fun hc => iff_of_true (fun t ht => ?_) trivial⟩
    by_cases hkey : cache_key t = key
    · simp only [seen, delete, hkey, update_self]
      rfl
    · have hwas := hc t ht
      simp only [seen, delete, update_of_ne hkey] at hwas ⊢
      exact hwas

def empty (C : Type) : System C where
  rows := []
  cache _ := none

/-- **A request gets from the cache what it would get without one, and scopes never
share a key, in exactly the runs over scopes whose keys differ in which no row is
moved to a scope that something else is cached for.** -/
theorem picks_right_iff_careful {cassandra : Bool} {evs : List (Event C)} :
    Always (step inst cassandra) (Right inst) (empty C) evs ↔
      KeysApart inst ∧ Along (step inst cassandra) (Careful inst cassandra) (empty C) evs := by
  have hrun : KeysApart inst → (Always (step inst cassandra) (Right inst) (empty C) evs ↔
      Along (step inst cassandra) (Careful inst cassandra) (empty C) evs) := by
    intro hapart
    have hinv : Inv inst (empty C) := ⟨List.Pairwise.nil, by simp [Own, empty]⟩
    refine always_iff_along (I := fun s => Inv inst s ∧ Coherent inst s) (fun s h => (right_iff hapart h.1.own).mpr h.2) ?_
      ?_ ⟨hinv, fun _ _ => rfl⟩
    · rintro s e s' ⟨h, hc⟩ hstep hcareful
      obtain ⟨h', hiff⟩ := h.step hapart hstep
      exact ⟨h', (hiff hc).mpr hcareful⟩
    · rintro s e s' ⟨h, hc⟩ hstep hright
      obtain ⟨h', hiff⟩ := h.step hapart hstep
      exact (hiff hc).mp ((right_iff hapart h'.own).mp hright)
  constructor
  · intro h
    exact ⟨h.here.apart, (hrun h.here.apart).mp h⟩
  · rintro ⟨hapart, h⟩
    exact (hrun hapart).mpr h

/-! ## Keys -/

/-- The name and the ids, of which a key is made. -/
def keyParts (t : Scope) : List String := "plugins" :: t.name :: (t.api_id.toList ++ t.consumer_id.toList)

theorem cache_key_eq (t : Scope) : cache_key t = Lib.join ':' (keyParts t) := by
  obtain ⟨name, api_id, consumer_id⟩ := t
  cases api_id <;> cases consumer_id <;>
    simp [cache_key, plugin_key, keyParts, Lib.join, String.intercalate_cons_cons, String.append_assoc]

/-- Where names and ids have no colon, keys differ when no API has the id of a
consumer, or no plugin takes consumers. -/
theorem keysApart_iff (hname : ∀ name ∈ inst.loaded_plugins, ':' ∉ name.toList) (hapi : ∀ id ∈ inst.apis, ':' ∉ id.toList)
    (hconsumer : ∀ id ∈ inst.consumers, ':' ∉ id.toList) :
    KeysApart inst ↔ ∀ name ∈ inst.loaded_plugins, inst.schemas name = some false → ∀ id ∈ inst.apis, id ∉ inst.consumers := by
  have hparts : ∀ t, Searched inst t → ∀ part ∈ keyParts t, ':' ∉ part.toList := by
    rintro t ⟨⟨hn, ha, hc⟩, -⟩ part hpart
    simp only [keyParts, mem_cons, mem_append, mem_toList] at hpart
    rcases hpart with rfl | rfl | hpart | hpart
    · decide
    · exact hname _ hn
    · exact hapi _ (ha _ hpart)
    · exact hconsumer _ (hc _ hpart)
  constructor
  · intro hapart name hn hschema id ha hc
    have heq := hapart ⟨name, some id, none⟩ ⟨name, none, some id⟩ ⟨⟨hn, by simpa using ha, by simp⟩, by simp⟩
      ⟨⟨hn, by simp, by simpa using hc⟩, fun _ => hschema⟩ (by simp [cache_key, plugin_key])
    cases heq
  · rintro hids ⟨name, api_id, consumer_id⟩ ⟨name', api_id', consumer_id'⟩ ht ht' hkey
    rw [cache_key_eq, cache_key_eq] at hkey
    have heq := Lib.join_inj (hparts _ ht) (hparts _ ht') (by simp [keyParts]) (by simp [keyParts]) hkey
    obtain ⟨⟨hn, ha, hc⟩, hschema⟩ := ht
    obtain ⟨⟨hn', ha', hc'⟩, hschema'⟩ := ht'
    simp only [keyParts, List.cons.injEq, true_and] at heq
    obtain ⟨rfl, heq⟩ := heq
    -- an API's id in the place of a consumer's, or the other way, is all that is left
    cases api_id <;> cases consumer_id <;> cases api_id' <;> cases consumer_id' <;> simp_all
    · exact hids name hn' (by assumption) _ (by assumption) (by assumption)
    · exact hids name hn' (by assumption) _ (by assumption) (by assumption)

def oneApi : Installation where
  loaded_plugins := ["cors"]
  schemas _ := some true
  apis := ["1"]
  consumers := []

theorem keysApart_oneApi : KeysApart oneApi :=
  (keysApart_iff (by decide) (by decide) (by decide)).mpr (by simp [oneApi])

def cors (api_id : Option String) : Plugin String :=
  { name := "cors", api_id, consumer_id := none, id := "2", enabled := true, config := "*" }

/-- A plugin of one API becomes a plugin of all of them after a request has found
no such plugin. -/
def movedToAll : List (Event String) :=
  [.insert (cors (some "1")), .request "cors" none none, .update (cors none)]

/-- The next request finds none either. -/
theorem not_right_movedToAll : ¬Always (step oneApi false) (Right oneApi) (empty String) movedToAll := by
  intro h
  obtain ⟨s, hrun⟩ : ∃ s, run (step oneApi false) (empty String) movedToAll = some s :=
    isSome_iff_exists.mp (by decide +kernel)
  have hcached : (run (step oneApi false) (empty String) movedToAll).map
      (fun s => (search s.rows (searches oneApi "cors" none none) s.cache).1.map Plugin.config) = some none := by
    decide +kernel
  have hempty : (run (step oneApi false) (empty String) movedToAll).map
      (fun s => (search s.rows (searches oneApi "cors" none none) fun _ => none).1.map Plugin.config) = some (some "*") := by
    decide +kernel
  rw [hrun, map_some, some.injEq] at hcached hempty
  rw [(h.reached hrun).picks "cors" none none (by decide), hempty] at hcached
  cases hcached

end OpenResty.Kong.PluginsIterator
