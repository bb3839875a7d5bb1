/-
`kong.tools.database_cache`: what is read from the database, kept by each
worker in its own memory and by all in shared memory, until the event of an
update deletes it.

A call of `get_or_set` is cut into its steps, between which other calls, updates
and events can come. Nothing keeps a call from storing what it read before an
update whose event has already come.
-/
import Mathlib.Logic.IsEmpty.Basic
import OpenResty.Lib.Transition

namespace OpenResty.Kong.DatabaseCache

open Lib.Transition Function Option List

/-! ## Memories -/

/-- A value as it is stored: in a table with the time when it expires, or as it
is. -/
structure Stored (V : Type) where
  value : V
  expire : Option Nat

/-- `json_encode`, which can fail, and `json_decode`. -/
structure Json (V T : Type) where
  encode : Stored V → Option T
  decode : T → Option (Stored V)
  decode_encode : ∀ x t, encode x = some t → decode t = some x

variable {ι γ K V T M : Type} [DecidableEq ι] [DecidableEq γ] [DecidableEq K] [DecidableEq M]

/-- `DATA`, the memory of one worker, less what it evicts. -/
abbrev Data (K V : Type) := K → Option (Stored V)

/-- `ngx.shared.cache`, with the time when an item expires. -/
abbrev Shared (K T : Type) := K → Option (T × Option Nat)

def sh_set (now : Nat) (cache : Shared K T) (key : K) (value : Option T) (exptime : Nat) : Shared K T :=
  update cache key (value.map fun t => (t, if exptime = 0 then none else some (now + exptime)))

def sh_get (now : Nat) (cache : Shared K T) (key : K) : Option T :=
  match cache key with
  | some (value, none) => some value
  | some (value, some expires) => if now ≤ expires then some value else none
  | none => none

def sh_delete (cache : Shared K T) (key : K) : Shared K T := update cache key none

/-- Without a time to live `exptime` is 0. -/
def set (json : Json V T) (now : Nat) (data : Data K V) (cache : Shared K T) (key : K) (value : V) (exptime : Nat) :
    Data K V × Shared K T :=
  let value : Stored V := { value, expire := if exptime = 0 then none else some (now + exptime) }
  (update data key (some value), sh_set now cache key (json.encode value) exptime)

/-- The first half of `get`: the memory of the worker. -/
def getLocal (now : Nat) (data : Data K V) (key : K) : Option V × Data K V :=
  match data key with
  | none => (none, data)
  | some { value, expire := none } => (some value, data)
  | some { value, expire := some expire } =>
    if now ≤ expire then (some value, data) else (none, update data key none)

/-- The second half of `get`, when there was nothing in the first. -/
def getShared (json : Json V T) (now : Nat) (data : Data K V) (cache : Shared K T) (key : K) : Option V × Data K V :=
  match sh_get now cache key with
  | none => (none, data)
  | some text =>
    let value := json.decode text
    (value.map Stored.value, update data key value)

def delete (memory : Data K V × Shared K T) (key : K) : Data K V × Shared K T :=
  (update memory.1 key none, sh_delete memory.2 key)

/-! ## Events of updates -/

/-- What `invalidate` reads of the message of an event, by its collection. -/
inductive Message
  | consumers (id : String)
  /-- with the name, `api_id` and `consumer_id` of the entity, and of the old one -/
  | plugins (entity : String × Option String × Option String)
      (old_entity : Option (String × Option String × Option String))
  | targets (upstream_id : String)
  | upstreams (id : String)
  /-- with `snis` of the entity, when that is a table, and of the old one -/
  | ssl_certificates (entity : Option (List String)) (old_entity : Option (Option (List String)))
  | ssl_servers_names (name : String)
  | other
  deriving DecidableEq

def consumer_key (id : String) : String := "consumers:" ++ id

def plugin_key (name : String) (api_id consumer_id : Option String) : String :=
  "plugins:" ++ name ++ (api_id.map (":" ++ ·)).getD "" ++ (consumer_id.map (":" ++ ·)).getD ""

def certificate_key (sni : String) : String := "certificates:" ++ sni

def upstreams_dict_key : String := "upstreams"

def upstream_key (upstream_id : String) : String := "upstreams:" ++ upstream_id

def targets_key (upstream_id : String) : String := "targets:" ++ upstream_id

/-- The keys that `invalidate` deletes, in order. -/
def invalidate : Message → List String
  | .consumers id => [consumer_key id]
  | .plugins entity old_entity =>
    let (name, api_id, consumer_id) := old_entity.getD entity
    [plugin_key name api_id consumer_id]
  | .targets upstream_id => [targets_key upstream_id]
  | .upstreams id => [upstreams_dict_key, upstream_key id, targets_key id]
  | .ssl_certificates entity old_entity => ((old_entity.getD entity).getD []).map certificate_key
  | .ssl_servers_names name => [certificate_key name]
  | .other => []

/-! ## Steps -/

/-- Where a call of `get_or_set` is; `second` when it has the lock. -/
inductive Pc (V : Type)
  | local (second : Bool)
  | shared (second : Bool)
  | locking
  /-- about to call `cb` -/
  | loading
  /-- with what `cb` read -/
  | storing (value : Option V)
  | unlocking (value : Option V)
  | returned (value : Option V)

structure Call (ι K V : Type) where
  worker : ι
  key : K
  ttl : Nat
  pc : Pc V

structure System (ι γ K V T M : Type) where
  now : Nat
  /-- what `cb` reads for a key -/
  db : K → Option V
  data : ι → Data K V
  cache : Shared K T
  /-- the keys of `cache_locks` that are locked -/
  locks : K → Bool
  /-- the messages that are still to come to a worker -/
  pending : ι → List M
  calls : γ → Option (Call ι K V)

inductive Event (ι γ K V M : Type)
  | call (c : γ) (w : ι) (key : K) (ttl : Nat)
  /-- the next step of a call -/
  | next (c : γ)
  /-- a call that waits for the lock gives up -/
  | timeout (c : γ)
  /-- the database changes, at keys of the message -/
  | update (m : M) (values : K → Option V)
  | deliver (w : ι) (m : M)
  | delete_all (w : ι)
  /-- the memory of a worker, the shared one or the lock loses a key -/
  | evict (w : ι) (key : K)
  | drop (key : K)
  | expire (key : K)
  | tick

/-- A value is found, which is returned at once or when the lock is left. -/
def Pc.found (second : Bool) (value : V) : Pc V := if second then .unlocking (some value) else .returned (some value)

def System.goto (s : System ι γ K V T M) (c : γ) (call : Call ι K V) (pc : Pc V) : System ι γ K V T M :=
  { s with calls := update s.calls c (some { call with pc }) }

def System.remember (s : System ι γ K V T M) (w : ι) (data : Data K V) : System ι γ K V T M :=
  { s with data := update s.data w data }

/-- The next step of `get_or_set` -/
def advance (json : Json V T) (s : System ι γ K V T M) (c : γ) (call : Call ι K V) : Option (System ι γ K V T M) :=
  match call.pc with
  | .local second =>
    let (value, data) := getLocal s.now (s.data call.worker) call.key
    some ((s.remember call.worker data).goto c call ((value.map (Pc.found second)).getD (.shared second)))
  | .shared second =>
    let (value, data) := getShared json s.now (s.data call.worker) s.cache call.key
    some ((s.remember call.worker data).goto c call
      ((value.map (Pc.found second)).getD (if second then .loading else .locking)))
  | .locking =>
    if s.locks call.key then none
    else some ({ s with locks := update s.locks call.key true }.goto c call (.local true))
  | .loading => some (s.goto c call (.storing (s.db call.key)))
  | .storing none => some (s.goto c call (.unlocking none))
  | .storing (some value) =>
    let (data, cache) := set json s.now (s.data call.worker) s.cache call.key value call.ttl
    some (({ s with cache }.remember call.worker data).goto c call (.unlocking (some value)))
  | .unlocking value => some ({ s with locks := update s.locks call.key false }.goto c call
      (.returned value))
  | .returned _ => none

def Call.running (call : Call ι K V) : Bool :=
  match call.pc with
  | .returned _ => false
  | _ => true

def step (json : Json V T) (invalidated : M → List K) (s : System ι γ K V T M) :
    Event ι γ K V M → Option (System ι γ K V T M)
  | .call c worker key ttl =>
    if (s.calls c).any Call.running then none
    else some { s with calls := update s.calls c (some { worker, key, ttl, pc := .local false }) }
  | .next c => (s.calls c).bind (advance json s c)
  | .timeout c =>
    match s.calls c with
    | some { worker, key, ttl, pc := .locking } =>
        some (s.goto c { worker, key, ttl, pc := .locking } (.returned none))
    | _ => none
  | .update m values =>
    some { s with
      db := fun key => if key ∈ invalidated m then values key else s.db key
      pending := fun w => m :: s.pending w }
  | .deliver w m =>
    if m ∈ s.pending w then
      let (data, cache) := (invalidated m).foldl delete (s.data w, s.cache)
      some ({ s with cache, pending := update s.pending w ((s.pending w).erase m) }.remember w data)
    else none
  | .delete_all w => some ({ s with cache := fun _ => none }.remember w fun _ => none)
  | .evict w key => some (s.remember w (update (s.data w) key none))
  | .drop key => some { s with cache := sh_delete s.cache key }
  | .expire key => some { s with locks := update s.locks key false }
  | .tick => some { s with now := s.now + 1 }

/-- Nothing is cached yet. -/
def start (db : K → Option V) : System ι γ K V T M :=
  { now := 0, db, data := fun _ _ => none, cache := fun _ => none, locks := fun _ => false, pending := fun _ => [],
    calls := fun _ => none }

/-! ## What is promised -/

variable {json : Json V T} {invalidated : M → List K} {s s' : System ι γ K V T M} {c : γ} {w w' : ι} {key key' : K}

/-- A message is still to come to the worker that deletes the key. -/
def Due (invalidated : M → List K) (s : System ι γ K V T M) (w : ι) (key : K) : Prop :=
  ∃ m ∈ s.pending w, key ∈ invalidated m

/-- A value that is no longer the one in the database is not cached without a
message to come: by a worker none to that worker, in shared memory none at all. -/
structure Covered (json : Json V T) (invalidated : M → List K) (s : System ι γ K V T M) : Prop where
  data : ∀ w key x, s.data w key = some x → s.db key = some x.value ∨ Due invalidated s w key
  cache : ∀ key text expires x, s.cache key = some (text, expires) → json.decode text = some x →
    s.db key = some x.value ∨ ∃ w, Due invalidated s w key

/-- All calls have returned, and all messages have come. -/
def Quiet (s : System ι γ K V T M) : Prop := (∀ c, (s.calls c).any Call.running = false) ∧ ∀ w, s.pending w = []

/-- A call on its own returns what is in the database. -/
def Answers (json : Json V T) (invalidated : M → List K) (s : System ι γ K V T M) : Prop :=
  ∀ c w key ttl, ∃ n s', run (step json invalidated) s (.call c w key ttl :: replicate n (.next c)) = some s' ∧
    s'.calls c = some { worker := w, key, ttl, pc := .returned (s.db key) }

def Right (json : Json V T) (invalidated : M → List K) (s : System ι γ K V T M) : Prop :=
  Covered json invalidated s ∧ (Quiet s → Answers json invalidated s)

/-- What a worker puts in its memory, loaded or from shared memory, is what is in
the database, or a message is still to come to it. -/
def Careful (json : Json V T) (invalidated : M → List K) (s : System ι γ K V T M) : Event ι γ K V M → Prop
  | .next c => ∀ call, s.calls c = some call →
    match call.pc with
    | .storing (some value) => s.db call.key = some value ∨ Due invalidated s call.worker call.key
    | .shared _ => ∀ value, (getShared json s.now (s.data call.worker) s.cache call.key).1 = some value →
      s.db call.key = some value ∨ Due invalidated s call.worker call.key
    | _ => True
  | _ => True

/-! ## The memories -/

variable {now : Nat} {data data' : Data K V} {cache : Shared K T} {value : V} {second : Bool}

variable {x : Stored V}

theorem getLocal_shrinks (h : (getLocal now data key).2 key' = some x) : data key' = some x := by
  unfold getLocal at h
  split at h
  · exact h
  · exact h
  · split at h
    · exact h
    · dsimp only at h
      by_cases hkey : key' = key
      · rw [hkey, update_self] at h
        cases h
      · rwa [update_of_ne hkey] at h

theorem getLocal_some (h : (getLocal now data key).1 = some value) : ∃ x, data key = some x ∧ x.value = value := by
  unfold getLocal at h
  split at h
  · cases h
  · next hdata =>
    cases h
    exact ⟨_, hdata, rfl⟩
  · next hdata =>
    split at h
    · cases h
      exact ⟨_, hdata, rfl⟩
    · cases h

omit [DecidableEq K] in
theorem sh_get_some {text : T} (h : sh_get now cache key = some text) :
    ∃ expires, cache key = some (text, expires) := by
  unfold sh_get at h
  split at h
  · next hcache =>
    cases h
    exact ⟨_, hcache⟩
  · next hcache =>
    split at h
    · cases h
      exact ⟨_, hcache⟩
    · cases h
  · cases h

/-- What `get` finds in shared memory, it keeps. -/
theorem getShared_puts (h : (getShared json now data cache key).2 key' = some x) :
    data key' = some x ∨ key' = key ∧ (getShared json now data cache key).1 = some x.value := by
  unfold getShared at h ⊢
  split at h
  · exact .inl h
  · next text htext =>
    dsimp only at h ⊢
    by_cases hkey : key' = key
    · rw [hkey, update_self] at h
      exact .inr ⟨hkey, by rw [h, map_some]⟩
    · rw [update_of_ne hkey] at h
      exact .inl h

theorem getShared_keeps (h : (getShared json now data cache key).1 = some value) :
    ∃ x, (getShared json now data cache key).2 key = some x ∧ x.value = value := by
  unfold getShared at h ⊢
  split at h
  · cases h
  · obtain ⟨x, hx, hvalue⟩ := map_eq_some_iff.mp h
    exact ⟨x, (update_self ..).trans hx, hvalue⟩

theorem getShared_some (h : (getShared json now data cache key).1 = some value) :
    ∃ text expires x, cache key = some (text, expires) ∧ json.decode text = some x ∧ x.value = value := by
  unfold getShared at h
  split at h
  · cases h
  · next text htext =>
    obtain ⟨x, hx, hvalue⟩ := map_eq_some_iff.mp h
    obtain ⟨expires, hcache⟩ := sh_get_some htext
    exact ⟨text, expires, x, hcache, hx, hvalue⟩

theorem set_data {exptime : Nat} (h : (set json now data cache key value exptime).1 key' = some x) :
    data key' = some x ∨ key' = key ∧ x.value = value := by
  simp only [set] at h
  by_cases hkey : key' = key
  · rw [hkey, update_self] at h
    cases h
    exact .inr ⟨hkey, rfl⟩
  · rw [update_of_ne hkey] at h
    exact .inl h

theorem set_cache (data : Data K V) {exptime : Nat} {text : T} {expires : Option Nat}
    (h : (set json now data cache key value exptime).2 key' = some (text, expires)) (hx : json.decode text = some x) :
    cache key' = some (text, expires) ∨ key' = key ∧ x.value = value := by
  simp only [set, sh_set] at h
  by_cases hkey : key' = key
  · rw [hkey, update_self] at h
    obtain ⟨t, ht, heq⟩ := map_eq_some_iff.mp h
    cases heq
    rw [json.decode_encode _ _ ht] at hx
    cases hx
    exact .inr ⟨hkey, rfl⟩
  · rw [update_of_ne hkey] at h
    exact .inl h

theorem foldl_delete (keys : List K) (memory : Data K V × Shared K T) (key : K) :
    (keys.foldl delete memory).1 key = (if key ∈ keys then none else memory.1 key) ∧
      (keys.foldl delete memory).2 key = if key ∈ keys then none else memory.2 key := by
  induction keys generalizing memory with
  | nil => simp
  | cons k keys ih =>
    rw [foldl_cons, (ih _).1, (ih _).2]
    unfold delete sh_delete
    by_cases hk : key = k
    · subst hk
      simp
    · simp [hk]

/-! ## What the steps keep -/

omit [DecidableEq ι] [DecidableEq γ] [DecidableEq K] [DecidableEq M] in
/-- A step that changes only memories keeps them covered if what it puts there is. -/
theorem Covered.puts (h : Covered json invalidated s) (hdb : s'.db = s.db) (hpending : s'.pending = s.pending)
    (hdata : ∀ w key x, s'.data w key = some x →
      s.data w key = some x ∨ s.db key = some x.value ∨ Due invalidated s w key)
    (hcache : ∀ key text expires x, s'.cache key = some (text, expires) → json.decode text = some x →
      s.cache key = some (text, expires) ∨ s.db key = some x.value ∨ ∃ w, Due invalidated s w key) :
    Covered json invalidated s' := by
  refine ⟨fun w key x hx => ?_, fun key text expires x htext hx => ?_⟩
  · unfold Due
    rw [hdb, hpending]
    exact (hdata w key x hx).elim (h.data w key x) id
  · unfold Due
    rw [hdb, hpending]
    exact (hcache key text expires x htext hx).elim (fun hold => h.cache key text expires x hold hx) id

omit [DecidableEq ι] [DecidableEq γ] [DecidableEq M] in
/-- An update has a message for every worker. -/
theorem Covered.update [Nonempty ι] (h : Covered json invalidated s) (m : M) (values : K → Option V) :
    Covered json invalidated { s with
      db := fun key => if key ∈ invalidated m then values key else s.db key
      pending := fun w => m :: s.pending w } := by
  have hnow : ∀ key (x : Stored V), s.db key = some x.value → key ∉ invalidated m →
      (if key ∈ invalidated m then values key else s.db key) = some x.value :=
        fun key x hdb hkey => by rwa [if_neg hkey]
  have hdue : ∀ w key, Due invalidated s w key → ∃ m' ∈ m :: s.pending w, key ∈ invalidated m' :=
    fun w key ⟨m', hm', hkey⟩ => ⟨m', mem_cons_of_mem m hm', hkey⟩
  refine ⟨fun w key x hx => ?_, fun key text expires x htext hx => ?_⟩
  · by_cases hkey : key ∈ invalidated m
    · exact .inr ⟨m, mem_cons_self, hkey⟩
    · exact (h.data w key x hx).imp (hnow key x · hkey) (hdue w key)
  · by_cases hkey : key ∈ invalidated m
    · exact .inr ⟨Classical.arbitrary ι, m, mem_cons_self, hkey⟩
    · exact (h.cache key text expires x htext hx).imp (hnow key x · hkey) fun ⟨w, hw⟩ => ⟨w, hdue w key hw⟩

omit [DecidableEq γ] in
/-- A message that comes leaves nothing of its keys to be deleted. -/
theorem Covered.deliver (h : Covered json invalidated s) (w : ι) (m : M) :
    Covered json invalidated
      ({ s with
        cache := ((invalidated m).foldl delete (s.data w, s.cache)).2
        pending := Function.update s.pending w ((s.pending w).erase m) }.remember w
          ((invalidated m).foldl delete (s.data w, s.cache)).1) := by
  have hdue : ∀ w' key, key ∉ invalidated m → Due invalidated s w' key →
      ∃ m' ∈ Function.update s.pending w ((s.pending w).erase m) w', key ∈ invalidated m' :=
    fun w' key hkey ⟨m', hm', hkey'⟩ => by
      refine ⟨m', ?_, hkey'⟩
      by_cases hw : w' = w
      · subst hw
        rw [update_self]
        exact (mem_erase_of_ne fun hm => hkey (by rwa [← hm])).mpr hm'
      · rwa [update_of_ne hw]
  refine ⟨fun w' key x hx => ?_, fun key text expires x htext hx => ?_⟩
  · change Function.update s.data w ((invalidated m).foldl delete (s.data w, s.cache)).1 w' key = some x at hx
    by_cases hw : w' = w
    · subst hw
      rw [update_self, (foldl_delete ..).1] at hx
      split at hx
      · cases hx
      · next hkey => exact (h.data w' key x hx).imp_right (hdue w' key hkey)
    · rw [update_of_ne hw] at hx
      refine (h.data w' key x hx).imp_right fun ⟨m', hm', hkey'⟩ => ⟨m', ?_, hkey'⟩
      change m' ∈ Function.update s.pending w ((s.pending w).erase m) w'
      rwa [update_of_ne hw]
  · change ((invalidated m).foldl delete (s.data w, s.cache)).2 key = some (text, expires) at htext
    rw [(foldl_delete ..).2] at htext
    split at htext
    · cases htext
    · next hkey => exact (h.cache key text expires x htext hx).imp_right fun ⟨w', hw'⟩ => ⟨w', hdue w' key hkey hw'⟩

omit [DecidableEq γ] [DecidableEq K] [DecidableEq M] in
theorem remember_cases (h : update s.data w data w' key = some x) :
    s.data w' key = some x ∨ w' = w ∧ data key = some x := by
  by_cases hw : w' = w
  · subst hw
    rw [update_self] at h
    exact .inr ⟨rfl, h⟩
  · rw [update_of_ne hw] at h
    exact .inl h

omit [DecidableEq M] in
theorem Covered.advance {call : Call ι K V} (h : Covered json invalidated s) (hcall : s.calls c = some call)
    (hok : Careful json invalidated s (.next c)) (hstep : advance json s c call = some s') :
    Covered json invalidated s' := by
  have hcareful := hok call hcall
  unfold DatabaseCache.advance at hstep
  cases hpc : call.pc with
  | «local» second =>
    simp only [hpc] at hstep
    cases hstep
    refine h.puts rfl rfl (fun w key x hx => .inl ?_) fun key text expires x htext _ => .inl htext
    exact (remember_cases hx).elim id fun ⟨hw, hx⟩ => by rw [hw]; exact getLocal_shrinks hx
  | shared second =>
    simp only [hpc] at hstep hcareful
    cases hstep
    refine h.puts rfl rfl (fun w key x hx => ?_) fun key text expires x htext _ => .inl htext
    rcases remember_cases hx with hold | ⟨rfl, hgot⟩
    · exact .inl hold
    · rcases getShared_puts hgot with hold | ⟨rfl, hfound⟩
      · exact .inl hold
      · exact .inr (hcareful x.value hfound)
  | locking =>
    simp only [hpc] at hstep
    split at hstep
    · cases hstep
    · cases hstep
      exact h.puts rfl rfl (fun _ _ _ hx => .inl hx) fun _ _ _ _ htext _ => .inl htext
  | loading =>
    simp only [hpc] at hstep
    cases hstep
    exact h.puts rfl rfl (fun _ _ _ hx => .inl hx) fun _ _ _ _ htext _ => .inl htext
  | storing value =>
    cases value with
    | none =>
      simp only [hpc] at hstep
      cases hstep
      exact h.puts rfl rfl (fun _ _ _ hx => .inl hx) fun _ _ _ _ htext _ => .inl htext
    | some value =>
      simp only [hpc] at hstep hcareful
      cases hstep
      refine h.puts rfl rfl (fun w key x hx => ?_) fun key text expires x htext hx => ?_
      · rcases remember_cases hx with hold | ⟨rfl, hset⟩
        · exact .inl hold
        · rcases set_data hset with hold | ⟨rfl, rfl⟩
          · exact .inl hold
          · exact .inr hcareful
      · rcases set_cache (s.data call.worker) htext hx with hold | ⟨rfl, rfl⟩
        · exact .inl hold
        · exact .inr (hcareful.imp_right fun hdue => ⟨_, hdue⟩)
  | unlocking value =>
    simp only [hpc] at hstep
    cases hstep
    exact h.puts rfl rfl (fun _ _ _ hx => .inl hx) fun _ _ _ _ htext _ => .inl htext
  | returned value =>
    simp only [hpc] at hstep
    cases hstep

/-- A key is locked only while a call is between its lock and its unlock. -/
def Pc.locked : Pc V → Bool
  | .local second | .shared second => second
  | .locking | .returned _ => false
  | .loading | .storing _ | .unlocking _ => true

def Locked (s : System ι γ K V T M) : Prop :=
  ∀ key, s.locks key = true → ∃ c call, s.calls c = some call ∧ call.key = key ∧ call.pc.locked = true

omit [DecidableEq ι] [DecidableEq K] [DecidableEq M] in
/-- A call that goes on keeps its lock, unless it leaves it. -/
theorem Locked.goto {call : Call ι K V} {pc : Pc V} {locks : K → Bool} (h : Locked s) (hcall : s.calls c = some call)
    (hlocks : ∀ key, locks key = true → s.locks key = true)
    (hpc : call.pc.locked = true → locks call.key = true → pc.locked = true) {cache : Shared K T}
    {data : ι → Data K V} :
    Locked ({ s with cache, data, locks }.goto c call pc) := by
  intro key hkey
  obtain ⟨c', call', hcall', rfl, hlocked⟩ := h key (hlocks key hkey)
  by_cases hc : c' = c
  · subst hc
    cases hcall.symm.trans hcall'
    exact ⟨c', _, update_self .., rfl, hpc hlocked hkey⟩
  · exact ⟨c', call', (update_of_ne hc ..).trans hcall', rfl, hlocked⟩

theorem found_locked : (Pc.found second value).locked = second := by cases second <;> rfl

omit [DecidableEq M] in
theorem Locked.advance {call : Call ι K V} (h : Locked s) (hcall : s.calls c = some call)
    (hstep : advance json s c call = some s') : Locked s' := by
  have hfound : ∀ (second : Bool) (pc : Pc V) (value : Option V), pc.locked = second →
      ((value.map (Pc.found second)).getD pc).locked = second := fun second pc value hpc => by
    cases value with
    | none => exact hpc
    | some value => exact found_locked
  unfold DatabaseCache.advance at hstep
  cases hpc : call.pc with
  | «local» second =>
    simp only [hpc] at hstep
    cases hstep
    exact h.goto hcall (fun _ => id) fun hlocked _ => by rw [hfound second _ _ rfl]; rwa [hpc] at hlocked
  | shared second =>
    simp only [hpc] at hstep
    cases hstep
    exact h.goto hcall (fun _ => id) fun hlocked _ => by
      rw [hpc] at hlocked
      rw [hfound second _ _ (by cases second <;> rfl)]
      exact hlocked
  | locking =>
    simp only [hpc] at hstep
    split at hstep
    · cases hstep
    · cases hstep
      intro key hkey
      by_cases hself : key = call.key
      · subst hself
        exact ⟨c, _, update_self .., rfl, rfl⟩
      · obtain ⟨c', call', hcall', rfl, hlocked⟩ := h key ((update_of_ne hself ..).symm.trans hkey)
        have hc : c' ≠ c := fun hc => hself (by subst hc; cases hcall.symm.trans hcall'; rfl)
        exact ⟨c', call', (update_of_ne hc ..).trans hcall', rfl, hlocked⟩
  | loading =>
    simp only [hpc] at hstep
    cases hstep
    exact h.goto hcall (fun _ => id) fun _ _ => rfl
  | storing value =>
    cases value with
    | none =>
      simp only [hpc] at hstep
      cases hstep
      exact h.goto hcall (fun _ => id) fun _ _ => rfl
    | some value =>
      simp only [hpc] at hstep
      cases hstep
      exact h.goto hcall (fun _ => id) fun _ _ => rfl
  | unlocking value =>
    simp only [hpc] at hstep
    cases hstep
    refine h.goto hcall (fun key hkey => ?_) fun _ hkey => ?_
    · by_cases hself : key = call.key
      · rw [hself, update_self] at hkey
        cases hkey
      · rwa [update_of_ne hself] at hkey
    · rw [update_self] at hkey
      cases hkey
  | returned value =>
    simp only [hpc] at hstep
    cases hstep

structure Inv (json : Json V T) (invalidated : M → List K) (s : System ι γ K V T M) : Prop where
  covered : Covered json invalidated s
  locked : Locked s
  /-- Only workers cache anything. -/
  served : ∀ key item, s.cache key = some item → Nonempty ι

omit [DecidableEq ι] [DecidableEq K] [DecidableEq M] in
theorem Locked.call (h : Locked s) (hidle : (s.calls c).any Call.running = false) (call : Call ι K V) :
    Locked { s with calls := update s.calls c (some call) } := by
  intro key hkey
  obtain ⟨c', call', hcall', rfl, hlocked⟩ := h key hkey
  have hc : c' ≠ c := fun hc => by
    subst hc
    rw [hcall', any_some] at hidle
    unfold Call.running at hidle
    split at hidle
    · next hpc =>
      rw [hpc] at hlocked
      cases hlocked
    · cases hidle
  exact ⟨c', call', (update_of_ne hc ..).trans hcall', rfl, hlocked⟩

theorem inv_step (s : System ι γ K V T M) (e : Event ι γ K V M) (s' : System ι γ K V T M) (h : Inv json invalidated s)
    (hstep : step json invalidated s e = some s') (hok : Careful json invalidated s e) : Inv json invalidated s' := by
  obtain ⟨hcovered, hlocked, hserved⟩ := h
  cases e with
  | call c w key ttl =>
    simp only [step] at hstep
    split at hstep
    · cases hstep
    · next hidle =>
      cases hstep
      refine ⟨hcovered.puts rfl rfl (fun _ _ _ hx => .inl hx) fun _ _ _ _ htext _ => .inl htext,
        hlocked.call (by simpa using hidle) _, hserved⟩
  | next c =>
    obtain ⟨call, hcall, hadvance⟩ := bind_eq_some_iff.mp hstep
    exact ⟨hcovered.advance hcall hok hadvance, hlocked.advance hcall hadvance, fun _ _ _ => ⟨call.worker⟩⟩
  | timeout c =>
    simp only [step] at hstep
    split at hstep
    · next w key ttl hcall =>
      cases hstep
      exact ⟨hcovered.puts rfl rfl (fun _ _ _ hx => .inl hx) fun _ _ _ _ htext _ => .inl htext,
        hlocked.goto hcall (fun _ => id) (fun hpc _ => (by cases hpc)), hserved⟩
    · cases hstep
  | update m values =>
    cases hstep
    refine ⟨?_, hlocked, hserved⟩
    rcases isEmpty_or_nonempty ι with hempty | hne
    · exact ⟨fun w => hempty.elim w, fun key text expires x htext _ =>
        (hserved key _ htext).elim fun w => hempty.elim w⟩
    · exact hcovered.update m values
  | deliver w m =>
    simp only [step] at hstep
    split at hstep
    · cases hstep
      exact ⟨hcovered.deliver w m, hlocked, fun _ _ _ => ⟨w⟩⟩
    · cases hstep
  | delete_all w =>
    cases hstep
    refine ⟨hcovered.puts rfl rfl (fun _ _ _ hx => ?_)
      fun _ _ _ _ htext _ => (by cases htext), hlocked, fun _ _ _ => ⟨w⟩⟩
    exact (remember_cases hx).imp_right fun ⟨_, hx⟩ => by cases hx
  | evict w key =>
    cases hstep
    refine ⟨hcovered.puts rfl rfl (fun w' key' x hx => ?_) fun _ _ _ _ htext _ => .inl htext, hlocked, hserved⟩
    rcases remember_cases hx with hold | ⟨rfl, hevict⟩
    · exact .inl hold
    · by_cases hkey : key' = key
      · rw [hkey, update_self] at hevict
        cases hevict
      · exact .inl ((update_of_ne hkey ..).symm.trans hevict)
  | drop key =>
    cases hstep
    have hold : ∀ key' item, sh_delete s.cache key key' = some item → s.cache key' = some item :=
      fun key' item h => by
      unfold sh_delete at h
      by_cases hkey : key' = key
      · rw [hkey, update_self] at h
        cases h
      · rwa [update_of_ne hkey] at h
    exact ⟨hcovered.puts rfl rfl (fun _ _ _ hx => .inl hx)
      fun key' text expires _ htext _ => .inl (hold key' _ htext),
      hlocked, fun key' item h => hserved key' item (hold key' item h)⟩
  | expire key =>
    cases hstep
    refine ⟨hcovered.puts rfl rfl (fun _ _ _ hx => .inl hx) fun _ _ _ _ htext _ => .inl htext,
      fun key' hkey' => ?_, hserved⟩
    refine hlocked key' ?_
    by_cases hkey : key' = key
    · subst hkey
      cases (update_self key' false s.locks).symm.trans hkey'
    · exact (update_of_ne hkey ..).symm.trans hkey'
  | tick =>
    cases hstep
    exact ⟨hcovered.puts rfl rfl (fun _ _ _ hx => .inl hx) fun _ _ _ _ htext _ => .inl htext, hlocked, hserved⟩

/-! ## A call on its own -/

variable {ttl : Nat} {pc : Pc V} {v : Option V}

/-- The call, which goes on alone, returns `v`. -/
def Returns (json : Json V T) (invalidated : M → List K) (s : System ι γ K V T M) (c : γ) (w : ι) (key : K)
    (ttl : Nat)
    (v : Option V) : Prop :=
  ∃ n s', run (step json invalidated) s (replicate n (.next c)) = some s' ∧
    s'.calls c = some { worker := w, key, ttl, pc := .returned v }

/-- What the worker and shared memory have of a key is what is in the database. -/
structure FreshAt (json : Json V T) (s : System ι γ K V T M) (w : ι) (key : K) : Prop where
  data : ∀ x, s.data w key = some x → s.db key = some x.value
  cache : ∀ text expires x, s.cache key = some (text, expires) → json.decode text = some x → s.db key = some x.value

theorem Returns.next (hcall : s.calls c = some { worker := w, key, ttl, pc })
    (hadvance : DatabaseCache.advance json s c { worker := w, key, ttl, pc } = some s')
    (h : Returns json invalidated s' c w key ttl v) : Returns json invalidated s c w key ttl v := by
  obtain ⟨n, s'', hrun, hreturned⟩ := h
  refine ⟨n + 1, s'', ?_, hreturned⟩
  rw [replicate_succ, run, show step json invalidated s (.next c) = some s' by simp only [step, hcall]; exact hadvance]
  exact hrun

theorem returns_returned (hcall : s.calls c = some { worker := w, key, ttl, pc := .returned v }) :
    Returns json invalidated s c w key ttl v := ⟨0, s, rfl, hcall⟩

theorem returns_unlocking (hcall : s.calls c = some { worker := w, key, ttl, pc := .unlocking v }) :
    Returns json invalidated s c w key ttl v :=
  .next hcall rfl (returns_returned (update_self ..))

theorem returns_found (hcall : s.calls c = some { worker := w, key, ttl, pc := Pc.found second value }) :
    Returns json invalidated s c w key ttl (some value) := by
  cases second with
  | false => exact returns_returned hcall
  | true => exact returns_unlocking hcall

theorem returns_storing (hcall : s.calls c = some { worker := w, key, ttl, pc := .storing v }) :
    Returns json invalidated s c w key ttl v := by
  cases v with
  | none => exact .next hcall rfl (returns_unlocking (update_self ..))
  | some value => exact .next hcall rfl (returns_unlocking (update_self ..))

theorem returns_loading (hcall : s.calls c = some { worker := w, key, ttl, pc := .loading }) :
    Returns json invalidated s c w key ttl (s.db key) :=
  .next hcall rfl (returns_storing (update_self ..))

omit [DecidableEq M] in
theorem advance_local {call : Call ι K V} {found : Option V} (hpc : call.pc = .local second)
    (hget : (getLocal s.now (s.data call.worker) call.key).1 = found) : advance json s c call =
    some ((s.remember call.worker (getLocal s.now (s.data call.worker) call.key).2).goto c call
      ((found.map (Pc.found second)).getD (.shared second))) := by
  rw [← hget]
  simp only [advance, hpc]

omit [DecidableEq M] in
theorem advance_shared {call : Call ι K V} {found : Option V} (hpc : call.pc = .shared second)
    (hget : (getShared json s.now (s.data call.worker) s.cache call.key).1 = found) : advance json s c call =
    some ((s.remember call.worker (getShared json s.now (s.data call.worker) s.cache call.key).2).goto c call
      ((found.map (Pc.found second)).getD (if second then .loading else .locking))) := by
  rw [← hget]
  simp only [advance, hpc]

/-- What follows when `get` finds nothing. -/
def Misses (json : Json V T) (invalidated : M → List K) (s : System ι γ K V T M) (c : γ) (w : ι) (key : K) (ttl : Nat)
    (second : Bool) : Prop :=
  ∀ s' : System ι γ K V T M, s'.db = s.db → s'.locks = s.locks → FreshAt json s' w key →
    s'.calls c = some { worker := w, key, ttl, pc := if second then .loading else .locking } →
    Returns json invalidated s' c w key ttl (s.db key)

theorem returns_shared (hfresh : FreshAt json s w key)
    (hcall : s.calls c = some { worker := w, key, ttl, pc := .shared second })
    (hmiss : Misses json invalidated s c w key ttl second) : Returns json invalidated s c w key ttl (s.db key) := by
  cases hshared : (getShared json s.now (s.data w) s.cache key).1 with
  | some value =>
    refine .next hcall (advance_shared rfl hshared) ?_
    obtain ⟨text, expires, x, hcache, hx, rfl⟩ := getShared_some hshared
    rw [hfresh.cache text expires x hcache hx]
    exact returns_found (update_self ..)
  | none =>
    refine .next hcall (advance_shared rfl hshared) ?_
    refine hmiss _ rfl rfl ⟨fun x hx => ?_, hfresh.cache⟩ (update_self ..)
    rcases remember_cases hx with hold | ⟨-, hgot⟩
    · exact hfresh.data x hold
    · rcases getShared_puts hgot with hold | ⟨-, hsome⟩
      · exact hfresh.data x hold
      · cases hshared.symm.trans hsome

theorem returns_get (hfresh : FreshAt json s w key)
    (hcall : s.calls c = some { worker := w, key, ttl, pc := .local second })
    (hmiss : Misses json invalidated s c w key ttl second) : Returns json invalidated s c w key ttl (s.db key) := by
  cases hlocal : (getLocal s.now (s.data w) key).1 with
  | some value =>
    refine .next hcall (advance_local rfl hlocal) ?_
    obtain ⟨x, hx, rfl⟩ := getLocal_some hlocal
    rw [hfresh.data x hx]
    exact returns_found (update_self ..)
  | none =>
    refine .next hcall (advance_local rfl hlocal) ?_
    refine returns_shared ⟨fun x hx => ?_, hfresh.cache⟩ (update_self ..) hmiss
    rcases remember_cases hx with hold | ⟨-, hgot⟩
    · exact hfresh.data x hold
    · exact hfresh.data x (getLocal_shrinks hgot)

theorem returns_call (hfresh : FreshAt json s w key) (hlock : s.locks key = false)
    (hcall : s.calls c = some { worker := w, key, ttl, pc := .local false }) :
    Returns json invalidated s c w key ttl (s.db key) := by
  refine returns_get hfresh hcall fun s₁ hdb₁ hlocks₁ hfresh₁ hcall₁ => ?_
  have hfree : s₁.locks key = false := by rw [hlocks₁, hlock]
  rw [← hdb₁]
  refine .next hcall₁ (by simp only [advance, Bool.false_eq_true, ↓reduceIte, hfree]; rfl) ?_
  refine returns_get ⟨hfresh₁.data, hfresh₁.cache⟩ (update_self ..) fun s₂ hdb₂ _ _ hcall₂ => ?_
  rw [← show s₂.db = s₁.db from hdb₂]
  exact returns_loading hcall₂

/-- **When all is quiet every call returns what is in the database.** -/
theorem Inv.right (h : Inv json invalidated s) : Right json invalidated s := by
  refine ⟨h.covered, fun ⟨hidle, hdelivered⟩ c w key ttl => ?_⟩
  have hnone : ∀ w key, ¬ Due invalidated s w key := fun w key ⟨m, hm, _⟩ => by
    rw [hdelivered w] at hm
    cases hm
  have hlock : s.locks key = false := by
    by_contra hlocked
    obtain ⟨c', call, hcall, -, hpc⟩ := h.locked key (by simpa using hlocked)
    have hrunning := hidle c'
    rw [hcall, any_some] at hrunning
    unfold Call.running at hrunning
    split at hrunning
    · next hreturned =>
      rw [hreturned] at hpc
      cases hpc
    · cases hrunning
  let s₁ : System ι γ K V T M :=
    { s with calls := update s.calls c (some { worker := w, key, ttl, pc := .local false }) }
  have hfresh : FreshAt json s₁ w key :=
    ⟨fun x hx => (h.covered.data w key x hx).resolve_right (hnone w key),
      fun text expires x htext hx =>
        (h.covered.cache key text expires x htext hx).resolve_right fun ⟨w', hw'⟩ => hnone w' key hw'⟩
  have hreturns : Returns json invalidated s₁ c w key ttl (s.db key) :=
    returns_call hfresh hlock (update_self ..)
  obtain ⟨n, s', hrun, hreturned⟩ := hreturns
  refine ⟨n, s', ?_, hreturned⟩
  rw [run, show step json invalidated s (.call c w key ttl) = some s₁ by simp only [step, hidle c]; rfl]
  exact hrun

/-- A careless step leaves its worker with a value that no message deletes. -/
theorem careful_of_covered (s : System ι γ K V T M) (e : Event ι γ K V M) (s' : System ι γ K V T M)
    (_ : Inv json invalidated s)
    (hstep : step json invalidated s e = some s') (hright : Right json invalidated s') :
    Careful json invalidated s e := by
  cases e with
  | next c =>
    intro call hcall
    have hadvance : advance json s c call = some s' := by simpa only [step, hcall, bind_some] using hstep
    unfold advance at hadvance
    cases hpc : call.pc with
    | shared second =>
      simp only [hpc] at hadvance ⊢
      intro value hvalue
      obtain ⟨x, hx, rfl⟩ := getShared_keeps hvalue
      cases hadvance
      exact hright.1.data call.worker call.key x ((congrFun (update_self ..) _).trans hx)
    | storing value =>
      cases value with
      | none => trivial
      | some value =>
        simp only [hpc] at hadvance ⊢
        cases hadvance
        refine hright.1.data call.worker call.key
          { value, expire := if call.ttl = 0 then none else some (s.now + call.ttl) } ?_
        exact (congrFun (update_self ..) _).trans (update_self ..)
    | _ => trivial
  | _ => trivial

/-- **The caches are never behind the database without a message to come, and
calls then return what it holds, if and only if no worker puts in its memory
what a message that it has had was to delete.** -/
theorem caches_right_iff_careful (json : Json V T) (invalidated : M → List K) (db : K → Option V)
    (es : List (Event ι γ K V M)) :
    Always (step json invalidated) (Right json invalidated) (start db) es ↔
      Along (step json invalidated) (Careful json invalidated) (start db) es := by
  refine always_iff_along (fun _ => Inv.right) inv_step careful_of_covered ⟨⟨?_, ?_⟩, ?_, ?_⟩
  · exact fun _ _ _ hx => by cases hx
  · exact fun _ _ _ _ htext => by cases htext
  · exact fun _ hlocked => by cases hlocked
  · exact fun _ _ hitem => by cases hitem

/-- A call reads a consumer, the consumer changes and its message comes, and then
the call stores what it read. -/
def storeLate : List (Event Unit Unit String Nat Message) :=
  .call () () (consumer_key "a") 0 :: replicate 6 (.next ()) ++
    [.update (.consumers "a") fun _ => some 2, .deliver () (.consumers "a"), .next (), .next ()]

/-- The worker goes on to return what was there before. -/
theorem not_answers_storeLate :
    let json : Json Nat (Stored Nat) := { encode := some, decode := some, decode_encode := fun _ _ => Eq.symm }
    ∃ s, run (step json invalidate) (start fun _ => some 1) storeLate = some s ∧ Quiet s ∧
      ¬ Answers json invalidate s := by
  refine ⟨_, rfl, ⟨fun _ => rfl, fun _ => rfl⟩, fun h => ?_⟩
  obtain ⟨n, s', hrun, hreturned⟩ := h () () (consumer_key "a") 0
  rcases n with _ | _ | n
  · cases hrun
    cases hreturned
  · cases hrun
    cases hreturned
  · cases hrun

end OpenResty.Kong.DatabaseCache
