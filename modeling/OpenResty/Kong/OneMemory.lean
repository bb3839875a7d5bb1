/-
The memories of `kong.tools.database_cache` as one: what a worker finds under a
key, in its own memory or else in the shared one. A call that goes on alone
refines a call on the one memory, and so does a message that comes.
-/
import OpenResty.Kong.DatabaseCache

namespace OpenResty.Kong.OneMemory

open DatabaseCache Function Lib.Transition

variable {K V T : Type} [DecidableEq K]

/-- What is cached under each key. -/
abbrev Memory (K V : Type) := K → Option V

/-- `get_or_set`, with what `cb` returns; a nil is not kept. -/
def get_or_set (memory : Memory K V) (key : K) (cb : Option V) : Option V × Memory K V :=
  match memory key with
  | some value => (some value, memory)
  | none =>
    match cb with
    | some value => (some value, update memory key (some value))
    | none => (none, memory)

def delete (memory : Memory K V) (key : K) : Memory K V := update memory key none

/-- What `get` returns. -/
def view (json : Json V T) (now : Nat) (data : Data K V) (cache : Shared K T) : Memory K V := fun key =>
  (getLocal now data key).1.or (getShared json now data cache key).1

variable {json : Json V T} {now : Nat} {data : Data K V} {cache : Shared K T} {memory : Memory K V} {key key' : K} {value : V}
  {cb : Option V}

/-! ## One memory -/

theorem get_or_set_fst : (get_or_set memory key cb).1 = (memory key).or cb := by
  unfold get_or_set
  cases memory key with
  | some value => rfl
  | none => cases cb <;> rfl

/-- Nothing changes but at the key, where what is returned is kept. -/
theorem get_or_set_snd : (get_or_set memory key cb).2 = update memory key ((memory key).or cb) := by
  have hkeep : ∀ value, memory key = value → memory = update memory key value := by
    rintro _ rfl
    exact (update_eq_self key memory).symm
  unfold get_or_set
  cases hkey : memory key with
  | some value => exact hkeep _ hkey
  | none =>
    cases cb with
    | some value => rfl
    | none => exact hkeep _ hkey

theorem get_or_set_eq : get_or_set memory key cb = ((memory key).or cb, update memory key ((memory key).or cb)) :=
  Prod.ext get_or_set_fst get_or_set_snd

/-! ## The two memories -/

/-- What is found of a key depends on what the two have of it. -/
theorem view_congr {data' : Data K V} {cache' : Shared K T} (hdata : data' key = data key) (hcache : cache' key = cache key) :
    view json now data' cache' key = view json now data cache key := by
  simp only [view, getLocal, getShared, sh_get, hdata, hcache]
  congr 1
  · split
    · rfl
    · rfl
    · split <;> rfl
  · split <;> rfl

theorem view_set {ttl : Nat} : view json now (set json now data cache key value ttl).1 (set json now data cache key value ttl).2 =
    update (view json now data cache) key (some value) := by
  funext k
  by_cases hk : k = key
  · subst hk
    by_cases httl : ttl = 0 <;> simp [view, DatabaseCache.set, getLocal, httl]
  · rw [update_of_ne hk]
    exact view_congr (update_of_ne hk ..) (update_of_ne hk ..)

theorem view_deletes (keys : List K) :
    view json now (keys.foldl DatabaseCache.delete (data, cache)).1 (keys.foldl DatabaseCache.delete (data, cache)).2 =
      keys.foldl delete (view json now data cache) := by
  induction keys generalizing data cache with
  | nil => rfl
  | cons key keys ih =>
    refine ih.trans (congrArg (keys.foldl delete) (funext fun k => ?_))
    by_cases hk : k = key
    · subst hk
      simp [view, delete, getLocal, getShared, sh_delete, sh_get]
    · rw [delete, update_of_ne hk]
      exact view_congr (update_of_ne hk ..) (update_of_ne hk ..)

/-- What has expired is only forgotten. -/
theorem getLocal_forgets (now : Nat) (data : Data K V) (key : K) :
    (getLocal now data key).2 = data ∨ (getLocal now data key).1 = none ∧ (getLocal now data key).2 = update data key none := by
  unfold getLocal
  split
  · exact .inl rfl
  · exact .inl rfl
  · split
    · exact .inl rfl
    · exact .inr ⟨rfl, rfl⟩

theorem getLocal_again (h : (getLocal now data key).1 = none) : (getLocal now (getLocal now data key).2 key).1 = none := by
  rcases getLocal_forgets now data key with heq | ⟨-, heq⟩
  · rw [heq, h]
  · rw [heq]
    simp [getLocal]

theorem getShared_other (h : key' ≠ key) : (getShared json now data cache key).2 key' = data key' := by
  unfold getShared
  split
  · rfl
  · exact update_of_ne h ..

theorem getShared_fst (data data' : Data K V) :
    (getShared json now data cache key).1 = (getShared json now data' cache key).1 := by
  unfold getShared
  split <;> rfl

theorem view_getLocal (json : Json V T) (key : K) (cache : Shared K T) :
    view json now (getLocal now data key).2 cache = view json now data cache := by
  rcases getLocal_forgets now data key with heq | ⟨hnone, heq⟩
  · rw [heq]
  · funext k
    by_cases hk : k = key
    · subst hk
      rw [view, view, hnone, getShared_fst _ data, heq]
      simp [getLocal]
    · rw [heq]
      exact view_congr (update_of_ne hk ..) rfl

/-- What is found in shared memory is kept, and found again even if it has expired. -/
theorem view_getShared (json : Json V T) (cache : Shared K T) (h : (getLocal now data key).1 = none) :
    view json now (getShared json now data cache key).2 cache = view json now data cache := by
  funext k
  by_cases hk : k = key
  · subst hk
    rw [view, view, h, getShared_fst _ data]
    cases htext : sh_get now cache k with
    | none => simp [getShared, htext, h]
    | some text =>
      simp only [getShared, htext, getLocal, update_self]
      rcases json.decode text with _ | ⟨value, _ | expire⟩
      · rfl
      · rfl
      · by_cases hexpired : now ≤ expire <;> simp [hexpired]
  · exact view_congr (getShared_other hk) rfl

/-! ## A call that goes on alone -/

variable {ι γ M : Type} [DecidableEq ι] [DecidableEq γ] [DecidableEq M] {s : System ι γ K V T M} {c : γ} {w : ι} {ttl : Nat}
  {invalidated : M → List K} {second : Bool} {r : Option V × Memory K V} {pc : Pc V}

/-- What a worker sees. -/
abbrev seen (json : Json V T) (s : System ι γ K V T M) (w : ι) : Memory K V := view json s.now (s.data w) s.cache

/-- The call returns, and leaves what the worker sees, as on the one memory. -/
def Ends (json : Json V T) (invalidated : M → List K) (s : System ι γ K V T M) (c : γ) (w : ι) (key : K) (ttl : Nat)
    (r : Option V × Memory K V) : Prop :=
  ∃ n s', run (step json invalidated) s (List.replicate n (.next c)) = some s' ∧
    s'.calls c = some { worker := w, key, ttl, pc := .returned r.1 } ∧ seen json s' w = r.2

theorem Ends.next {s' : System ι γ K V T M} (hcall : s.calls c = some { worker := w, key, ttl, pc })
    (hadvance : advance json s c { worker := w, key, ttl, pc } = some s') (h : Ends json invalidated s' c w key ttl r) :
    Ends json invalidated s c w key ttl r := by
  obtain ⟨n, s'', hrun, hends⟩ := h
  refine ⟨n + 1, s'', ?_, hends⟩
  have hstep : step json invalidated s (.next c) = some s' := by
    rw [step, hcall]
    exact hadvance
  rwa [List.replicate_succ, run_cons hstep]

omit [DecidableEq M] in
theorem seen_remember {call : Call ι K V} (h : view json s.now data s.cache = memory) :
    seen json ((s.remember w data).goto c call pc) w = memory := by
  rw [← h]
  change view json s.now (update s.data w data w) s.cache = _
  rw [update_self]

theorem ends_unlocking {v : Option V} (hcall : s.calls c = some { worker := w, key, ttl, pc := .unlocking v })
    (hseen : seen json s w = memory) : Ends json invalidated s c w key ttl (v, memory) :=
  .next hcall rfl ⟨0, _, rfl, update_self .., hseen⟩

/-- A value that is found is returned, and found as before. -/
theorem ends_found (hcall : s.calls c = some { worker := w, key, ttl, pc := .found second value })
    (hseen : seen json s w = memory) (hvalue : memory key = some value) :
    Ends json invalidated s c w key ttl (get_or_set memory key cb) := by
  have hhit : get_or_set memory key cb = (some value, memory) := by simp only [get_or_set, hvalue]
  rw [hhit]
  cases second with
  | false => exact ⟨0, s, rfl, hcall, hseen⟩
  | true => exact ends_unlocking hcall hseen

/-- What is read is stored, unless it is nil. -/
theorem ends_storing (hcall : s.calls c = some { worker := w, key, ttl, pc := .storing cb })
    (hseen : seen json s w = memory) (hmiss : memory key = none) :
    Ends json invalidated s c w key ttl (get_or_set memory key cb) := by
  cases cb with
  | none =>
    have hnil : get_or_set memory key none = (none, memory) := by simp only [get_or_set, hmiss]
    rw [hnil]
    exact .next hcall rfl (ends_unlocking (update_self ..) hseen)
  | some value =>
    have hset : get_or_set memory key (some value) = (some value, update memory key (some value)) := by
      simp only [get_or_set, hmiss]
    rw [hset, ← hseen]
    exact .next hcall rfl (ends_unlocking (update_self ..) (seen_remember view_set))

/-- What follows when `get` finds nothing. -/
def Misses (json : Json V T) (invalidated : M → List K) (s : System ι γ K V T M) (c : γ) (w : ι) (key : K) (ttl : Nat)
    (second : Bool) (memory : Memory K V) : Prop :=
  ∀ s' : System ι γ K V T M, s'.db = s.db → s'.locks = s.locks → seen json s' w = memory → memory key = none →
    s'.calls c = some { worker := w, key, ttl, pc := if second then .loading else .locking } →
    Ends json invalidated s' c w key ttl (get_or_set memory key (s.db key))

theorem ends_shared (hcall : s.calls c = some { worker := w, key, ttl, pc := .shared second })
    (hseen : seen json s w = memory) (hlocal : (getLocal s.now (s.data w) key).1 = none)
    (hmiss : Misses json invalidated s c w key ttl second memory) :
    Ends json invalidated s c w key ttl (get_or_set memory key (s.db key)) := by
  have hfound : memory key = (getShared json s.now (s.data w) s.cache key).1 := by
    rw [← hseen, seen, view, hlocal]
    rfl
  have hkept := (view_getShared json s.cache hlocal).trans hseen
  cases hshared : (getShared json s.now (s.data w) s.cache key).1 with
  | some value =>
    exact .next hcall (advance_shared rfl hshared)
      (ends_found (update_self ..) (seen_remember hkept) (hfound.trans hshared))
  | none =>
    exact .next hcall (advance_shared rfl hshared)
      (hmiss _ rfl rfl (seen_remember hkept) (hfound.trans hshared) (update_self ..))

theorem ends_get (hcall : s.calls c = some { worker := w, key, ttl, pc := .local second })
    (hseen : seen json s w = memory) (hmiss : Misses json invalidated s c w key ttl second memory) :
    Ends json invalidated s c w key ttl (get_or_set memory key (s.db key)) := by
  have hkept := (view_getLocal json key s.cache).trans hseen
  cases hlocal : (getLocal s.now (s.data w) key).1 with
  | some value =>
    refine .next hcall (advance_local rfl hlocal) (ends_found (update_self ..) (seen_remember hkept) ?_)
    rw [← hseen, seen, view, hlocal]
    rfl
  | none =>
    refine .next hcall (advance_local rfl hlocal) (ends_shared (update_self ..) (seen_remember hkept) ?_ hmiss)
    change (getLocal s.now (update s.data w _ w) key).1 = none
    rw [update_self, getLocal_again hlocal]

theorem call_refines (hidle : (s.calls c).any Call.running = false) (hlock : s.locks key = false) (w : ι) (ttl : Nat) :
    ∃ n s', run (step json invalidated) s (.call c w key ttl :: List.replicate n (.next c)) = some s' ∧
      s'.calls c = some { worker := w, key, ttl, pc := .returned (get_or_set (seen json s w) key (s.db key)).1 } ∧
      seen json s' w = (get_or_set (seen json s w) key (s.db key)).2 := by
  let s₁ : System ι γ K V T M := { s with calls := update s.calls c (some { worker := w, key, ttl, pc := .local false }) }
  have hends : Ends json invalidated s₁ c w key ttl (get_or_set (seen json s w) key (s.db key)) := by
    refine ends_get (update_self ..) rfl fun s₂ hdb₂ hlocks₂ hseen₂ _ hcall₂ => ?_
    have hfree : s₂.locks key = false := by rw [hlocks₂]; exact hlock
    refine .next hcall₂ (by simp only [advance, Bool.false_eq_true, ↓reduceIte, hfree]; rfl) ?_
    rw [← hdb₂]
    refine ends_get (update_self ..) hseen₂ fun s₃ hdb₃ _ hseen₃ hnone₃ hcall₃ => ?_
    rw [← hdb₃]
    exact .next hcall₃ rfl (ends_storing (update_self ..) hseen₃ hnone₃)
  obtain ⟨n, s', hrun, hends⟩ := hends
  have hstep : step json invalidated s (.call c w key ttl) = some s₁ := by
    simp only [step, hidle]
    rfl
  exact ⟨n, s', (run_cons hstep).trans hrun, hends⟩

/-- **The two memories are one to a worker**: a call that goes on alone, when
nobody has the lock, returns what it returns on the one memory and leaves the
worker to see the same, and so does a message that comes. -/
theorem memory_refines (json : Json V T) (invalidated : M → List K) (s : System ι γ K V T M) (w : ι) :
    (∀ c key ttl, (s.calls c).any Call.running = false → s.locks key = false →
      ∃ n s', run (step json invalidated) s (.call c w key ttl :: List.replicate n (.next c)) = some s' ∧
        s'.calls c = some { worker := w, key, ttl, pc := .returned (get_or_set (seen json s w) key (s.db key)).1 } ∧
        seen json s' w = (get_or_set (seen json s w) key (s.db key)).2) ∧
      ∀ m s', step json invalidated s (.deliver w m) = some s' →
        seen json s' w = (invalidated m).foldl delete (seen json s w) := by
  refine ⟨fun c key ttl hidle hlock => call_refines hidle hlock w ttl, fun m s' hstep => ?_⟩
  rw [step] at hstep
  split at hstep
  · cases hstep
    refine .trans ?_ (view_deletes (invalidated m))
    exact congrArg (view json s.now · _) (update_self ..)
  · cases hstep

theorem memory_refines_first :
    let json : Json Nat (Stored Nat) := { encode := some, decode := some, decode_encode := fun _ _ => Eq.symm }
    ∃ n s', run (step json invalidate) (start fun _ => some 1) (.call () () "apis" 0 :: List.replicate n (.next ())) = some s' ∧
      s'.calls () = some { worker := (), key := "apis", ttl := 0, pc := .returned (some 1) } ∧
      seen json s' () = update (fun _ => none) "apis" (some 1) :=
  (memory_refines _ _ _ ()).1 () "apis" 0 rfl rfl

end OpenResty.Kong.OneMemory
