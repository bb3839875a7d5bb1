/-
The two storage backends side by side: whether a request finds the same
collections in either.

They do as long as a request writes to one collection only, deletes nothing it
has written, and stores what a Redis field gives back. The Redis backend keeps
one list of written and one of deleted keys for all collections, deletes before
it writes, and tells numbers from text by their digits.
-/
import OpenResty.Waf.StorageTrack

namespace OpenResty.Waf

open Lua Lib Option Function
open List hiding lookup_cons

/-! ## Requests -/

/-- What the actions of a request do to its collections. -/
inductive StorageOp
  | initcol (col : String) (value : Scalar)
  | setvar (col : String) (key : Scalar) (inc : Bool) (value : Scalar)
  | expirevar (col : String) (key time : Scalar)
  | deletevar (col : String) (key : Scalar)
deriving Repr

def Storage.perform (s : Storage) (now : Rat) : StorageOp → Except String Storage
  | .initcol col value => do
    let s ← s.initializeCol now value
    return { s with col_lookup := assign s.col_lookup col value }
  | .setvar col key inc value => s.set_var col key inc value
  | .expirevar col key time => s.expire_var now col key time
  | .deletevar col key => s.delete_var col key

/-- The operations of a request, each at its time, up to the first that raises. -/
def Storage.performAll : Storage → List (Rat × StorageOp) → Storage × Option String
  | s, [] => (s, none)
  | s, (now, op) :: ops =>
    match s.perform now op with
    | .ok s => s.performAll ops
    | .error e => (s, some e)

/-- A request: its operations, and `persist` if none raised. -/
def Storage.request (cjson : Tbl → Except String Tbl) (s : Storage) (ops : List (Rat × StorageOp)) :
    Storage × Option String :=
  match s.start.performAll ops with
  | (s, none) => s.persist cjson
  | (s, some e) => (s, some e)

/-- The outcomes of the requests, one after the other. -/
def Storage.requests (cjson : Tbl → Except String Tbl) : Storage → List (List (Rat × StorageOp)) →
    List (Storage × Option String)
  | _, [] => []
  | s, ops :: rest => s.request cjson ops :: (s.request cjson ops).1.requests cjson rest

/-! ## Steps -/

/-- The results of one operation on the two backends. -/
def Both (P : Storage → Storage → Prop) : Except String Storage → Except String Storage → Prop
  | .ok d, .ok r => P d r
  | .error e, .error e' => e = e'
  | _, _ => False

/-- The two requests at one point, over the stores they began with. -/
structure Synced (d r : Storage) : Prop where
  alike : Alike d r
  tracked : Tracked r
  kept : Kept d.shm r.redis

/-- An entry that comes back from Redis as it went in, under a key that is a name. -/
def StorableAt (key value : Scalar) : Prop := ∃ k, key = .str k ∧ k ≠ "__altered" ∧ Storable k value

/-- No collection but `col` is written to so far. -/
def Storage.Only (s : Storage) (col : Scalar) : Prop := ∀ c, s.flag c = true → c = col

/-- An operation the Redis backend keeps up with, in the state before it. -/
def Calm (s : Storage) (now : Rat) : StorageOp → Prop
  -- loaded before it is written to, and without an expired variable while another is written to
  | .initcol _ value =>
    s.flag value = false ∧
      ((∀ c, s.flag c = false) ∨ (s.redis (colName value)).filterMapM (fun (key, _) =>
        Storage.redisExpired now (s.redis (colName value)) key) = .ok [])
  | .setvar col key inc value => ∀ c v, s.col_lookup.lookup (upper col) = some c →
    Storage.incremented (s.var? c key) inc value = .ok v → s.Only c ∧ (c ≠ TX → StorableAt key v)
  | .expirevar col key time => ∀ c k t, s.col_lookup.lookup (upper col) = some c → Storage.concatKey key = .ok k →
    arith time = some t → s.Only c ∧ (c ≠ TX → StorableAt (.str (expireKey k)) (.num (now + t)))
  -- not written in the same request
  | .deletevar col key => ∀ c, s.col_lookup.lookup (upper col) = some c → truthy (s.var? c key) = true →
    s.Only c ∧ (c ≠ TX → ∃ k, key = .str k ∧ k ≠ "__altered" ∧ s.setkey.lookup key = none)

/-- The end of a request: expiry times are only written along with a variable. -/
def CalmEnd (s : Storage) : Prop := ∀ c, c ≠ TX → s.flag c = true → s.setkey = [] ∨ s.setkey_t = true

variable {a : Nat}

theorem addr_ok {s : Storage} {c : Option Scalar} (h : s.addr c = .ok a) :
    ∃ c', c = some c' ∧ s.storage.lookup c' = some a := by
  cases c with
  | none => cases h
  | some c' =>
    simp only [Storage.addr, bind_some] at h
    cases hl : s.storage.lookup c' with
    | none => simp [hl] at h
    | some a' => exact ⟨c', rfl, by simpa [hl] using h⟩

theorem Alike.addr {d r : Storage} (h : Alike d r) (c : Option Scalar) : d.addr c = r.addr c := by
  simp only [Storage.addr, h.storage]

theorem Alike.touch {d r : Storage} (h : Alike d r) (a : Nat) {t t' : Tbl} (ht : ∀ k, t.lookup k = t'.lookup k)
    {delkey setkey setkey_t delkey' setkey' setkey_t'} :
    Alike (d.touch a t delkey setkey setkey_t) (r.touch a t' delkey' setkey' setkey_t') where
  dict := h.dict
  redis := h.redis
  next := h.next
  storage := h.storage
  col_lookup := h.col_lookup
  heap a' k := by
    by_cases ha : a' = a
    · subst ha
      simpa [Storage.touch] using ht k
    · simpa [Storage.touch, ha] using h.heap a' k

theorem write_write (s : Storage) (a : Nat) (key key' : Scalar) (v v' : Val) :
    (s.write a key v).write a key' v' =
      s.touch a (assign (assign (s.heap a) key v) key' v') s.delkey s.setkey s.setkey_t := by
  simp [Storage.write, Storage.touch]

theorem erase_write (s : Storage) (a : Nat) (key key' : Scalar) (v' : Val) :
    (s.erase a key).write a key' v' =
      s.touch a (assign (unassign (s.heap a) key) key' v') s.delkey s.setkey s.setkey_t := by
  simp [Storage.write, Storage.erase, Storage.touch]

section

variable {s : Storage} {key value : Scalar} {set_t : Bool}

theorem trackSet_dict (h : s.backend = .dict) : s.trackSet key value set_t = s := by
  simp [Storage.trackSet, h]

theorem trackSet_redis (h : s.backend = .redis) :
    s.trackSet key value set_t = { s with setkey := assign s.setkey key value, setkey_t := set_t } := by
  simp [Storage.trackSet, h]

theorem trackDelete_dict (h : s.backend = .dict) : s.trackDelete key = s := by
  simp [Storage.trackDelete, h]

theorem trackDelete_redis (h : s.backend = .redis) :
    s.trackDelete key = { s with delkey := s.delkey ++ [key] } := by
  simp [Storage.trackDelete, h]

end

variable {c : Scalar}

/-- What storing `value` under `key` does on the two backends. -/
theorem Synced.put {d r : Storage} (h : Synced d r) (hc : r.storage.lookup c = some a)
    (honly : r.Only c) {key value : Scalar} (hstor : c ≠ TX → StorableAt key value) (set_t' set_t : Bool) :
    Synced (((d.write a key value).write a altered (.leaf (.bool true))).trackSet key value set_t')
      (((r.write a key value).write a altered (.leaf (.bool true))).trackSet key value set_t) := by
  rw [trackSet_dict (by exact h.alike.dict), trackSet_redis (by exact h.alike.redis)]
  have hd := write_write d a key altered value (.leaf (.bool true))
  have hr := write_write r a key altered value (.leaf (.bool true))
  rw [hd, hr]
  refine ⟨h.alike.touch a fun k => ?_, ?_, h.kept⟩
  · simp [h.alike.heap a]
  · refine h.tracked.touch hc honly set_t (by simp [truthy]) (fun hTX key' v hkey' hv => ?_) fun hTX => ?_
    · rw [lookup_assign, if_neg hkey', lookup_assign] at hv
      split at hv
      · obtain ⟨k, hk, hne, hs⟩ := hstor hTX
        cases hv
        next heq => exact ⟨k, value, heq.trans hk, hne, rfl, hs⟩
      · exact h.tracked.storable c a key' v hTX hc hkey' hv
    · obtain ⟨k, rfl, hne, -⟩ := hstor hTX
      exact (h.tracked.pending_only hc honly hTX).set hne value _

theorem Synced.set_var {d r : Storage} (h : Synced d r) {now col key inc value}
    (hcalm : Calm r now (.setvar col key inc value)) :
    Both Synced (d.set_var col key inc value) (r.set_var col key inc value) := by
  simp only [Storage.set_var, h.alike.col_lookup, h.alike.addr]
  cases ha : r.addr (r.col_lookup.lookup (upper col)) with
  | error e => rfl
  | ok a =>
    obtain ⟨c, hcol, hc⟩ := addr_ok ha
    simp only [Bind.bind, Except.bind, h.alike.heap]
    cases hv : Storage.incremented ((r.heap a).lookup key) inc value with
    | error e => rfl
    | ok v =>
      obtain ⟨honly, hstor⟩ := hcalm c v hcol (by simpa [Storage.var?, hc] using hv)
      exact h.put hc honly hstor true true

theorem Synced.expire_var {d r : Storage} (h : Synced d r) {now col key time}
    (hcalm : Calm r now (.expirevar col key time)) :
    Both Synced (d.expire_var now col key time) (r.expire_var now col key time) := by
  simp only [Storage.expire_var, h.alike.col_lookup, h.alike.addr]
  cases ht : arith time with
  | none => rfl
  | some t =>
    cases ha : r.addr (r.col_lookup.lookup (upper col)) with
    | error e => rfl
    | ok a =>
      obtain ⟨c, hcol, hc⟩ := addr_ok ha
      cases hk : Storage.concatKey key with
      | error e => rfl
      | ok k =>
        obtain ⟨honly, hstor⟩ := hcalm c k t hcol hk ht
        exact h.put hc honly hstor d.setkey_t r.setkey_t

theorem Synced.delete_var {d r : Storage} (h : Synced d r) {now col key}
    (hcalm : Calm r now (.deletevar col key)) :
    Both Synced (d.delete_var col key) (r.delete_var col key) := by
  simp only [Storage.delete_var, h.alike.col_lookup, h.alike.addr]
  cases ha : r.addr (r.col_lookup.lookup (upper col)) with
  | error e => rfl
  | ok a =>
    obtain ⟨c, hcol, hc⟩ := addr_ok ha
    simp only [Bind.bind, Except.bind, h.alike.heap]
    cases htruthy : truthy ((r.heap a).lookup key) with
    | false => exact h
    | true =>
      obtain ⟨honly, hset⟩ := hcalm c hcol (by simpa [Storage.var?, hc] using htruthy)
      have hd := erase_write d a key altered (.leaf (.bool true))
      have hr := erase_write r a key altered (.leaf (.bool true))
      simp only [if_true]
      change Synced (Storage.trackDelete _ key) (Storage.trackDelete _ key)
      rw [trackDelete_dict (by exact h.alike.dict), trackDelete_redis (by exact h.alike.redis), hd, hr]
      refine ⟨h.alike.touch a fun k => ?_, ?_, h.kept⟩
      · simp [h.alike.heap a]
      · refine h.tracked.touch hc honly r.setkey_t (by simp [truthy]) (fun hTX key' v hkey' hv => ?_)
          fun hTX => ?_
        · rw [lookup_assign, if_neg hkey', lookup_unassign] at hv
          split at hv
          · cases hv
          · exact h.tracked.storable c a key' v hTX hc hkey' hv
        · obtain ⟨k, rfl, -, hnone⟩ := hset hTX
          exact (h.tracked.pending_only hc honly hTX).delete hnone _

theorem Alike.newTable {d r : Storage} (h : Alike d r) (col : Scalar) {t t' : Tbl}
    (ht : ∀ k, t.lookup k = t'.lookup k) (delkey : List Scalar) :
    Alike (d.newTable col t) { r.newTable col t' with delkey } where
  dict := h.dict
  redis := h.redis
  next := by simp [Storage.newTable, h.next]
  storage := by simp [Storage.newTable, h.storage, h.next]
  col_lookup := h.col_lookup
  heap a k := by
    by_cases ha : a = r.next
    · subst ha
      simpa [Storage.newTable, h.next] using ht k
    · simpa [Storage.newTable, h.next, ha] using h.heap a k

/-- The keys marked for deletion along with expired variables. -/
def deletedWith (expired : List String) : List Scalar :=
  expired.flatMap fun key => [.str key, .str (expireKey key)]

theorem mem_deletedWith {expired : List String} {key : Scalar} :
    key ∈ deletedWith expired ↔ removed expired key = true := by
  simp [deletedWith, removed]

section

variable {d r : Storage} (h : Synced d r) {value : Scalar} {expired : List String} {t : Tbl}
  (hload : Loaded (d.stored value) expired t) (hflag : r.flag value = false)
  (hcalm : (∀ c, r.flag c = false) ∨ expired = [])

include h hload hflag hcalm

theorem Synced.tracked_newTable (col_lookup : List (String × Scalar)) :
    Tracked { r.newTable value t with delkey := r.delkey ++ deletedWith expired, col_lookup } := by
  set r' : Storage := { r.newTable value t with delkey := r.delkey ++ deletedWith expired, col_lookup } with hr'
  have hlookup : ∀ c, r'.storage.lookup c = if c = value then some r.next else r.storage.lookup c :=
    fun c => lookup_assign ..
  have hself : r'.heap r.next = t := update_self ..
  have hother : ∀ c a, r.storage.lookup c = some a → r'.heap a = r.heap a := fun c a hc =>
    update_of_ne (Nat.ne_of_lt (h.tracked.below c a hc)) _ _
  have hvalue : r'.flag value = !expired.isEmpty := by
    rw [flag_of_lookup (a := r.next) (by simp [hlookup]), hself, hload.flag]
    cases expired <;> rfl
  have hne : ∀ c, c ≠ value → r'.flag c = r.flag c := by
    intro c hc
    cases ha : r.storage.lookup c with
    | none => simp [Storage.flag, Storage.var?, hlookup, hc, ha]
    | some a => rw [flag_of_lookup (a := a) (by simp [hlookup, hc, ha]), hother c a ha, flag_of_lookup ha]
  -- a collection loaded with expired variables is the only one written to
  have halone : r'.flag value = true → ∀ c, r.flag c = false := by
    intro htrue
    refine hcalm.resolve_right fun hnil => ?_
    rw [hvalue, hnil] at htrue
    cases htrue
  refine ⟨?_, ?_, (nodup_keys_assign h.tracked.nodup _ _).1, ?_, ?_, ?_, ?_, ?_⟩
  · intro c a hc
    rw [hlookup] at hc
    have hnext : r'.next = r.next + 1 := rfl
    split at hc
    · cases hc
      omega
    · have := h.tracked.below c a hc
      omega
  · intro c c' a hc hc'
    rw [hlookup] at hc hc'
    split at hc <;> split at hc'
    · next h₁ h₂ => exact h₁.trans h₂.symm
    · cases hc
      exact absurd (h.tracked.below c' _ hc') (Nat.lt_irrefl _)
    · cases hc'
      exact absurd (h.tracked.below c _ hc) (Nat.lt_irrefl _)
    · exact h.tracked.separate c c' a hc hc'
  · intro c c' hc hc'
    by_cases h₁ : c = value <;> by_cases h₂ : c' = value
    · rw [h₁, h₂]
    · subst h₁
      rw [hne c' h₂, halone hc c'] at hc'
      cases hc'
    · subst h₂
      rw [hne c h₁, halone hc' c] at hc
      cases hc
    · rw [hne c h₁] at hc
      rw [hne c' h₂] at hc'
      exact h.tracked.one c c' hc hc'
  · intro hnone
    have hnil : expired = [] := by
      have := hnone value
      rw [hvalue] at this
      simpa using this
    obtain ⟨hdel, hset⟩ := h.tracked.idle fun c => by
      by_cases hc : c = value
      · rw [hc, hflag]
      · rw [← hne c hc, hnone]
    exact ⟨by simp [hr', hdel, hnil, deletedWith], hset⟩
  · intro c a key v hTX hc hkey hv
    rw [hlookup] at hc
    split at hc
    · cases hc
      rw [hself, hload.other key hkey] at hv
      split at hv
      · cases hv
      · exact h.kept.storable _ key v hv
    · rw [hother c a hc] at hv
      exact h.tracked.storable c a key v hTX hc hkey hv
  · intro c a hTX hc hfalse k hk
    rw [hlookup] at hc
    have hkey : Scalar.str k ≠ altered := by simpa [altered] using hk
    split at hc
    · next heq =>
      subst heq
      cases hc
      have hnil : expired = [] := by
        rw [hvalue] at hfalse
        simpa using hfalse
      rw [hself, hload.other _ hkey, hnil]
      exact h.kept.fields (colName c) k
    · next heq =>
      rw [hother c a hc]
      rw [hne c heq] at hfalse
      exact h.tracked.loaded c a hTX hc hfalse k hk
  · intro c a hTX hc htrue
    rw [hlookup] at hc
    split at hc
    · next heq =>
      subst heq
      cases hc
      obtain ⟨hdel, hset⟩ := h.tracked.idle (halone htrue)
      have hdelkey : r'.delkey = deletedWith expired := by simp [hr', hdel]
      have hsetkey : r'.setkey = [] := hset
      rw [hself, hdelkey, hsetkey]
      refine ⟨by simp, by simp, fun key hkey => ?_, fun k hk => ?_⟩
      · simp only [deletedWith, mem_flatMap] at hkey
        obtain ⟨e, -, hkey⟩ := hkey
        rcases mem_cons.mp hkey with rfl | hkey
        · exact ⟨_, rfl⟩
        · exact ⟨_, mem_singleton.mp hkey⟩
      · have hkey : Scalar.str k ≠ altered := by simpa [altered] using hk
        rw [hload.other _ hkey]
        simp only [fieldAfter, lookup_nil, mem_deletedWith]
        split
        · rfl
        · exact h.kept.fields (colName c) k
    · next heq =>
      rw [hne c heq] at htrue
      have hnil : expired = [] := hcalm.resolve_left fun hall => by rw [hall c] at htrue; cases htrue
      have hdelkey : r'.delkey = r.delkey := by simp [hr', hnil, deletedWith]
      rw [hother c a hc, hdelkey]
      exact h.tracked.pending c a hTX hc htrue

end

theorem Synced.initcol {d r : Storage} (h : Synced d r) {now col value}
    (hcalm : Calm r now (.initcol col value)) :
    Both Synced (d.perform now (.initcol col value)) (r.perform now (.initcol col value)) := by
  obtain ⟨ed, td, hed, hd, hloadd⟩ := dictInitialize_ok h.kept now value
  obtain ⟨er, tr, her, hr, hloadr⟩ := redisInitialize_ok h.kept now value
  have hmem : ∀ k, k ∈ ed ↔ k ∈ er := fun k => (hed k).trans (her k).symm
  simp only [Storage.perform, Storage.initializeCol, h.alike.dict, h.alike.redis, hd, hr]
  have htracked := h.tracked_newTable hloadr hcalm.1 (hcalm.2.imp_right fun hnil => ?_)
    (assign r.col_lookup col value)
  · have halike := h.alike.newTable value (hloadd.congr hloadr hmem) (r.delkey ++ deletedWith er)
    exact ⟨{ halike with col_lookup := congrArg (assign · col value) h.alike.col_lookup }, htracked, h.kept⟩
  · obtain ⟨expired, hexp, hok⟩ := redisExpire_ok now (h.kept.storable (colName value))
      (h.kept.fields (colName value))
    rw [hok] at hnil
    obtain rfl := Except.ok.inj hnil
    exact eq_nil_iff_forall_not_mem.mpr fun k hk => by simpa using (hexp k).mpr ((her k).mp hk)

/-- **One operation.** -/
theorem Synced.perform {d r : Storage} (h : Synced d r) {now : Rat} {op : StorageOp} (hcalm : Calm r now op) :
    Both Synced (d.perform now op) (r.perform now op) := by
  cases op with
  | initcol col value => exact h.initcol hcalm
  | setvar col key inc value => exact h.set_var hcalm
  | expirevar col key time => exact h.expire_var hcalm
  | deletevar col key => exact h.delete_var hcalm

/-- Every operation meets its condition in the state it is performed in, and the end meets its own. -/
def CalmRun : Storage → List (Rat × StorageOp) → Prop
  | s, [] => CalmEnd s
  | s, (now, op) :: ops => Calm s now op ∧ ∀ s', s.perform now op = .ok s' → CalmRun s' ops

variable {ops : List (Rat × StorageOp)}

/-- **A run of operations.** -/
theorem Synced.performAll {d r : Storage} (h : Synced d r) (hcalm : CalmRun r ops) :
    ∃ d' r' e, d.performAll ops = (d', e) ∧ r.performAll ops = (r', e) ∧ Synced d' r' ∧
      (e = none → CalmEnd r') := by
  induction ops generalizing d r with
  | nil => exact ⟨d, r, none, rfl, rfl, h, fun _ => hcalm⟩
  | cons op ops ih =>
    obtain ⟨now, op⟩ := op
    have hboth := h.perform hcalm.1
    simp only [Storage.performAll]
    cases hd : d.perform now op with
    | error e =>
      cases hr : r.perform now op with
      | error e' =>
        rw [hd, hr] at hboth
        exact ⟨d, r, some e, rfl, by rw [show e' = e from hboth.symm], h, by simp⟩
      | ok r' => rw [hd, hr] at hboth; cases hboth
    | ok d' =>
      cases hr : r.perform now op with
      | error e' => rw [hd, hr] at hboth; cases hboth
      | ok r' =>
        rw [hd, hr] at hboth
        exact ih hboth (hcalm.2 r' hr)

/-! ## Persisting -/

/-- `cjson` gives back what it was given, as long as only what Redis can store is stored. -/
def Copies (cjson : Tbl → Except String Tbl) : Prop :=
  ∀ t, (∀ key v, t.lookup key = some v → StorableEntry key v) →
    ∃ t', cjson t = .ok t' ∧ ∀ key, t'.lookup key = t.lookup key

variable {cjson : Tbl → Except String Tbl}

/-- A collection that is not written to is not persisted, and neither is `TX`. -/
theorem persistCol_of_not {s : Storage}
    (hc : s.storage.lookup c = some a) (h : c = TX ∨ s.flag c = false) : s.persistCol cjson c a = (s, none) := by
  unfold Storage.persistCol
  rw [if_neg]
  rintro ⟨hTX, hflag⟩
  rw [← flag_of_lookup hc] at hflag
  exact h.elim hTX fun hfalse => by simp [hfalse] at hflag

/-- The two states while the collections are persisted. -/
structure Persisting (d r : Storage) : Prop where
  alike : Alike d r
  kept : Kept d.shm r.redis
  separate : ∀ c c' a, r.storage.lookup c = some a → r.storage.lookup c' = some a → c = c'
  one : ∀ c c', r.flag c = true → r.flag c' = true → c = c'
  storable : ∀ c a key v, c ≠ TX → r.storage.lookup c = some a → key ≠ altered →
    (r.heap a).lookup key = some v → StorableEntry key v
  pending : ∀ c a, c ≠ TX → r.storage.lookup c = some a → r.flag c = true →
    Pending r.delkey r.setkey (r.heap a) (r.redis (colName c))
  ends : CalmEnd r

theorem Alike.flag {d r : Storage} (h : Alike d r) (c : Scalar) : d.flag c = r.flag c := by
  simp only [Storage.flag, Storage.var?, h.storage, h.heap]

/-- What Redis holds of a collection after the pipeline. -/
def Storage.pipeline (r : Storage) (c : Scalar) : List (String × String) :=
  let hash := Storage.hdel (r.redis (colName c)) r.delkey
  if r.setkey_t then Storage.hmset hash r.setkey else hash

theorem persistCol_dict {d : Storage} {t : Tbl}
    (hdict : d.backend = .dict) (hc : d.storage.lookup c = some a) (hTX : c ≠ TX) (hflag : d.flag c = true)
    (hjson : cjson (unassign (d.heap a) altered) = .ok t) :
    d.persistCol cjson c a =
      ({ d.erase a altered with shm := Function.update d.shm (colName c) (some t) }, none) := by
  rw [flag_of_lookup hc] at hflag
  have hheap : (d.erase a altered).heap a = unassign (d.heap a) altered := update_self ..
  have hback : (d.erase a altered).backend = .dict := hdict
  unfold Storage.persistCol
  rw [if_pos ⟨hTX, hflag⟩]
  simp only [hback, hheap, Storage.dictPersist, hjson]
  rfl

theorem persistCol_redis {r : Storage} {t : Tbl}
    (hredis : r.backend = .redis) (hc : r.storage.lookup c = some a) (hTX : c ≠ TX) (hflag : r.flag c = true)
    (hjson : cjson (unassign (r.heap a) altered) = .ok t) :
    r.persistCol cjson c a =
      ({ r.erase a altered with redis := Function.update r.redis (colName c) (r.pipeline c) }, none) := by
  rw [flag_of_lookup hc] at hflag
  have hheap : (r.erase a altered).heap a = unassign (r.heap a) altered := update_self ..
  have hback : (r.erase a altered).backend = .redis := hredis
  unfold Storage.persistCol
  rw [if_pos ⟨hTX, hflag⟩]
  simp only [hback, hheap, Storage.redisPersist, hjson]
  rfl

theorem Persisting.persistCol (hjson : Copies cjson) {d r : Storage}
    (h : Persisting d r) (hc : r.storage.lookup c = some a) :
    ∃ d' r', d.persistCol cjson c a = (d', none) ∧ r.persistCol cjson c a = (r', none) ∧ Persisting d' r' ∧
      r'.storage = r.storage := by
  have hcd : d.storage.lookup c = some a := by rw [h.alike.storage, hc]
  by_cases hpersist : c = TX ∨ r.flag c = false
  · exact ⟨d, r, persistCol_of_not hcd (hpersist.imp_right fun hf => (h.alike.flag c).trans hf),
      persistCol_of_not hc hpersist, h, rfl⟩
  obtain ⟨hTX, hflag⟩ := not_or.mp hpersist
  have hflag : r.flag c = true := by simpa using hflag
  have hsame : ∀ key, (unassign (d.heap a) altered).lookup key = (unassign (r.heap a) altered).lookup key := by
    intro key
    rw [lookup_unassign, lookup_unassign, h.alike.heap a key]
  have hstor : ∀ key v, (unassign (r.heap a) altered).lookup key = some v → StorableEntry key v := by
    intro key v hv
    rw [lookup_unassign] at hv
    split at hv
    · cases hv
    · next hkey => exact h.storable c a key v hTX hc hkey hv
  obtain ⟨t, ht, hlookup⟩ := hjson _ fun key v hv => hstor key v (hsame key ▸ hv)
  obtain ⟨t', ht', -⟩ := hjson _ hstor
  have hheap : ∀ a' key v, ((r.erase a altered).heap a').lookup key = some v → (r.heap a').lookup key = some v := by
    intro a' key v hv
    by_cases ha : a' = a
    · subst ha
      simp only [Storage.erase, update_self, lookup_unassign] at hv
      split at hv
      · cases hv
      · exact hv
    · simpa only [Storage.erase, update_of_ne ha] using hv
  set r' : Storage := { r.erase a altered with redis := Function.update r.redis (colName c) (r.pipeline c) } with hr'
  have hflags : ∀ c', r'.flag c' = false := by
    intro c'
    cases hf : r'.flag c' with
    | false => rfl
    | true =>
      obtain ⟨a', ha'⟩ := lookup_of_flag hf
      have ha' : r.storage.lookup c' = some a' := ha'
      by_cases ha : a' = a
      · subst ha
        rw [flag_of_lookup (s := r') ha'] at hf
        simp [hr', Storage.erase, truthy] at hf
      · have hold : r.flag c' = true := by
          rw [flag_of_lookup ha', ← hf, flag_of_lookup (s := r') ha']
          simp [hr', Storage.erase, ha]
        rw [h.one c' c hold hflag, hc] at ha'
        exact absurd (some.inj ha').symm ha
  refine ⟨_, r', persistCol_dict h.alike.dict hcd hTX ((h.alike.flag c).trans hflag) ht,
    persistCol_redis h.alike.redis hc hTX hflag ht', ⟨?_, ?_, h.separate, ?_, ?_, ?_, ?_⟩, rfl⟩
  · refine ⟨h.alike.dict, h.alike.redis, h.alike.next, h.alike.storage, h.alike.col_lookup, fun a' k => ?_⟩
    by_cases ha : a' = a
    · subst ha
      simpa [hr', Storage.erase] using hsame k
    · simpa [hr', Storage.erase, ha] using h.alike.heap a' k
  · have hpending := h.pending c a hTX hc hflag
    constructor
    · intro name key v hv
      by_cases hname : name = colName c
      · subst hname
        simp only [update_self, getD_some, hlookup, hsame] at hv
        exact hstor key v hv
      · simp only [update_of_ne hname] at hv
        exact h.kept.storable name key v hv
    · intro name k
      by_cases hname : name = colName c
      · subst hname
        simp only [hr', update_self, getD_some, hlookup, hsame]
        rw [Storage.pipeline, hpending.lookup_persisted (h.ends c hTX hflag)]
        by_cases hk : k = "__altered"
        · subst hk
          have hset : r.setkey.lookup (.str "__altered") = none := by
            by_contra hsome
            obtain ⟨v, hv⟩ := ne_none_iff_exists'.mp hsome
            obtain ⟨k, hk, hne⟩ := hpending.set_keys _ v hv
            cases hk
            exact hne rfl
          have hstored : ((d.shm (colName c)).getD []).lookup (.str "__altered") = none := by
            by_contra hsome
            obtain ⟨v, hv⟩ := ne_none_iff_exists'.mp hsome
            obtain ⟨k, s, hk, hne, -⟩ := h.kept.storable _ _ v hv
            cases hk
            exact hne rfl
          simp [fieldAfter, hset, h.kept.fields, hstored, altered]
        · rw [hpending.fields k hk, lookup_unassign, if_neg (by simpa [altered] using hk)]
      · simp only [hr', update_of_ne hname]
        exact h.kept.fields name k
  · intro c₁ c₂ h₁
    rw [hflags c₁] at h₁
    cases h₁
  · intro c' a' key v hTX' hc' hkey hv
    exact h.storable c' a' key v hTX' hc' hkey (hheap a' key v hv)
  · intro c' a' _ _ htrue
    rw [hflags c'] at htrue
    cases htrue
  · intro c' _ htrue
    rw [hflags c'] at htrue
    cases htrue

theorem Persisting.persistAll (hjson : Copies cjson)
    (cols : List (Scalar × Nat)) {d r : Storage} (h : Persisting d r)
    (hcols : ∀ p ∈ cols, r.storage.lookup p.1 = some p.2) :
    ∃ d' r', Storage.persistAll cjson cols d = (d', none) ∧ Storage.persistAll cjson cols r = (r', none) ∧
      Persisting d' r' := by
  induction cols generalizing d r with
  | nil => exact ⟨d, r, rfl, rfl, h⟩
  | cons p cols ih =>
    obtain ⟨c, a⟩ := p
    obtain ⟨d₁, r₁, hd, hr, h₁, hstorage⟩ := h.persistCol hjson (hcols _ mem_cons_self)
    obtain ⟨d₂, r₂, hd₂, hr₂, h₂⟩ := ih h₁ fun p hp => hstorage ▸ hcols p (mem_cons_of_mem _ hp)
    exact ⟨d₂, r₂, by simp only [Storage.persistAll, hd, hd₂], by simp only [Storage.persistAll, hr, hr₂], h₂⟩

theorem lookup_of_mem {α β : Type} [DecidableEq α] {m : List (α × β)} (h : (m.map Prod.fst).Nodup) {p : α × β}
    (hp : p ∈ m) : m.lookup p.1 = some p.2 := by
  induction m with
  | nil => cases hp
  | cons q m ih =>
    rw [map_cons, nodup_cons] at h
    rw [lookup_cons]
    rcases mem_cons.mp hp with rfl | hp
    · rw [if_pos rfl]
    · rw [if_neg fun heq : p.1 = q.1 => h.1 (heq ▸ mem_map.mpr ⟨p, hp, rfl⟩), ih h.2 hp]

theorem Synced.persist (hjson : Copies cjson) {d r : Storage} (h : Synced d r)
    (hends : CalmEnd r) :
    ∃ d' r', d.persist cjson = (d', none) ∧ r.persist cjson = (r', none) ∧ Alike d' r' ∧ Kept d'.shm r'.redis := by
  have hpersisting : Persisting d r := ⟨h.alike, h.kept, h.tracked.separate, h.tracked.one, h.tracked.storable,
    h.tracked.pending, hends⟩
  obtain ⟨d', r', hd, hr, h'⟩ := hpersisting.persistAll hjson r.storage fun p hp =>
    lookup_of_mem h.tracked.nodup hp
  exact ⟨d', r', by rw [Storage.persist, h.alike.storage, hd], hr, h'.alike, h'.kept⟩

/-! ## TX stays out of the stores -/

/-- Nothing is kept of `TX`. -/
def NoTX (s : Storage) : Prop := s.shm (colName TX) = none ∧ s.redis (colName TX) = []

theorem colName_inj_TX (h : colName c = colName TX) : c = TX := by
  have hlist := congrArg String.toList h
  simp only [colName, String.toList_append, append_cancel_left_eq] at hlist
  cases c with
  | str s => exact congrArg Scalar.str (String.toList_injective hlist)
  | bool b => cases b <;> exact absurd hlist (by decide)
  | num q =>
    have hX : 'X' ∉ (numToString q).toList := notMem_numToString (by decide) (by decide) q
    exact absurd (hlist ▸ (by decide : 'X' ∈ (Scalar.str "TX").tostring.toList)) hX

theorem bind_eq_ok {α β : Type} {x : Except String α} {f : α → Except String β} {b : β} :
    (x >>= f) = .ok b ↔ ∃ a, x = .ok a ∧ f a = .ok b := by
  cases x <;> simp [Bind.bind, Except.bind]

/-- The same stores outside the request. -/
def SameStores (s s' : Storage) : Prop := s'.shm = s.shm ∧ s'.redis = s.redis

theorem sameStores_put (s : Storage) (a : Nat) (key : Scalar) (v : Scalar) (set_t : Bool) :
    SameStores s (((s.write a key v).write a altered (.leaf (.bool true))).trackSet key v set_t) := by
  unfold Storage.trackSet
  split <;> exact ⟨rfl, rfl⟩

theorem sameStores_initializeCol {s s' : Storage} {now : Rat} {col : Scalar} (h : s.initializeCol now col = .ok s') :
    SameStores s s' := by
  unfold Storage.initializeCol at h
  split at h
  · unfold Storage.dictInitialize at h
    split at h
    · cases h
      exact ⟨rfl, rfl⟩
    · obtain ⟨x, -, h⟩ := bind_eq_ok.mp h
      cases h
      exact ⟨rfl, rfl⟩
  · obtain ⟨x, -, h⟩ := bind_eq_ok.mp h
    cases h
    exact ⟨rfl, rfl⟩

/-- Operations leave the stores as they are. -/
theorem sameStores_perform {s s' : Storage} {now : Rat} {op : StorageOp} (h : s.perform now op = .ok s') :
    SameStores s s' := by
  cases op with
  | initcol col value =>
    obtain ⟨x, hx, h⟩ := bind_eq_ok.mp h
    cases h
    have hstores := sameStores_initializeCol hx
    exact ⟨hstores.1, hstores.2⟩
  | setvar col key inc value =>
    obtain ⟨a, -, h⟩ := bind_eq_ok.mp h
    obtain ⟨v, -, h⟩ := bind_eq_ok.mp h
    cases h
    exact sameStores_put ..
  | expirevar col key time =>
    simp only [Storage.perform, Storage.expire_var] at h
    split at h
    · cases h
    · obtain ⟨a, -, h⟩ := bind_eq_ok.mp h
      obtain ⟨k, -, h⟩ := bind_eq_ok.mp h
      cases h
      exact sameStores_put ..
  | deletevar col key =>
    obtain ⟨a, -, h⟩ := bind_eq_ok.mp h
    split at h
    · cases h
      unfold Storage.trackDelete
      split <;> exact ⟨rfl, rfl⟩
    · cases h
      exact ⟨rfl, rfl⟩

theorem sameStores_performAll (ops : List (Rat × StorageOp)) (s : Storage) : SameStores s (s.performAll ops).1 := by
  induction ops generalizing s with
  | nil => exact ⟨rfl, rfl⟩
  | cons op ops ih =>
    simp only [Storage.performAll]
    cases hop : s.perform op.1 op.2 with
    | error e => exact ⟨rfl, rfl⟩
    | ok s' =>
      obtain ⟨hshm, hredis⟩ := sameStores_perform hop
      obtain ⟨hshm', hredis'⟩ := ih s'
      exact ⟨hshm'.trans hshm, hredis'.trans hredis⟩

theorem persistCol_noTX (cjson : Tbl → Except String Tbl) {s : Storage} (h : NoTX s) (c : Scalar) (a : Nat) :
    NoTX (s.persistCol cjson c a).1 := by
  unfold Storage.persistCol
  split
  · next hc =>
    have hname : colName TX ≠ colName c := fun heq => hc.1 (colName_inj_TX heq.symm)
    cases hback : s.backend with
    | dict =>
      simp only [show (s.erase a altered).backend = .dict from hback, Storage.dictPersist]
      cases cjson ((s.erase a altered).heap a) with
      | error e => exact h
      | ok t => exact ⟨(update_of_ne hname _ _).trans h.1, h.2⟩
    | redis =>
      simp only [show (s.erase a altered).backend = .redis from hback, Storage.redisPersist]
      cases cjson ((s.erase a altered).heap a) with
      | error e => exact h
      | ok t => exact ⟨h.1, (update_of_ne hname _ _).trans h.2⟩
  · exact h

theorem persistAll_noTX {cols : List (Scalar × Nat)} {s : Storage} (h : NoTX s) :
    NoTX (Storage.persistAll cjson cols s).1 := by
  induction cols generalizing s with
  | nil => exact h
  | cons p cols ih =>
    have hcol := persistCol_noTX cjson h p.1 p.2
    simp only [Storage.persistAll]
    split
    · next heq =>
      rw [heq] at hcol
      exact ih hcol
    · next heq =>
      rw [heq] at hcol
      exact hcol

/-- **`TX` is never persisted.** -/
theorem request_noTX (cjson : Tbl → Except String Tbl) {s : Storage} (h : NoTX s) (ops : List (Rat × StorageOp)) :
    NoTX (s.request cjson ops).1 := by
  obtain ⟨hshm, hredis⟩ := sameStores_performAll ops s.start
  have hops : NoTX (s.start.performAll ops).1 := ⟨congrFun hshm _ ▸ h.1, congrFun hredis _ ▸ h.2⟩
  unfold Storage.request
  split
  · next heq =>
    rw [heq] at hops
    exact persistAll_noTX hops
  · next heq =>
    rw [heq] at hops
    exact hops

/-! ## The law -/

/-- One request's outcome with the shared dictionary and with Redis. -/
structure SameOutcome (d r : Storage × Option String) : Prop where
  error : d.2 = r.2
  contents : ∀ col key, d.1.var? col key = r.1.var? col key
  noTX : NoTX d.1 ∧ NoTX r.1

/-- After every request, the collections in memory are the same with either backend. -/
def BackendsAgree (cjson : Tbl → Except String Tbl) (reqs : List (List (Rat × StorageOp))) : Prop :=
  Forall₂ SameOutcome (Storage.requests cjson (.empty .dict) reqs) (Storage.requests cjson (.empty .redis) reqs)

/-- Every request is calm, with the stores the ones before it leave. -/
def CalmRequests (cjson : Tbl → Except String Tbl) : Storage → List (List (Rat × StorageOp)) → Prop
  | _, [] => True
  | s, ops :: rest => CalmRun s.start ops ∧ CalmRequests cjson (s.request cjson ops).1 rest

theorem synced_start {d r : Storage} (hd : d.backend = .dict) (hr : r.backend = .redis) (h : Kept d.shm r.redis) :
    Synced d.start r.start := by
  have hlookup : ∀ c a, r.start.storage.lookup c = some a → c = TX ∧ a = 0 := by
    intro c a hc
    simp only [Storage.start, lookup_cons, lookup_nil] at hc
    split at hc
    · next heq => exact ⟨heq, (some.inj hc).symm⟩
    · cases hc
  have hflag : ∀ c, r.start.flag c = false := by
    intro c
    cases hf : r.start.flag c with
    | false => rfl
    | true =>
      obtain ⟨a, ha⟩ := lookup_of_flag hf
      rw [flag_of_lookup ha] at hf
      cases hf
  refine ⟨⟨hd, hr, rfl, rfl, rfl, fun _ _ => rfl⟩, ⟨?_, ?_, ?_, ?_, ?_, ?_, ?_, ?_⟩, h⟩
  · intro c a hc
    rw [(hlookup c a hc).2]
    exact Nat.one_pos
  · intro c c' a hc hc'
    exact (hlookup c a hc).1.trans (hlookup c' a hc').1.symm
  · simp [Storage.start]
  · intro c c' hc
    rw [hflag c] at hc
    cases hc
  · exact fun _ => ⟨rfl, rfl⟩
  · exact fun c a key v hTX hc => absurd (hlookup c a hc).1 hTX
  · exact fun c a hTX hc => absurd (hlookup c a hc).1 hTX
  · exact fun c a hTX hc => absurd (hlookup c a hc).1 hTX

theorem Alike.contents {d r : Storage} (h : Alike d r) (col key : Scalar) : d.var? col key = r.var? col key := by
  simp only [Storage.var?, h.storage, h.heap]

theorem request_same (hjson : Copies cjson) {d r : Storage}
    (hd : d.backend = .dict) (hr : r.backend = .redis) (h : Kept d.shm r.redis)
    (hcalm : CalmRun r.start ops) :
    (d.request cjson ops).2 = (r.request cjson ops).2 ∧ Alike (d.request cjson ops).1 (r.request cjson ops).1 ∧
      Kept (d.request cjson ops).1.shm (r.request cjson ops).1.redis := by
  obtain ⟨d', r', e, hd', hr', hsynced, hends⟩ := (synced_start hd hr h).performAll hcalm
  simp only [Storage.request, hd', hr']
  cases e with
  | some e => exact ⟨rfl, hsynced.alike, hsynced.kept⟩
  | none =>
    obtain ⟨d'', r'', hd'', hr'', halike, hkept⟩ := hsynced.persist hjson (hends rfl)
    simp only [hd'', hr'']
    exact ⟨trivial, halike, hkept⟩

/-- **Calm requests find the same collections with either backend.** -/
theorem backendsAgree_of_calm {cjson : Tbl → Except String Tbl} (hjson : Copies cjson)
    (reqs : List (List (Rat × StorageOp))) (hcalm : CalmRequests cjson (.empty .redis) reqs) :
    BackendsAgree cjson reqs := by
  have hmain : ∀ reqs d r, d.backend = .dict → r.backend = .redis → Kept d.shm r.redis → NoTX d → NoTX r →
      CalmRequests cjson r reqs →
      Forall₂ SameOutcome (Storage.requests cjson d reqs) (Storage.requests cjson r reqs) := by
    intro reqs
    induction reqs with
    | nil => exact fun d r _ _ _ _ _ _ => .nil
    | cons ops rest ih =>
      intro d r hd hr hkept htd htr hcalm
      obtain ⟨herror, halike, hkept'⟩ := request_same hjson hd hr hkept hcalm.1
      have htd' := request_noTX cjson htd ops
      have htr' := request_noTX cjson htr ops
      exact .cons ⟨herror, halike.contents, htd', htr'⟩
        (ih _ _ halike.dict halike.redis hkept' htd' htr' hcalm.2)
  exact hmain reqs _ _ rfl rfl ⟨fun _ _ _ h => (by cases h), fun _ _ => rfl⟩ ⟨rfl, rfl⟩ ⟨rfl, rfl⟩ hcalm

/-- One variable of one collection, set, and read back by the next request. -/
def calmRequests : List (List (Rat × StorageOp)) :=
  [[(0, .initcol "IP" (.str "1.2.3.4")), (0, .setvar "IP" (.str "A") false (.str "x"))],
    [(0, .initcol "IP" (.str "1.2.3.4"))]]

theorem copies_ok : Copies .ok := fun t _ => ⟨t, rfl, fun _ => rfl⟩

theorem backendsAgree_calmRequests : BackendsAgree .ok calmRequests := by
  refine backendsAgree_of_calm copies_ok calmRequests
    ⟨⟨⟨rfl, .inr rfl⟩, fun s hs => ?_⟩, ⟨⟨by decide +kernel, .inr ?_⟩, fun s hs => ?_⟩, trivial⟩
  · obtain rfl := Except.ok.inj hs
    refine ⟨fun c v _ hv => ⟨fun c' hc' => ?_, fun _ => ⟨"A", rfl, by decide, ?_⟩⟩, fun s hs => ?_⟩
    · obtain ⟨a, ha⟩ := lookup_of_flag hc'
      rw [flag_of_lookup ha] at hc'
      change List.lookup c' [(TX, 0), (.str "1.2.3.4", 1)] = some a at ha
      rw [lookup_cons, lookup_cons] at ha
      split at ha
      · cases ha
        cases hc'
      · split at ha
        · cases ha
          cases hc'
        · cases ha
    · cases hv
      exact ⟨by decide, by decide⟩
    · obtain rfl := Except.ok.inj hs
      exact fun _ _ _ => .inr rfl
  · rfl
  · obtain rfl := Except.ok.inj hs
    exact fun _ _ _ => .inl rfl

/-- A variable that is set and then deleted in one request is back in the next one, with Redis. -/
theorem not_backendsAgree :
    ¬ ∀ (cjson : Tbl → Except String Tbl), Copies cjson → ∀ reqs, BackendsAgree cjson reqs := by
  intro h
  have hreqs := h .ok copies_ok
    [[(0, .initcol "IP" (.str "1.2.3.4")), (0, .setvar "IP" (.str "A") false (.str "x")),
      (0, .deletevar "IP" (.str "A"))],
      [(0, .initcol "IP" (.str "1.2.3.4"))]]
  obtain ⟨-, hlast⟩ := forall₂_cons.mp hreqs
  obtain ⟨hsame, -⟩ := forall₂_cons.mp hlast
  have hsome := congrArg isSome (hsame.contents (.str "1.2.3.4") (.str "A"))
  revert hsome
  decide +kernel

end OpenResty.Waf
