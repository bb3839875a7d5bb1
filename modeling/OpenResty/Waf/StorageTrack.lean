/-
What is tracked for Redis while a request writes to one collection: the keys
deleted and written lead from the stored hash to the table in memory.
-/
import OpenResty.Waf.StorageLoad

namespace OpenResty.Waf

open Lua Lib Function
open List hiding lookup_cons

/-! ## What is tracked -/

/-- The field of a hash after the tracked keys are deleted and written. -/
def fieldAfter (delkey : List Scalar) (setkey : List (Scalar × Scalar)) (hash : List (String × String)) (k : String) :
    Option String :=
  match setkey.lookup (.str k) with
  | some v => some v.tostring
  | none => if .str k ∈ delkey then none else hash.lookup k

/-- The tracked keys lead from the stored hash to the table. -/
structure Pending (delkey : List Scalar) (setkey : List (Scalar × Scalar)) (t : Tbl) (hash : List (String × String)) :
    Prop where
  set_keys : ∀ key v, setkey.lookup key = some v → ∃ k, key = .str k ∧ k ≠ "__altered"
  nodup : (setkey.map Prod.fst).Nodup
  del_keys : ∀ key ∈ delkey, ∃ k, key = .str k
  fields : ∀ k, k ≠ "__altered" → fieldAfter delkey setkey hash k = (t.lookup (.str k)).map Val.tostring

theorem lookup_hdel {keys : List Scalar} (h : ∀ key ∈ keys, ∃ k, key = .str k) (hash : List (String × String))
    (k : String) : (Storage.hdel hash keys).lookup k = if .str k ∈ keys then none else hash.lookup k := by
  induction keys generalizing hash with
  | nil => simp [Storage.hdel]
  | cons key keys ih =>
    obtain ⟨k', rfl⟩ := h key mem_cons_self
    have hstep : Storage.hdel hash (.str k' :: keys) = Storage.hdel (unassign hash k') keys := rfl
    rw [hstep, ih (fun key hkey => h key (mem_cons_of_mem _ hkey)), lookup_unassign]
    by_cases hk : k = k' <;> by_cases hmem : Scalar.str k ∈ keys <;> simp_all

theorem lookup_hmset {fields : List (Scalar × Scalar)} (h : ∀ p ∈ fields, ∃ k, p.1 = .str k)
    (hnodup : (fields.map Prod.fst).Nodup) (hash : List (String × String)) (k : String) :
    (Storage.hmset hash fields).lookup k =
      match fields.lookup (.str k) with
      | some v => some v.tostring
      | none => hash.lookup k := by
  induction fields generalizing hash with
  | nil => simp [Storage.hmset]
  | cons p fields ih =>
    obtain ⟨key, v⟩ := p
    obtain ⟨k', rfl⟩ := h _ mem_cons_self
    rw [map_cons, nodup_cons] at hnodup
    have hstep : Storage.hmset hash ((.str k', v) :: fields) = Storage.hmset (assign hash k' v.tostring) fields := rfl
    rw [hstep, ih (fun p hp => h p (mem_cons_of_mem _ hp)) hnodup.2, lookup_cons, lookup_assign]
    by_cases hk : k = k'
    · subst hk
      have hnone : fields.lookup (.str k) = none := by
        by_contra hsome
        obtain ⟨w, hw⟩ := Option.ne_none_iff_exists'.mp hsome
        exact hnodup.1 (mem_map.mpr ⟨_, mem_of_lookup hw, rfl⟩)
      simp [hnone]
    · simp [hk]

theorem Pending.lookup_persisted {delkey setkey t hash} (h : Pending delkey setkey t hash) {setkey_t : Bool}
    (hset : setkey = [] ∨ setkey_t = true) (k : String) :
    (if setkey_t then Storage.hmset (Storage.hdel hash delkey) setkey else Storage.hdel hash delkey).lookup k =
      fieldAfter delkey setkey hash k := by
  have hkeys : ∀ p ∈ setkey, ∃ k, p.1 = .str k := fun p hp => by
    obtain ⟨v, hv⟩ := Option.isSome_iff_exists.mp (lookup_isSome_of_mem hp)
    obtain ⟨k, hk, -⟩ := h.set_keys _ v hv
    exact ⟨k, hk⟩
  have hfields := lookup_hmset hkeys h.nodup (Storage.hdel hash delkey) k
  rw [lookup_hdel h.del_keys] at hfields
  rcases hset with rfl | rfl
  · simp [fieldAfter, lookup_hdel h.del_keys, Storage.hmset]
  · exact hfields

theorem Pending.set {delkey setkey t hash} (h : Pending delkey setkey t hash) {k : String} (hk : k ≠ "__altered")
    (v : Scalar) (flag : Val) :
    Pending delkey (assign setkey (.str k) v) (assign (assign t (.str k) (.leaf v)) altered flag) hash where
  set_keys key w hw := by
    rw [lookup_assign] at hw
    split at hw
    · next heq => exact ⟨k, heq, hk⟩
    · exact h.set_keys key w hw
  nodup := (nodup_keys_assign h.nodup _ _).1
  del_keys := h.del_keys
  fields k' hk' := by
    have hne : Scalar.str k' ≠ altered := by simpa [altered] using hk'
    rw [lookup_assign, if_neg hne, lookup_assign, fieldAfter, lookup_assign]
    by_cases heq : k' = k
    · subst heq
      simp [Val.tostring]
    · simpa [heq, fieldAfter] using h.fields k' hk'

theorem Pending.delete {delkey setkey t hash} (h : Pending delkey setkey t hash) {k : String}
    (hset : setkey.lookup (.str k) = none) (flag : Val) :
    Pending (delkey ++ [.str k]) setkey (assign (unassign t (.str k)) altered flag) hash where
  set_keys := h.set_keys
  nodup := h.nodup
  del_keys key hkey := by
    rcases mem_append.mp hkey with hkey | hkey
    · exact h.del_keys key hkey
    · exact ⟨k, mem_singleton.mp hkey⟩
  fields k' hk' := by
    have hne : Scalar.str k' ≠ altered := by simpa [altered] using hk'
    rw [lookup_assign, if_neg hne, lookup_unassign, fieldAfter]
    by_cases heq : k' = k
    · subst heq
      simp [hset]
    · simpa [heq, fieldAfter] using h.fields k' hk'

/-- A variable of a collection, the flag `__altered` among them. -/
def Storage.var? (s : Storage) (col key : Scalar) : Option Val :=
  (s.storage.lookup col).bind fun a => (s.heap a).lookup key

/-! ## The two requests side by side -/

def TX : Scalar := .str "TX"

/-- The collection is marked as written to. -/
def Storage.flag (s : Storage) (col : Scalar) : Bool := truthy (s.var? col altered)

/-- The same tables in memory. -/
structure Alike (d r : Storage) : Prop where
  dict : d.backend = .dict
  redis : r.backend = .redis
  next : d.next = r.next
  storage : d.storage = r.storage
  col_lookup : d.col_lookup = r.col_lookup
  heap : ∀ a k, (d.heap a).lookup k = (r.heap a).lookup k

/-- At most one collection is written to, and what is tracked belongs to it. -/
structure Tracked (r : Storage) : Prop where
  below : ∀ c a, r.storage.lookup c = some a → a < r.next
  separate : ∀ c c' a, r.storage.lookup c = some a → r.storage.lookup c' = some a → c = c'
  nodup : (r.storage.map Prod.fst).Nodup
  one : ∀ c c', r.flag c = true → r.flag c' = true → c = c'
  idle : (∀ c, r.flag c = false) → r.delkey = [] ∧ r.setkey = []
  storable : ∀ c a key v, c ≠ TX → r.storage.lookup c = some a → key ≠ altered →
    (r.heap a).lookup key = some v → StorableEntry key v
  loaded : ∀ c a, c ≠ TX → r.storage.lookup c = some a → r.flag c = false → ∀ k, k ≠ "__altered" →
    (r.redis (colName c)).lookup k = ((r.heap a).lookup (.str k)).map Val.tostring
  pending : ∀ c a, c ≠ TX → r.storage.lookup c = some a → r.flag c = true →
    Pending r.delkey r.setkey (r.heap a) (r.redis (colName c))

theorem flag_of_lookup {s : Storage} {c : Scalar} {a : Nat} (h : s.storage.lookup c = some a) :
    s.flag c = truthy ((s.heap a).lookup altered) := by
  simp [Storage.flag, Storage.var?, h]

theorem lookup_of_flag {s : Storage} {c : Scalar} (h : s.flag c = true) : ∃ a, s.storage.lookup c = some a := by
  cases ha : s.storage.lookup c with
  | none => simp [Storage.flag, Storage.var?, ha, truthy] at h
  | some a => exact ⟨a, rfl⟩

/-- A write to the table at `a`, with what is tracked for it. -/
def Storage.touch (s : Storage) (a : Nat) (t : Tbl) (delkey : List Scalar) (setkey : List (Scalar × Scalar))
    (setkey_t : Bool) : Storage :=
  { s with heap := Function.update s.heap a t, delkey, setkey, setkey_t }

section

variable {r : Storage} (h : Tracked r) {c : Scalar} {a : Nat} (hc : r.storage.lookup c = some a)
  (honly : ∀ c', r.flag c' = true → c' = c)

include h hc honly

/-- What is tracked for the one collection written to, or for none. -/
theorem Tracked.pending_only (hTX : c ≠ TX) : Pending r.delkey r.setkey (r.heap a) (r.redis (colName c)) := by
  cases hflag : r.flag c with
  | true => exact h.pending c a hTX hc hflag
  | false =>
    obtain ⟨hdel, hset⟩ := h.idle fun c' => by
      cases hc' : r.flag c' with
      | false => rfl
      | true => rw [honly c' hc', hflag] at hc'; cases hc'
    rw [hdel, hset]
    refine ⟨by simp, by simp, by simp, fun k hk => ?_⟩
    simpa [fieldAfter] using h.loaded c a hTX hc hflag k hk

theorem Tracked.touch {t : Tbl} {delkey setkey} (setkey_t : Bool) (hflag : truthy (t.lookup altered) = true)
    (hstorable : c ≠ TX → ∀ key v, key ≠ altered → t.lookup key = some v → StorableEntry key v)
    (hpending : c ≠ TX → Pending delkey setkey t (r.redis (colName c))) :
    Tracked (r.touch a t delkey setkey setkey_t) := by
  have hother : ∀ c' a', r.storage.lookup c' = some a' → c' ≠ c →
      (r.touch a t delkey setkey setkey_t).heap a' = r.heap a' := by
    intro c' a' hc' hne
    refine update_of_ne (fun heq => hne ?_) _ _
    exact h.separate c' c a (heq ▸ hc') hc
  have hself : (r.touch a t delkey setkey setkey_t).heap a = t := update_self ..
  have hlookup : ∀ c', (r.touch a t delkey setkey setkey_t).storage.lookup c' = r.storage.lookup c' := fun _ => rfl
  have hflags : ∀ c', (r.touch a t delkey setkey setkey_t).flag c' = true → c' = c := by
    intro c' hc'
    by_contra hne
    obtain ⟨a', ha'⟩ := lookup_of_flag hc'
    rw [flag_of_lookup ha', hother c' a' ha' hne, ← flag_of_lookup (s := r) ha'] at hc'
    exact hne (honly c' hc')
  have hcflag : (r.touch a t delkey setkey setkey_t).flag c = true := by
    rw [flag_of_lookup (s := r.touch a t delkey setkey setkey_t) hc, hself, hflag]
  refine ⟨h.below, h.separate, h.nodup, fun c₁ c₂ h₁ h₂ => (hflags c₁ h₁).trans (hflags c₂ h₂).symm,
    fun hnone => absurd (hnone c) (by simp [hcflag]), ?_, ?_, ?_⟩
  · intro c' a' key v hTX hc' hkey hv
    by_cases hne : c' = c
    · subst hne
      obtain rfl : a = a' := by simpa [hlookup, hc] using hc'
      rw [hself] at hv
      exact hstorable hTX key v hkey hv
    · rw [hother c' a' hc' hne] at hv
      exact h.storable c' a' key v hTX hc' hkey hv
  · intro c' a' hTX hc' hfalse k hk
    by_cases hne : c' = c
    · subst hne
      rw [hcflag] at hfalse
      cases hfalse
    · rw [hother c' a' hc' hne]
      refine h.loaded c' a' hTX hc' ?_ k hk
      cases hf : r.flag c' with
      | false => rfl
      | true => exact absurd (honly c' hf) hne
  · intro c' a' hTX hc' htrue
    obtain rfl := hflags c' htrue
    obtain rfl : a = a' := by simpa [hlookup, hc] using hc'
    rw [hself]
    exact hpending hTX

end

end OpenResty.Waf
