/-
Loading a collection: the shared dictionary and Redis give the same table when
what they hold is the same and every value is one that a Redis field gives back.
-/
import OpenResty.Waf.Storage
import OpenResty.Lua.Numeral
import Mathlib.Data.List.TakeWhile

namespace OpenResty.Waf

open Lua Lib List Nat
open Option hiding any_eq_true

/-! ## What a Redis field gives back -/

/-- A value that comes back from a Redis field under this key as it went in. -/
def Storable (key : String) : Scalar → Prop
  | .num q => ∃ n : Nat, q = n ∧ n < 10 ^ 14
  | .str t => Storage.isDigits t = false ∧ ¬ "__expire_".toList <+: key.toList
  | .bool _ => False

/-- An entry of a table that can be stored. -/
def StorableEntry (key : Scalar) (v : Val) : Prop :=
  ∃ k s, key = .str k ∧ k ≠ "__altered" ∧ v = .leaf s ∧ Storable k s

theorem isDigits_repr (n : Nat) : Storage.isDigits (toString n) = true := by
  have hlist : (toString n).toList = toDigits 10 n := by simp [toString, Nat.repr]
  have hdigit : ∀ c ∈ toDigits 10 n, c.isDigit = true :=
    fun c hc => isDigit_of_mem_toDigits (by decide) (by decide) hc
  have htake : (toDigits 10 n).takeWhile Char.isDigit = toDigits 10 n :=
    takeWhile_eq_self_iff.mpr hdigit
  have hne : toDigits 10 n ≠ [] := by
    obtain ⟨ds, hds, hne, -⟩ := spanDigits_toDigits n
    intro h
    rw [h] at hds
    exact hne (by simpa [spanDigits] using hds.symm)
  simp only [Storage.isDigits, hlist, htake, drop_length]
  simp [hne]

theorem redisValue_tostring {key : String} {s : Scalar} (h : Storable key s) : Storage.redisValue s.tostring = s := by
  cases s with
  | bool b => cases h
  | num q =>
    obtain ⟨n, rfl, hn⟩ := h
    simp only [Scalar.tostring, numToString_natCast hn, Storage.redisValue, isDigits_repr, if_true, numOrStr,
      tonumber_repr]
  | str t => simp [Scalar.tostring, Storage.redisValue, h.1]

/-- The two stores hold the same. -/
structure Kept (shm : String → Option Tbl) (redis : String → List (String × String)) : Prop where
  storable : ∀ name key v, ((shm name).getD []).lookup key = some v → StorableEntry key v
  fields : ∀ name k, (redis name).lookup k = (((shm name).getD []).lookup (.str k)).map Val.tostring

/-! ## Expired variables -/

/-- The variable `k` of stored data has expired. -/
def Expired (now : Rat) (data : Tbl) (k : String) : Prop :=
  (data.lookup (.str k)).isSome ∧ hasUnderscores k.toList = false ∧
    ∃ t : Rat, data.lookup (.str (expireKey k)) = some (.leaf (.num t)) ∧ t < now

theorem filterMapM_ok {α β : Type} {f : α → Except String (Option β)} {g : α → Option β} {l : List α}
    (h : ∀ a ∈ l, f a = .ok (g a)) : l.filterMapM f = .ok (l.filterMap g) := by
  induction l with
  | nil => rfl
  | cons a l ih =>
    rw [filterMapM_cons, h a mem_cons_self, ih fun b hb => h b (mem_cons_of_mem _ hb),
      filterMap_cons]
    cases g a <;> rfl

/-- An expiry entry that can be stored is a number. -/
theorem Storable.expiry {k : String} {s : Scalar} (h : Storable (expireKey k) s) :
    ∃ n : Nat, s = .num n ∧ n < 10 ^ 14 := by
  cases s with
  | bool b => cases h
  | num q =>
    obtain ⟨n, rfl, hn⟩ := h
    exact ⟨n, rfl, hn⟩
  | str t => exact absurd (by simp [expireKey]) h.2

section

variable {now : Rat} {data : Tbl} (hdata : ∀ key v, data.lookup key = some v → StorableEntry key v)

include hdata

theorem storable_key {p : Scalar × Val} (hp : p ∈ data) : ∃ k, p.1 = .str k := by
  obtain ⟨v, hv⟩ := isSome_iff_exists.mp (lookup_isSome_of_mem hp)
  obtain ⟨k, -, hk, -⟩ := hdata _ v hv
  exact ⟨k, hk⟩

theorem dictExpired_ok [∀ k, Decidable (Expired now data k)] {p : Scalar × Val} (hp : p ∈ data) :
    Storage.dictExpired now data p.1 =
      .ok (match p.1 with | .str k => if Expired now data k then some k else none | _ => none) := by
  obtain ⟨k, hk⟩ := storable_key hdata hp
  have hsome := lookup_isSome_of_mem hp
  rw [hk] at hsome ⊢
  simp only [Storage.dictExpired]
  by_cases hu : hasUnderscores k.toList = true
  · rw [if_pos hu, if_neg fun he => absurd hu (by simp [he.2.1])]
  · rw [if_neg hu]
    cases hl : data.lookup (.str (expireKey k)) with
    | none => rw [if_neg (by simp [Expired, hl])]
    | some v =>
      obtain ⟨k', s, hk', -, rfl, hs⟩ := hdata _ _ hl
      cases hk'
      obtain ⟨n, rfl, -⟩ := hs.expiry
      have hiff : Expired now data k ↔ (n : Rat) < now := by simp [Expired, hl, hsome, hu]
      simp only [hiff]

variable (now) in
theorem dictExpire_ok : ∃ expired : List String, (∀ k, k ∈ expired ↔ Expired now data k) ∧
    Storage.dictExpire now data = .ok
      (data.filter fun (key, _) => !expired.any fun e => key == .str e || key == .str (expireKey e),
        !expired.isEmpty) := by
  classical
  refine ⟨_, fun k => ?_, by rw [Storage.dictExpire, filterMapM_ok fun p hp => dictExpired_ok hdata hp]; rfl⟩
  rw [mem_filterMap]
  constructor
  · rintro ⟨p, hp, hk⟩
    obtain ⟨k', hk'⟩ := storable_key hdata hp
    rw [hk'] at hk
    simp only at hk
    split at hk
    · next he => cases hk; exact he
    · cases hk
  · intro he
    obtain ⟨v, hv⟩ := isSome_iff_exists.mp he.1
    exact ⟨(.str k, v), mem_of_lookup hv, if_pos he⟩

variable {hash : List (String × String)} (hfields : ∀ k, hash.lookup k = (data.lookup (.str k)).map Val.tostring)

include hfields

theorem redisExpired_ok [∀ k, Decidable (Expired now data k)] {p : String × String} (hp : p ∈ hash) :
    Storage.redisExpired now hash p.1 = .ok (if Expired now data p.1 then some p.1 else none) := by
  have hsome : (data.lookup (.str p.1)).isSome := by
    have := lookup_isSome_of_mem hp
    rw [hfields] at this
    simpa using this
  simp only [Storage.redisExpired]
  by_cases hu : hasUnderscores p.1.toList = true
  · rw [if_pos hu, if_neg fun he => absurd hu (by simp [he.2.1])]
  · rw [if_neg hu, hfields]
    cases hl : data.lookup (.str (expireKey p.1)) with
    | none =>
      rw [if_neg (by simp [Expired, hl])]
      rfl
    | some v =>
      obtain ⟨k', s, hk', -, rfl, hs⟩ := hdata _ _ hl
      cases hk'
      obtain ⟨n, rfl, hn⟩ := hs.expiry
      have hiff : Expired now data p.1 ↔ (n : Rat) < now := by simp [Expired, hl, hsome, hu]
      simp only [map_some, Val.tostring, Scalar.tostring, numToString_natCast hn, tonumber_repr, hiff]

variable (now) in
theorem redisExpire_ok : ∃ expired : List String, (∀ k, k ∈ expired ↔ Expired now data k) ∧
    (hash.filterMapM fun (key, _) => Storage.redisExpired now hash key) = .ok expired := by
  classical
  refine ⟨_, fun k => ?_, filterMapM_ok fun p hp => redisExpired_ok hdata hfields hp⟩
  rw [mem_filterMap]
  constructor
  · rintro ⟨p, -, hk⟩
    split at hk
    · next he => cases hk; exact he
    · cases hk
  · intro he
    have hsome : (hash.lookup k).isSome := by
      rw [hfields]
      simpa using he.1
    obtain ⟨v, hv⟩ := isSome_iff_exists.mp hsome
    exact ⟨(k, v), mem_of_lookup hv, if_pos he⟩

end

/-! ## Loading a collection -/

/-- The keys that go with the expired variables. -/
def removed (expired : List String) (key : Scalar) : Bool :=
  expired.any fun e => key == .str e || key == .str (expireKey e)

theorem str_beq (a b : String) : (Scalar.str a == Scalar.str b) = (a == b) := by
  rw [Bool.eq_iff_iff]
  simp

variable {xs ys : List String}

theorem removed_congr (h : ∀ k, k ∈ xs ↔ k ∈ ys) (key : Scalar) : removed xs key = removed ys key := by
  rw [Bool.eq_iff_iff]
  simp only [removed, any_eq_true]
  exact exists_congr fun e => and_congr_left fun _ => h e

theorem isEmpty_congr (h : ∀ k, k ∈ xs ↔ k ∈ ys) : xs.isEmpty = ys.isEmpty := by
  rw [Bool.eq_iff_iff, List.isEmpty_iff, List.isEmpty_iff, eq_nil_iff_forall_not_mem,
    eq_nil_iff_forall_not_mem]
  exact forall_congr' fun k => not_congr (h k)

/-- The table a collection is loaded into, given the stored data and the expired variables. -/
structure Loaded (data : Tbl) (expired : List String) (t : Tbl) : Prop where
  flag : t.lookup altered = some (.leaf (.bool !expired.isEmpty))
  other : ∀ key, key ≠ altered → t.lookup key = if removed expired key then none else data.lookup key

theorem Loaded.congr {data t t' : Tbl} (h : Loaded data xs t) (h' : Loaded data ys t')
    (hmem : ∀ k, k ∈ xs ↔ k ∈ ys) (key : Scalar) : t.lookup key = t'.lookup key := by
  by_cases hkey : key = altered
  · rw [hkey, h.flag, h'.flag, isEmpty_congr hmem]
  · rw [h.other key hkey, h'.other key hkey, removed_congr hmem]

section

variable {d r : Storage} (hkept : Kept d.shm r.redis) (now : Rat) (col : Scalar)

/-- What is stored of a collection. -/
def Storage.stored (d : Storage) (col : Scalar) : Tbl := (d.shm (colName col)).getD []

include hkept

theorem dictInitialize_ok : ∃ expired t, (∀ k, k ∈ expired ↔ Expired now (d.stored col) k) ∧
    d.dictInitialize now col = .ok (d.newTable col t) ∧ Loaded (d.stored col) expired t := by
  have hdata := hkept.storable (colName col)
  obtain ⟨expired, hmem, hexpire⟩ := dictExpire_ok now hdata
  refine ⟨expired, assign ((d.stored col).filter fun (key, _) => !removed expired key) altered
    (.leaf (.bool !expired.isEmpty)), hmem, ?_, ?_⟩
  · unfold Storage.dictInitialize
    cases hshm : d.shm (colName col) with
    | none =>
      have hnil : d.stored col = [] := by simp [Storage.stored, hshm]
      have hexp : expired = [] := eq_nil_iff_forall_not_mem.mpr fun k hk => by
        have := ((hmem k).mp hk).1
        simp [hshm] at this
      simp [hnil, hexp, assign]
    | some data =>
      simp only [hshm, getD_some] at hexpire
      have hstored : d.stored col = data := by simp [Storage.stored, hshm]
      simp only [hexpire, hstored]
      rfl
  · refine ⟨by rw [lookup_assign, if_pos rfl], fun key hkey => ?_⟩
    rw [lookup_assign, if_neg hkey, lookup_filter_key (p := fun key => !removed expired key)]
    cases removed expired key <;> rfl

theorem redisInitialize_ok : ∃ expired t, (∀ k, k ∈ expired ↔ Expired now (d.stored col) k) ∧
    r.redisInitialize now col = .ok { r.newTable col t with
      delkey := r.delkey ++ expired.flatMap fun key => [.str key, .str (expireKey key)] } ∧
    Loaded (d.stored col) expired t := by
  have hdata := hkept.storable (colName col)
  have hfields := hkept.fields (colName col)
  obtain ⟨expired, hmem, hexpire⟩ := redisExpire_ok now hdata hfields
  refine ⟨expired, assign (((r.redis (colName col)).filter fun (key, _) => !removed expired (.str key)).map
    fun (key, value) => (.str key, .leaf (Storage.redisValue value))) altered (.leaf (.bool !expired.isEmpty)),
    hmem, ?_, ?_⟩
  · have hremoved : (fun key : String => removed expired (.str key)) =
        fun key => expired.any fun e => key == e || key == expireKey e := by
      funext key
      simp only [removed, str_beq]
    simp only [Storage.redisInitialize, hexpire, Bind.bind, Except.bind, congrFun hremoved]
    rfl
  · refine ⟨by rw [lookup_assign, if_pos rfl], fun key hkey => ?_⟩
    rw [lookup_assign, if_neg hkey]
    cases key with
    | str k =>
      rw [lookup_map (f := Scalar.str) (fun a b h => by cases h; rfl) (fun v => Val.leaf (Storage.redisValue v)),
        lookup_filter_key (p := fun key => !removed expired (.str key)), hfields]
      cases removed expired (.str k) with
      | true => rfl
      | false =>
        simp only [Bool.not_false, if_true, Bool.false_eq_true, if_false, Storage.stored]
        cases hl : ((d.shm (colName col)).getD []).lookup (.str k) with
        | none => rfl
        | some v =>
          obtain ⟨k', s, hk', -, rfl, hs⟩ := hdata _ _ hl
          cases hk'
          simp [Val.tostring, redisValue_tostring hs]
    | num q | bool b =>
      rw [lookup_map_ne (f := Scalar.str) (by simp) fun v => Val.leaf (Storage.redisValue v)]
      split
      · rfl
      · symm
        by_contra h
        obtain ⟨v, hv⟩ := ne_none_iff_exists'.mp h
        obtain ⟨k, s, hk, -⟩ := hdata _ _ hv
        cases hk

end

end OpenResty.Waf
