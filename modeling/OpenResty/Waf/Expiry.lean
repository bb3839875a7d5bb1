/-
The expiry of variables when a persisted collection is loaded, from the shared
dictionary or from memcached.

The time at which a variable expires is kept in the collection itself, under the
variable's name with a prefix. The loop that removes what has expired goes by the
names alone: it passes over each that holds two underscores, and takes whatever
stands under the prefixed name for a time.
-/
import OpenResty.Waf.StorageLoad

namespace OpenResty.Waf

open Lua Lib Function

/-! ## The loop -/

/-- The loop of `initialize` over the keys of the decoded data, which clears fields of
the table it goes through: a key that is cleared before its turn gets none. -/
def expireLoop (now : Rat) : List Scalar → Tbl → Bool → Except String (Tbl × Bool)
  | [], data, altered => .ok (data, altered)
  | key :: keys, data, altered =>
    if (data.lookup key).isNone then expireLoop now keys data altered
    else
      match Storage.dictExpired now data key with
      | .error e => .error e
      | .ok none => expireLoop now keys data altered
      | .ok (some name) => expireLoop now keys (unassign (unassign data (.str (expireKey name))) (.str name)) true

/-- A memcached server: what is decoded of the text under each name, and how a call of
`connect` or `get` fails, if it does. -/
structure Memcached where
  texts : String → Option Tbl
  connect : Option String
  get : Option String

/-- `initialize` of the memcached backend. What it warns of is left out, and with it how the
connection is given back. -/
def Storage.memcachedInitialize (s : Storage) (server : Memcached) (now : Rat) (col : Scalar) :
    Except String Storage :=
  match server.connect, server.get with
  | some _, _ | none, some _ => .ok (s.newTable col [])
  | none, none =>
    match server.texts (colName col) with
    | none => .ok (s.newTable col [(altered, .leaf (.bool false))])
    | some data => do
      let (data, changed) ← expireLoop now (data.map Prod.fst) data false
      return s.newTable col (assign data altered (.leaf (.bool changed)))

/-- The backends that keep a collection as one text. -/
inductive TextBackend
  | dict
  | memcached (server : Memcached)

def TextBackend.initialize (s : Storage) (now : Rat) (col : Scalar) : TextBackend → Except String Storage
  | .dict => s.dictInitialize now col
  | .memcached server => s.memcachedInitialize server now col

/-- The text a backend keeps for a collection, decoded. -/
def TextBackend.text (s : Storage) (col : Scalar) : TextBackend → Option Tbl
  | .dict => s.shm (colName col)
  | .memcached server => server.texts (colName col)

/-- The text can be fetched. -/
def TextBackend.Answers : TextBackend → Prop
  | .dict => True
  | .memcached server => server.connect = none ∧ server.get = none

/-! ## Persisted collections -/

/-- Variables and the times recorded for them, such as one table can hold: there is no variable
where a time is recorded. The flag that `persist` clears is none of them. -/
structure Recorded where
  vars : String → Option Val
  expires : String → Option Rat
  single : ∀ name, (expires name).isSome → vars (expireKey name) = none
  unflagged : vars "__altered" = none

namespace Recorded

/-- What the table holds under a key. -/
def Entry (c : Recorded) (key : Scalar) (v : Val) : Prop :=
  ∃ name, key = .str name ∧ c.vars name = some v ∨
    key = .str (expireKey name) ∧ ∃ time, c.expires name = some time ∧ v = .leaf (.num time)

/-- A table holds the variables and the times, and nothing else. -/
def Holds (c : Recorded) (data : Tbl) : Prop := ∀ key v, data.lookup key = some v ↔ c.Entry key v

end Recorded

/-- A persisted collection. One whose names are the numbers from 1 on is an array. -/
inductive Persisted
  | object (c : Recorded)
  | array (items : List Val)

/-- The decoded data of a persisted collection. -/
def Persisted.Decoded (data : Tbl) : Persisted → Prop
  | .object c => c.Holds data
  | .array items => ∀ key v, data.lookup key = some v ↔ ∃ i : Nat, key = .num (i + 1 : Nat) ∧ items[i]? = some v

/-! ## The writes of a request -/

theorem expireKey_injective : Injective expireKey := by
  intro a b h
  have hlist : (expireKey a).toList = (expireKey b).toList := by rw [h]
  simp only [expireKey, String.toList_append] at hlist
  exact String.ext (List.append_cancel_left hlist)

theorem expireKey_ne_altered (name : String) : expireKey name ≠ "__altered" := by
  intro h
  have hlist : (expireKey name).toList = "__altered".toList := by rw [h]
  simp [expireKey] at hlist

namespace Recorded

variable (c : Recorded) (name : String)

/-- A variable is set. -/
def set (v : Val) : Recorded where
  vars n := if n = "__altered" then none else if n = name then some v else c.vars n
  expires n := if expireKey n = name then none else c.expires n
  single n h := by
    split at h
    · cases h
    · next hne => simp only [hne, if_false, c.single n h, ite_self]
  unflagged := if_pos rfl

/-- A time is recorded. -/
def expire (time : Rat) : Recorded where
  vars n := if n = expireKey name then none else c.vars n
  expires n := if n = name then some time else c.expires n
  single n h := by
    split at h
    · next heq => rw [heq, if_pos rfl]
    · simp only [c.single n h, ite_self]
  unflagged := by simp only [c.unflagged, ite_self]

/-- A variable is deleted. -/
def delete : Recorded where
  vars n := if n = name then none else c.vars n
  expires n := if expireKey n = name then none else c.expires n
  single n h := by
    split at h
    · cases h
    · simp only [c.single n h, ite_self]
  unflagged := by simp only [c.unflagged, ite_self]

variable {c name}

theorem not_entry_altered (v : Val) : ¬ c.Entry altered v := by
  rintro ⟨n, ⟨hname, hv⟩ | ⟨hname, -⟩⟩
  · cases hname
    rw [c.unflagged] at hv
    cases hv
  · exact expireKey_ne_altered n (Scalar.str.inj hname).symm

/-- What is held under a key depends on what has its name. -/
theorem entry_congr {c' : Recorded} {key : Scalar} {v : Val} (hvars : ∀ n, key = .str n → c'.vars n = c.vars n)
    (hexpires : ∀ n, key = .str (expireKey n) → c'.expires n = c.expires n) : c'.Entry key v ↔ c.Entry key v := by
  refine exists_congr fun n => or_congr (and_congr_right fun hkey => ?_) (and_congr_right fun hkey => ?_)
  · rw [hvars n hkey]
  · rw [hexpires n hkey]

/-- A write under one key, as long as the table is otherwise what was held. -/
theorem Holds.write {t t' : Tbl} {c' : Recorded} (h : c.Holds (unassign t altered)) (key : Scalar)
    (hother : ∀ k, k ≠ key → k ≠ altered → t'.lookup k = t.lookup k)
    (hvars : ∀ n, .str n ≠ key → n ≠ "__altered" → c'.vars n = c.vars n)
    (hexpires : ∀ n, .str (expireKey n) ≠ key → c'.expires n = c.expires n)
    (hkey : key ≠ altered → ∀ v, t'.lookup key = some v ↔ c'.Entry key v) : c'.Holds (unassign t' altered) := by
  intro k v
  rw [lookup_unassign]
  split
  · next hflag =>
    rw [hflag]
    exact iff_of_false (fun hv => by cases hv) (not_entry_altered v)
  · next hflag =>
    by_cases heq : k = key
    · rw [heq]
      exact hkey (heq ▸ hflag) v
    · have hold := h k v
      rw [lookup_unassign, if_neg hflag] at hold
      rw [hother k heq hflag, hold]
      refine (entry_congr ?_ ?_).symm
      · rintro n rfl
        exact hvars n heq fun hn => hflag (congrArg Scalar.str hn)
      · rintro n rfl
        exact hexpires n heq

variable {t : Tbl} (h : c.Holds (unassign t altered))

include h

theorem Holds.set (v : Val) (flag : Val) :
    (c.set name v).Holds (unassign (assign (assign t (.str name) v) altered flag) altered) := by
  refine h.write (.str name) (fun k hk hflag => ?_) (fun n hn hflag => ?_) (fun n hn => ?_) fun hflag w => ?_
  · rw [lookup_assign, if_neg hflag, lookup_assign, if_neg hk]
  · exact (if_neg hflag).trans (if_neg fun heq => hn (congrArg Scalar.str heq))
  · exact if_neg fun heq => hn (congrArg Scalar.str heq)
  · have hname : name ≠ "__altered" := fun heq => hflag (congrArg Scalar.str heq)
    have hvar : (c.set name v).vars name = some v := (if_neg hname).trans (if_pos rfl)
    rw [lookup_assign, if_neg hflag, lookup_assign, if_pos rfl]
    constructor
    · rintro ⟨⟩
      exact ⟨name, .inl ⟨rfl, hvar⟩⟩
    · rintro ⟨n, ⟨hn, hw⟩ | ⟨hn, time, htime, -⟩⟩
      · cases hn
        exact hvar.symm.trans hw
      · rw [show (c.set name v).expires n = none from if_pos (Scalar.str.inj hn).symm] at htime
        cases htime

theorem Holds.expire (time : Rat) (flag : Val) :
    (c.expire name time).Holds
      (unassign (assign (assign t (.str (expireKey name)) (.leaf (.num time))) altered flag) altered) := by
  refine h.write (.str (expireKey name)) (fun k hk hflag => ?_) (fun n hn _ => ?_) (fun n hn => ?_) fun hflag w => ?_
  · rw [lookup_assign, if_neg hflag, lookup_assign, if_neg hk]
  · exact if_neg fun heq => hn (congrArg Scalar.str heq)
  · exact if_neg fun heq => hn (by rw [heq])
  · have htime : (c.expire name time).expires name = some time := if_pos rfl
    rw [lookup_assign, if_neg hflag, lookup_assign, if_pos rfl]
    constructor
    · rintro ⟨⟩
      exact ⟨name, .inr ⟨rfl, time, htime, rfl⟩⟩
    · rintro ⟨n, ⟨hn, hw⟩ | ⟨hn, time', htime', rfl⟩⟩
      · cases hn
        rw [show (c.expire name time).vars (expireKey name) = none from if_pos rfl] at hw
        cases hw
      · cases expireKey_injective (Scalar.str.inj hn)
        cases htime.symm.trans htime'
        rfl

theorem Holds.delete (flag : Val) :
    (c.delete name).Holds (unassign (assign (unassign t (.str name)) altered flag) altered) := by
  refine h.write (.str name) (fun k hk hflag => ?_) (fun n hn _ => ?_) (fun n hn => ?_) fun hflag w => ?_
  · rw [lookup_assign, if_neg hflag, lookup_unassign, if_neg hk]
  · exact if_neg fun heq => hn (congrArg Scalar.str heq)
  · exact if_neg fun heq => hn (congrArg Scalar.str heq)
  · rw [lookup_assign, if_neg hflag, lookup_unassign, if_pos rfl]
    refine iff_of_false (fun hw => by cases hw) ?_
    rintro ⟨n, ⟨hn, hw⟩ | ⟨hn, time, htime, -⟩⟩
    · cases hn
      rw [show (c.delete name).vars name = none from if_pos rfl] at hw
      cases hw
    · rw [show (c.delete name).expires n = none from if_pos (Scalar.str.inj hn).symm] at htime
      cases htime

end Recorded

/-! ## The writes of the storage -/

/-- The table of a collection, but for the flag. -/
def Storage.Keeps (s : Storage) (col : String) (c : Recorded) : Prop :=
  ∃ a, s.addr (s.col_lookup.lookup (upper col)) = .ok a ∧ c.Holds (unassign (s.heap a) altered)

theorem keeps_trackSet {s : Storage} {col : String} {c : Recorded} (key value : Scalar) (set_t : Bool) :
    (s.trackSet key value set_t).Keeps col c ↔ s.Keeps col c := by
  unfold Storage.trackSet
  cases s.backend <;> rfl

theorem keeps_trackDelete {s : Storage} {col : String} {c : Recorded} (key : Scalar) :
    (s.trackDelete key).Keeps col c ↔ s.Keeps col c := by
  unfold Storage.trackDelete
  cases s.backend <;> rfl

section

variable {s s' : Storage} {col name : String} {c : Recorded} (h : s.Keeps col c)

include h

/-- `set_var` sets a variable. -/
theorem set_var_keeps {inc : Bool} {value : Scalar} (hrun : s.set_var col (.str name) inc value = .ok s') :
    ∃ v, s'.Keeps col (c.set name v) := by
  obtain ⟨a, haddr, hholds⟩ := h
  simp only [Storage.set_var, haddr, bind, Except.bind, pure, Except.pure] at hrun
  split at hrun
  · cases hrun
  · next v _ =>
    cases hrun
    refine ⟨v, (keeps_trackSet ..).mpr ⟨a, haddr, ?_⟩⟩
    simpa only [Storage.write, update_self] using hholds.set v (.leaf (.bool true))

/-- `expire_var` records a time. -/
theorem expire_var_keeps {now : Rat} {value : Scalar} (hrun : s.expire_var now col (.str name) value = .ok s') :
    ∃ time, s'.Keeps col (c.expire name time) := by
  obtain ⟨a, haddr, hholds⟩ := h
  unfold Storage.expire_var at hrun
  split at hrun
  · cases hrun
  · next value _ =>
    simp only [haddr, Storage.concatKey, bind, Except.bind, pure, Except.pure] at hrun
    cases hrun
    refine ⟨now + value, (keeps_trackSet ..).mpr ⟨a, haddr, ?_⟩⟩
    simpa only [Storage.write, update_self] using hholds.expire (now + value) (.leaf (.bool true))

/-- `delete_var` deletes a variable that is there, but not the time recorded for it. -/
theorem delete_var_keeps (hrun : s.delete_var col (.str name) = .ok s') :
    s'.Keeps col (c.delete name) ∨ s' = s := by
  obtain ⟨a, haddr, hholds⟩ := h
  simp only [Storage.delete_var, haddr, bind, Except.bind, pure, Except.pure] at hrun
  split at hrun
  · cases hrun
    refine .inl ((keeps_trackDelete _).mpr ⟨a, haddr, ?_⟩)
    simpa only [Storage.write, Storage.erase, update_self] using hholds.delete (.leaf (.bool true))
  · cases hrun
    exact .inr rfl

omit h in
/-- What `persist` hands to `cjson` is the table without the flag. -/
theorem persistCol_text {cjson : Tbl → Except String Tbl} {key : Scalar} {a : Nat} {data : Tbl}
    (hdict : s.backend = .dict) (hkey : key ≠ .str "TX") (hflag : truthy ((s.heap a).lookup altered) = true)
    (hcopy : cjson (unassign (s.heap a) altered) = .ok data) :
    TextBackend.dict.text (s.persistCol cjson key a).1 key = some data := by
  have hheap : (s.erase a altered).heap a = unassign (s.heap a) altered := update_self ..
  have hbackend : (s.erase a altered).backend = .dict := hdict
  unfold Storage.persistCol
  rw [if_pos ⟨hkey, hflag⟩]
  simp only [hbackend, hheap, Storage.dictPersist, hcopy, bind, Except.bind, pure, Except.pure]
  exact update_self ..

end

end OpenResty.Waf
