/-
What holds of the pools of idle connections in every run.
-/
import Mathlib.Data.List.TakeWhile
import OpenResty.Lib.Transition
import OpenResty.NgxLua.KeepalivePool

namespace OpenResty.NgxLua.KeepalivePool

open Lib Lib.Transition List Function Option Nat

variable {conf : Conf} {st st' : State} {s t p q i j c conn : Nat} {u u' : Upstream} {key : Key}
  {debt new : Option Nat}

/-! ## The laws -/

/-- The connections that were taken from a pool and are checked out. -/
def State.out (st : State) (p : Nat) : Nat :=
  st.sockets.countP fun sock => sock.upstream.bind Upstream.takenFrom == some p

/-- The connection of an item. -/
def State.connection (st : State) (p i : Nat) : Nat := ((st.pools p).items i).connection

structure Right (st : State) : Prop where
  /-- The items of a pool are cached or free. -/
  partition : ∀ p, ((st.pools p).cache ++ (st.pools p).free).Perm (List.range (st.pools p).pool_size)
  /-- A connection is held by one item only, and by one socket object only, and not by both. -/
  held_once : ∀ p i q j, i ∈ (st.pools p).cache → j ∈ (st.pools q).cache → st.connection p i = st.connection q j → p = q ∧ i = j
  owned_once : ∀ s u t u' c, st.up s = some u → st.up t = some u' → u.connection = some c → u'.connection = some c → s = t
  not_both : ∀ p i s u, i ∈ (st.pools p).cache → st.up s = some u → u.connection ≠ some (st.connection p i)
  /-- A pool counts the connections that it has cached and those taken from it. -/
  counted : ∀ p, (st.pools p).active_connections = (st.pools p).cache.length + st.out p
  /-- A pool is registered as long as it counts a connection. -/
  registered : ∀ p, st.registry.lookup (st.pools p).key = some p ↔ (st.pools p).active_connections ≠ 0
  /-- A connection that was asked for with a key had been stored under it. -/
  served : ∀ e ∈ st.served, e.2 = some e.1
  /-- No cached connection is wired to a socket object. -/
  wired : ∀ p, ∀ i ∈ (st.pools p).cache, ∀ s, st.data (st.connection p i) ≠ .upstream s
  sound : st.crashed = false

/-- The invariant; pool `debt` counts a connection that is gone, and pool `new` is
registered though it counts none yet. -/
structure Books (st : State) (debt new : Option Nat) : Prop where
  partition : ∀ p, ((st.pools p).cache ++ (st.pools p).free).Perm (List.range (st.pools p).pool_size)
  cached : ∀ p, ∀ i ∈ (st.pools p).cache,
    st.data (st.connection p i) = .item p i ∧ st.stored (st.connection p i) = some (st.pools p).key ∧ st.connection p i < st.opened
  taken : ∀ s u c, st.up s = some u → u.connection = some c →
    st.data c = .upstream s ∧ c < st.opened ∧ (u.reused ≠ 0 → ∃ p, u.socket_pool = some p)
  waiting : ∀ s u, st.up s = some u → u.conn_waiting = true → u.connection = none ∧ u.reused = 0
  counted : ∀ p, (st.pools p).active_connections = (st.pools p).cache.length + st.out p + if debt = some p then 1 else 0
  registered : ∀ p, st.registry.lookup (st.pools p).key = some p ↔ (st.pools p).active_connections ≠ 0 ∨ new = some p
  keys : ∀ k p, st.registry.lookup k = some p → (st.pools p).key = k ∧ p < st.created ∧ 0 < (st.pools p).pool_size
  unborn : ∀ p, st.created ≤ p → st.pools p = noPool
  served : ∀ e ∈ st.served, e.2 = some e.1
  sound : st.crashed = false

abbrev Inv (st : State) : Prop := Books st none none

/-- The data of a connection names the one that holds it. -/
theorem Books.right (h : Inv st) : Right st where
  partition := h.partition
  held_once p i q j hi hj heq := by
    have hp := (h.cached p i hi).1
    rw [heq, (h.cached q j hj).1, Owner.item.injEq] at hp
    exact ⟨hp.1.symm, hp.2.symm⟩
  owned_once s u t u' c hs ht hu hu' := by
    have hdata := (h.taken s u c hs hu).1
    rw [(h.taken t u' c ht hu').1, Owner.upstream.injEq] at hdata
    exact hdata.symm
  not_both p i s u hi hs hu := by
    have hdata := (h.taken s u _ hs hu).1
    rw [(h.cached p i hi).1] at hdata
    cases hdata
  counted p := by simpa using h.counted p
  registered p := by simpa using h.registered p
  served := h.served
  wired p i hi s := by
    rw [(h.cached p i hi).1]
    exact nofun
  sound := h.sound

theorem inv_init : Inv init where
  partition _ := List.Perm.refl _
  cached _ _ hi := nomatch hi
  taken _ _ _ hs := nomatch hs
  waiting _ _ hs := nomatch hs
  counted _ := rfl
  registered _ := ⟨nofun, fun h => h.elim (fun h => absurd rfl h) nofun⟩
  keys _ _ h := nomatch h
  unborn _ _ := rfl
  served _ h := nomatch h
  sound := rfl

/-! ## Socket objects -/

theorem up_setUp (hs : s < st.sockets.length) (u : Upstream) (t : Nat) :
    (st.setUp s u).up t = if t = s then some u else st.up t := by
  simp only [State.up, State.setUp, getElem?_modify]
  by_cases h : t = s
  · subst h
    rw [if_pos rfl, getElem?_eq_getElem hs]
    simp
  · rw [if_neg h]
    cases st.sockets[t]? <;> simp [Ne.symm h]

theorem lt_of_up (h : st.up s = some u) : s < st.sockets.length := by
  by_contra hge
  rw [State.up, getElem?_eq_none (Nat.le_of_not_lt hge)] at h
  cases h

theorem countP_modify {α : Type} (P : α → Bool) (f : α → α) {l : List α} {n : Nat} {a : α} (h : l[n]? = some a) :
    (l.modify n f).countP P + (if P a then 1 else 0) = l.countP P + if P (f a) then 1 else 0 := by
  induction l generalizing n with
  | nil => cases h
  | cons b l ih =>
    cases n with
    | zero =>
      cases h
      rw [modify_zero_cons, countP_cons, countP_cons]
      omega
    | succ n =>
      rw [modify_succ_cons, countP_cons, countP_cons]
      have := ih h
      omega

/-- What changes in the count of a pool with the upstream of a socket object. -/
theorem out_setUp (hs : s < st.sockets.length) (u : Upstream) (p : Nat) :
    (st.setUp s u).out p + (if (st.up s).bind Upstream.takenFrom = some p then 1 else 0) =
      st.out p + if u.takenFrom = some p then 1 else 0 := by
  have h := countP_modify (fun sock : Socket => sock.upstream.bind Upstream.takenFrom == some p)
    (fun sock => { sock with upstream := some u }) (getElem?_eq_getElem hs)
  have hup : st.up s = st.sockets[s].upstream := by
    rw [State.up, getElem?_eq_getElem hs]
    rfl
  rw [hup]
  simpa only [State.out, State.setUp, beq_iff_eq, bind_some] using h

theorem takenFrom_none (h : u.connection = none) : u.takenFrom = none := by
  rw [Upstream.takenFrom, h]
  rfl

theorem takenFrom_fresh (h : u.reused = 0) : u.takenFrom = none := by
  rw [Upstream.takenFrom, if_neg fun h' => h'.2 h]

theorem takenFrom_reused (hc : u.connection = some c) (h : u.reused ≠ 0) : u.takenFrom = u.socket_pool := by
  rw [Upstream.takenFrom, hc, if_pos ⟨rfl, h⟩]

@[simp] theorem pools_setUp (p : Nat) : (st.setUp s u).pools p = st.pools p := rfl
@[simp] theorem connection_setUp (p i : Nat) : (st.setUp s u).connection p i = st.connection p i := rfl
@[simp] theorem length_setUp : (st.setUp s u).sockets.length = st.sockets.length := length_modify ..

@[simp] theorem up_setKey (t : Nat) : (st.setKey s key).up t = st.up t := by
  simp only [State.up, State.setKey, getElem?_modify]
  by_cases h : s = t
  · cases st.sockets[t]? <;> simp [h]
  · cases st.sockets[t]? <;> simp [h]

theorem out_setKey (hs : s < st.sockets.length) (p : Nat) : (st.setKey s key).out p = st.out p := by
  have h := countP_modify (fun sock : Socket => sock.upstream.bind Upstream.takenFrom == some p)
    (fun sock => { sock with key := some key }) (getElem?_eq_getElem hs)
  exact Nat.add_right_cancel h

theorem Books.setKey (h : Books st debt new) (hs : s < st.sockets.length) : Books (st.setKey s key) debt new where
  partition := h.partition
  cached := h.cached
  taken t u c ht := h.taken t u c (by rwa [up_setKey] at ht)
  waiting t u ht := h.waiting t u (by rwa [up_setKey] at ht)
  counted p := by
    rw [out_setKey hs]
    exact h.counted p
  registered := h.registered
  keys := h.keys
  unborn := h.unborn
  served := h.served
  sound := h.sound

/-- The connection of a socket object is kept, or given up to the debt of its pool. -/
theorem Books.setUp (u' : Upstream) (h : Inv st) (hs : s < st.sockets.length)
    (hconn : ∀ c, u'.connection = some c → ∃ u, st.up s = some u ∧ u.connection = some c ∧ u'.reused = u.reused ∧
      u'.socket_pool = u.socket_pool)
    (hwait : u'.conn_waiting = true → u'.connection = none ∧ u'.reused = 0) :
    Books (st.setUp s u') (if u'.connection = none then (st.up s).bind Upstream.takenFrom else none) none where
  partition := h.partition
  cached := h.cached
  taken t u c ht hu := by
    rw [up_setUp hs] at ht
    split at ht
    · next hts =>
      cases ht
      subst hts
      obtain ⟨u₀, hu₀, hc, hreused, hpool⟩ := hconn c hu
      rw [hreused, hpool]
      exact h.taken t u₀ c hu₀ hc
    · exact h.taken t u c ht hu
  waiting t u ht hw := by
    rw [up_setUp hs] at ht
    split at ht
    · cases ht
      exact hwait hw
    · exact h.waiting t u ht hw
  counted p := by
    have hout := out_setUp hs u' p
    have hold := h.counted p
    rw [if_neg nofun] at hold
    rw [pools_setUp, hold]
    cases hc : u'.connection with
    | none =>
      simp only [takenFrom_none hc, reduceCtorEq, if_false] at hout
      rw [if_pos rfl]
      by_cases htaken : (st.up s).bind Upstream.takenFrom = some p
      · rw [if_pos htaken] at hout ⊢
        omega
      · rw [if_neg htaken] at hout ⊢
        omega
    | some c =>
      obtain ⟨u₀, hu₀, hc₀, hreused, hpool⟩ := hconn c hc
      have htaken : u'.takenFrom = u₀.takenFrom := by
        rw [Upstream.takenFrom, Upstream.takenFrom, hc, hc₀, hreused, hpool]
      rw [hu₀, bind_some, htaken] at hout
      simp only [reduceCtorEq, if_false]
      omega
  registered := h.registered
  keys := h.keys
  unborn := h.unborn
  served := h.served
  sound := h.sound

/-! ## Leaving a pool -/

theorem cstring_eq_iff : cstring key = key ↔ (0 : UInt8) ∉ key.bytes := by
  obtain ⟨bytes⟩ := key
  rw [cstring, Key.mk.injEq, takeWhile_eq_self_iff]
  refine ⟨fun h hmem => absurd rfl (of_decide_eq_true (h 0 hmem)), fun h b hb => decide_eq_true fun h0 => h (h0 ▸ hb)⟩

theorem pools_setPool (st : State) (p q : Nat) (pool : Pool) : (st.setPool p pool).pools q = if q = p then pool else st.pools q := by
  rw [State.setPool]
  exact update_apply ..

/-- What is the same of a pool when its count changes. -/
structure SameItems (pool pool' : Pool) : Prop where
  key : pool'.key = pool.key
  pool_size : pool'.pool_size = pool.pool_size
  cache : pool'.cache = pool.cache
  free : pool'.free = pool.free
  items : pool'.items = pool.items

variable {pool : Pool}

theorem SameItems.eq {pool' : Pool} (h : SameItems pool pool')
    (hactive : pool'.active_connections = pool.active_connections) : pool' = pool := by
  obtain ⟨hkey, hsize, hcache, hfree, hitems⟩ := h
  cases pool
  cases pool'
  simp_all

/-- What `release` does. -/
structure Released (p : Nat) (st st' : State) : Prop where
  pools : ∀ q, SameItems (st.pools q) (st'.pools q)
  active : ∀ q, (st'.pools q).active_connections = (st.pools q).active_connections - if q = p then 1 else 0
  registry : st'.registry =
    if (st.pools p).active_connections = 1 then unassign st.registry (cstring (st.pools p).key) else st.registry
  rest : st' = { st with pools := st'.pools, registry := st'.registry }

theorem released (st : State) (p : Nat) : Released p st (release st p) := by
  have hpools : ∀ q, (release st p).pools q =
      if q = p then { st.pools p with active_connections := (st.pools p).active_connections - 1 } else st.pools q := by
    intro q
    simp only [release]
    split
    · exact pools_setPool _ p q _
    · exact pools_setPool _ p q _
  have hiff : (st.pools p).active_connections - 1 = 0 ↔ (st.pools p).active_connections = 1 := by omega
  constructor
  · intro q
    rw [hpools]
    split
    · next hq =>
      subst hq
      exact ⟨rfl, rfl, rfl, rfl, rfl⟩
    · exact ⟨rfl, rfl, rfl, rfl, rfl⟩
  · intro q
    rw [hpools]
    split
    · next hq =>
      subst hq
      rfl
    · omega
  · simp only [release, hiff]
    split
    · simp only [free_pool, pools_setPool, if_true]
      rfl
    · rfl
  · simp only [release]
    split <;> rfl

/-- A pool pays its debt, and is not registered any more when nothing is left to count. -/
theorem Books.paid (h : Books st (some p) none) (hkey : (st.pools p).active_connections = 1 → 0 ∉ (st.pools p).key.bytes) :
    Inv (release st p) := by
  have hr := released st p
  generalize release st p = st' at hr
  obtain ⟨hpools, hactive, hregistry, hrest⟩ := hr
  have hconn : ∀ q i, st'.connection q i = st.connection q i := fun q i => by
    rw [State.connection, (hpools q).items]
    rfl
  have hsockets : st'.sockets = st.sockets := by rw [hrest]
  have hup : ∀ s, st'.up s = st.up s := fun s => by rw [State.up, hsockets]; rfl
  have hout : ∀ q, st'.out q = st.out q := fun q => by rw [State.out, hsockets]; rfl
  constructor
  · intro q
    rw [(hpools q).cache, (hpools q).free, (hpools q).pool_size]
    exact h.partition q
  · intro q i hi
    rw [(hpools q).cache] at hi
    rw [hconn, (hpools q).key, hrest]
    exact h.cached q i hi
  · intro s u c hs hc
    rw [hup] at hs
    rw [hrest]
    exact h.taken s u c hs hc
  · intro s u hs hw
    rw [hup] at hs
    exact h.waiting s u hs hw
  · intro q
    have hold := h.counted q
    rw [hactive, (hpools q).cache, hold, hout]
    by_cases hq : q = p
    · subst hq
      simp only [if_true, reduceCtorEq, if_false]
      omega
    · rw [if_neg hq, if_neg (by rw [some.injEq]; exact Ne.symm hq)]
      simp only [reduceCtorEq, if_false]
      omega
  · intro q
    have hold := h.registered q
    have howed := h.registered p
    simp only [reduceCtorEq, or_false] at hold howed ⊢
    rw [(hpools q).key, hactive, hregistry]
    split
    · next hone =>
      rw [cstring_eq_iff.mpr (hkey hone), lookup_unassign]
      by_cases hq : q = p
      · subst hq
        simp [hone]
      · rw [if_neg hq, Int.sub_zero]
        split
        · next hsame =>
          rw [← hold, hsame, howed.mpr (by omega)]
          simp [Ne.symm hq]
        · exact hold
    · next hone =>
      rw [hold]
      by_cases hq : q = p
      · subst hq
        have hcount := h.counted q
        rw [if_pos rfl] at hcount
        rw [if_pos rfl]
        omega
      · rw [if_neg hq]
        omega
  · intro k q hq
    have hq' : st.registry.lookup k = some q := by
      rw [hregistry] at hq
      split at hq
      · rw [lookup_unassign] at hq
        split at hq
        · cases hq
        · exact hq
      · exact hq
    rw [(hpools q).key, (hpools q).pool_size, hrest]
    exact h.keys k q hq'
  · intro q hq
    have hcreated : st.created ≤ q := by rwa [hrest] at hq
    have hactive_p : (st.pools p).active_connections ≠ 0 := by
      have hcount := h.counted p
      rw [if_pos rfl] at hcount
      omega
    have hp := (h.keys _ _ ((h.registered p).mpr (.inl hactive_p))).2.1
    rw [← h.unborn q hcreated]
    refine (hpools q).eq ?_
    rw [hactive, if_neg (by omega), Int.sub_zero]
  · rw [hrest]
    exact h.served
  · rw [hrest]
    exact h.sound

/-- The pool that the connection of a socket object was taken from can do without it. -/
def Spared (st : State) (s : Nat) : Prop :=
  ∀ u p, st.up s = some u → u.takenFrom = some p → (st.pools p).active_connections = 1 → 0 ∉ (st.pools p).key.bytes

theorem Books.finalized (h : Inv st) (hspared : Spared st s) : Inv (finalize st s) := by
  rw [finalize]
  cases hs : st.up s with
  | none => exact h
  | some u =>
    have hdropped : Books (st.setUp s u.finalized) u.takenFrom none := by
      have hset := h.setUp u.finalized (lt_of_up hs) nofun fun hw => ⟨rfl, (h.waiting s u hs hw).2⟩
      rwa [if_pos (show u.finalized.connection = none from rfl), hs] at hset
    simp only
    cases htaken : u.takenFrom with
    | none => rwa [htaken] at hdropped
    | some p =>
      rw [htaken] at hdropped
      exact hdropped.paid (hspared u p hs htaken)

theorem Books.nodup (h : Books st debt new) (p : Nat) : ((st.pools p).cache ++ (st.pools p).free).Nodup :=
  (h.partition p).nodup_iff.mpr nodup_range

/-- The pool without a cached item, which is free. -/
def Pool.uncache (pool : Pool) (i : Nat) : Pool := { pool with cache := pool.cache.erase i, free := i :: pool.free }

theorem perm_uncache (hi : i ∈ pool.cache)
    (h : (pool.cache ++ pool.free).Perm (List.range pool.pool_size)) :
    ((pool.uncache i).cache ++ (pool.uncache i).free).Perm (List.range (pool.uncache i).pool_size) := by
  have hcache : (pool.cache.erase i ++ i :: pool.free).Perm (pool.cache ++ pool.free) :=
    perm_middle.trans (((perm_cons_erase hi).symm.append_right pool.free))
  exact hcache.trans h

theorem mem_uncache (h : Books st debt new) (p : Nat) : j ∈ ((st.pools p).uncache i).cache ↔ j ≠ i ∧ j ∈ (st.pools p).cache :=
  (h.nodup p).of_append_left.mem_erase_iff

theorem length_uncache (hi : i ∈ pool.cache) : (pool.uncache i).cache.length + 1 = pool.cache.length := by
  have hpos := length_pos_of_mem hi
  rw [Pool.uncache, length_erase_of_mem hi]
  omega

/-- A cached item becomes free, its connection still counted. -/
theorem Books.uncache (h : Inv st) (hi : i ∈ (st.pools p).cache) :
    Books (st.setPool p ((st.pools p).uncache i)) (some p) none := by
  have hpool := fun q => pools_setPool st p q ((st.pools p).uncache i)
  have hsame : ∀ q, ((st.setPool p ((st.pools p).uncache i)).pools q).items = (st.pools q).items ∧
      ((st.setPool p ((st.pools p).uncache i)).pools q).key = (st.pools q).key := by
    intro q
    rw [hpool]
    split
    · next hq =>
      subst hq
      exact ⟨rfl, rfl⟩
    · exact ⟨rfl, rfl⟩
  constructor
  · intro q
    rw [hpool]
    split
    · exact perm_uncache hi (h.partition p)
    · exact h.partition q
  · intro q j hj
    have hold : j ∈ (st.pools q).cache := by
      rw [hpool] at hj
      split at hj
      · next hq =>
        subst hq
        exact ((mem_uncache h q).mp hj).2
      · exact hj
    rw [State.connection, (hsame q).1, (hsame q).2]
    exact h.cached q j hold
  · exact h.taken
  · exact h.waiting
  · intro q
    have hold := h.counted q
    simp only [reduceCtorEq, if_false] at hold
    rw [hpool]
    by_cases hq : q = p
    · subst hq
      have hlen := length_uncache hi
      rw [if_pos rfl, if_pos rfl]
      show (st.pools q).active_connections = _ + (st.out q : Int) + 1
      omega
    · rw [if_neg hq, if_neg (by rw [some.injEq]; exact Ne.symm hq)]
      exact hold
  · intro q
    rw [hpool]
    split
    · next hq =>
      subst hq
      exact h.registered q
    · exact h.registered q
  · intro k q hk
    rw [hpool]
    split
    · next hq =>
      subst hq
      exact h.keys k q hk
    · exact h.keys k q hk
  · intro q hq
    rw [hpool]
    split
    · next hqp =>
      subst hqp
      rw [h.unborn q hq] at hi
      cases hi
    · exact h.unborn q hq
  · exact h.served
  · exact h.sound

/-- The pool of a cached connection that is closed can do without it. -/
theorem Books.closed (h : Inv st) (hi : i ∈ (st.pools p).cache)
    (hkey : (st.pools p).active_connections = 1 → 0 ∉ (st.pools p).key.bytes) : Inv (close_handler st p i) := by
  refine (h.uncache hi).paid ?_
  rw [pools_setPool, if_pos rfl]
  exact hkey

/-! ## Entering a socket object -/

theorem Books.connection_ne (h : Books st debt new) (hi : i ∈ (st.pools p).cache) (hj : j ∈ (st.pools q).cache)
    (hne : ¬(q = p ∧ j = i)) : st.connection q j ≠ st.connection p i := by
  intro heq
  have hdata := (h.cached q j hj).1
  rw [heq, (h.cached p i hi).1, Owner.item.injEq] at hdata
  exact hne ⟨hdata.1.symm, hdata.2.symm⟩

/-- A connection that a socket object holds is not cached. -/
theorem Books.owned_ne (h : Books st debt new) (hs : st.up s = some u) (hc : u.connection = some c)
    (hi : i ∈ (st.pools p).cache) : st.connection p i ≠ c := by
  rintro rfl
  have hdata := (h.taken s u _ hs hc).1
  rw [(h.cached p i hi).1] at hdata
  cases hdata

/-- A connection that nobody holds goes to a socket object that has none; a pool that
counts it is the one it was taken from. -/
theorem Books.own {opened : Nat} {served : List (Key × Option Key)} (h : Books st u'.takenFrom none)
    (hs : st.up s = some u) (hnone : u.connection = none) (hc : u'.connection = some c) (hwait : u'.conn_waiting = false)
    (hpool : u'.reused ≠ 0 → ∃ p, u'.socket_pool = some p)
    (hcached : ∀ p, ∀ i ∈ (st.pools p).cache, st.connection p i ≠ c)
    (hother : ∀ t u, st.up t = some u → u.connection ≠ some c) (hlt : c < opened) (hle : st.opened ≤ opened)
    (hserved : ∀ e ∈ served, e.2 = some e.1) :
    Inv { st.setUp s u' with data := update st.data c (.upstream s), opened, served } := by
  have hsockets : ∀ t, ({ st.setUp s u' with data := update st.data c (.upstream s), opened, served } : State).up t =
      if t = s then some u' else st.up t := up_setUp (lt_of_up hs) u'
  constructor
  · exact h.partition
  · intro p i hi
    obtain ⟨hdata, hstored, hopened⟩ := h.cached p i hi
    exact ⟨(update_of_ne (hcached p i hi) ..).trans hdata, hstored, Nat.lt_of_lt_of_le hopened hle⟩
  · intro t v d ht hd
    rw [hsockets] at ht
    split at ht
    · next hts =>
      cases ht
      cases hc.symm.trans hd
      exact ⟨by rw [hts]; exact update_self .., hlt, hpool⟩
    · obtain ⟨hdata, hopened, htaken⟩ := h.taken t v d ht hd
      have hne : d ≠ c := fun heq => hother t v ht (heq ▸ hd)
      exact ⟨(update_of_ne hne ..).trans hdata, Nat.lt_of_lt_of_le hopened hle, htaken⟩
  · intro t v ht hw
    rw [hsockets] at ht
    split at ht
    · cases ht
      exact absurd (hwait.symm.trans hw) nofun
    · exact h.waiting t v ht hw
  · intro p
    have hout := out_setUp (lt_of_up hs) u' p
    have hold := h.counted p
    rw [hs, bind_some, takenFrom_none hnone] at hout
    show (st.pools p).active_connections = _ + ((st.setUp s u').out p : Int) + _
    simp only [reduceCtorEq, if_false] at hout ⊢
    by_cases htaken : u'.takenFrom = some p
    · rw [if_pos htaken] at hout hold
      show _ = ((st.pools p).cache.length : Int) + _ + _
      omega
    · rw [if_neg htaken] at hout hold
      show _ = ((st.pools p).cache.length : Int) + _ + _
      omega
  · exact h.registered
  · exact h.keys
  · exact h.unborn
  · exact hserved
  · exact h.sound

/-- The connection at the head of the cache goes to a socket object that has none. -/
theorem Books.peer (h : Inv st) (hs : st.up s = some u) (hc : u.connection = none)
    (hwait : u.conn_waiting = false) (key : Key) : Inv (get_keepalive_peer st s key u).1 := by
  have hlt := lt_of_up hs
  rw [get_keepalive_peer]
  cases hp : st.registry.lookup key with
  | none => exact h
  | some p =>
    cases hcache : (st.pools p).cache with
    | nil =>
      simp only [hcache]
      have hset := h.setUp { u with socket_pool := some p } hlt (fun c hc' => absurd (hc.symm.trans hc') nofun)
        fun hw => absurd (hwait.symm.trans hw) nofun
      rw [if_pos (show ({ u with socket_pool := some p } : Upstream).connection = none from hc), hs, bind_some,
        takenFrom_none hc] at hset
      exact hset
    | cons i cache =>
      simp only [hcache]
      have hi : i ∈ (st.pools p).cache := by
        rw [hcache]
        exact mem_cons_self
      have huncache : ({ st.pools p with cache, free := i :: (st.pools p).free } : Pool) = (st.pools p).uncache i := by
        rw [Pool.uncache, hcache, erase_cons_head]
      rw [huncache]
      obtain ⟨-, hstored, hopened⟩ := h.cached p i hi
      have hmoved := h.uncache hi
      refine Books.own ?_ hs hc rfl hwait (fun _ => ⟨p, rfl⟩) ?_ ?_ hopened (Nat.le_refl _) ?_
      · rw [takenFrom_reused rfl (succ_ne_zero _)]
        exact hmoved
      · intro q j hj
        rw [pools_setPool] at hj
        rw [State.connection, pools_setPool]
        split at hj
        · next hq =>
          subst hq
          rw [if_pos rfl]
          obtain ⟨hne, hj⟩ := (mem_uncache h q).mp hj
          exact h.connection_ne hi hj fun heq => hne heq.2
        · next hq =>
          rw [if_neg hq]
          exact h.connection_ne hi hj fun heq => hq heq.1
      · intro t v ht hv
        exact h.owned_ne ht hv hi rfl
      · intro e he
        rcases mem_cons.mp he with rfl | he
        · show st.stored (st.connection p i) = some key
          rw [hstored, (h.keys key p hp).1]
        · exact h.served e he

theorem Books.opened_free (h : Inv st) : (∀ p, ∀ i ∈ (st.pools p).cache, st.connection p i ≠ st.opened) ∧
    ∀ t u, st.up t = some u → u.connection ≠ some st.opened := by
  refine ⟨fun p i hi heq => ?_, fun t u ht hu => ?_⟩
  · have hlt := (h.cached p i hi).2.2
    omega
  · have hlt := (h.taken t u _ ht hu).2.1
    omega

theorem Books.established (h : Inv st) (hs : ∀ u, st.up s = some u → u.connection = none ∧ u.reused = 0) :
    Inv (open_connection st s) := by
  rw [open_connection]
  cases hu : st.up s with
  | none => exact h
  | some u =>
    obtain ⟨hnone, hreused⟩ := hs u hu
    have hfresh : (({ u with connection := some st.opened, conn_waiting := false } : Upstream)).takenFrom = none :=
      takenFrom_fresh hreused
    refine Books.own (hfresh.symm ▸ h) hu hnone rfl rfl (fun h => absurd hreused h) h.opened_free.1 h.opened_free.2
      (lt_succ_self _) (le_succ _) h.served

/-! ## `connect` -/

theorem sockets_release (st : State) (p : Nat) : (release st p).sockets = st.sockets := by
  rw [(released st p).rest]

theorem up_release (st : State) (p t : Nat) : (release st p).up t = st.up t := by
  rw [State.up, sockets_release]
  rfl

theorem length_finalize (st : State) (s : Nat) : (finalize st s).sockets.length = st.sockets.length := by
  rw [finalize]
  cases st.up s with
  | none => rfl
  | some u =>
    simp only
    cases u.takenFrom with
    | none => exact length_setUp
    | some p => exact (congrArg List.length (sockets_release _ p)).trans length_setUp

theorem up_finalize (st : State) (s t : Nat) :
    (finalize st s).up t = if t = s then (st.up s).map Upstream.finalized else st.up t := by
  rw [finalize]
  cases hs : st.up s with
  | none =>
    by_cases hts : t = s
    · rw [if_pos hts, hts]
      exact hs
    · rw [if_neg hts]
  | some u =>
    simp only
    cases u.takenFrom with
    | none => exact up_setUp (lt_of_up hs) _ t
    | some p => exact (up_release _ p t).trans (up_setUp (lt_of_up hs) _ t)

/-- A socket object is cleared after its connection is closed. -/
theorem Books.cleared (h : Inv st) (hs : s < st.sockets.length) (hspared : Spared st s) (request : Nat) :
    Inv ((finalize st s).setUp s (.zero request)) := by
  have hset := (h.finalized hspared).setUp (.zero request) (by rwa [length_finalize]) nofun nofun
  rw [if_pos (show (Upstream.zero request).connection = none from rfl), up_finalize, if_pos rfl] at hset
  cases hup : st.up s with
  | none => rwa [hup] at hset
  | some u =>
    rw [hup, map_some, bind_some, takenFrom_none rfl] at hset
    exact hset

theorem up_declined (hs : st.up s = some u) (key : Key) (h : (get_keepalive_peer st s key u).2 = false) :
    ∃ v, (get_keepalive_peer st s key u).1.up s = some v ∧ v.connection = u.connection ∧ v.reused = u.reused := by
  rw [get_keepalive_peer] at h ⊢
  cases hp : st.registry.lookup key with
  | none => exact ⟨u, hs, rfl, rfl⟩
  | some p =>
    rw [hp] at h
    cases hcache : (st.pools p).cache with
    | nil =>
      simp only [hcache]
      exact ⟨{ u with socket_pool := some p }, by rw [up_setUp (lt_of_up hs), if_pos rfl], rfl, rfl⟩
    | cons i cache =>
      simp only [hcache] at h
      cases h

/-- The checks of `connect` change nothing but the key. -/
theorem connectChecks_state (st : State) (s : Nat) (args : ConnectArgs) :
    (connectChecks st s args).1 = st ∨ ∃ key, (connectChecks st s args).1 = st.setKey s key := by
  rw [connectChecks]
  cases args.pool with
  | bad => exact .inl rfl
  | custom key => exact .inr ⟨key, rfl⟩
  | absent =>
    cases args.portError with
    | some ret => exact .inl rfl
    | none => exact .inr ⟨args.key, rfl⟩

theorem Books.checked (h : Inv st) (hs : s < st.sockets.length) (args : ConnectArgs) :
    Inv (connectChecks st s args).1 ∧ s < (connectChecks st s args).1.sockets.length ∧
      (connectChecks st s args).1.pools = st.pools ∧ (connectChecks st s args).1.up = st.up ∧
      (connectChecks st s args).1.registry = st.registry := by
  rcases connectChecks_state st s args with heq | ⟨key, heq⟩
  · rw [heq]
    exact ⟨h, hs, rfl, rfl, rfl⟩
  · rw [heq]
    exact ⟨h.setKey hs, by rw [State.setKey, length_modify]; exact hs, rfl, funext fun t => up_setKey t, rfl⟩

theorem Books.connected (h : Inv st) (hs : s < st.sockets.length) (args : ConnectArgs) (net : Net)
    (hspared : (connectChecks st s args).2 = none → Spared st s) : Inv (connect st s args net).1 := by
  obtain ⟨hinv, hlt, hpools, hup, -⟩ := h.checked hs args
  rw [connect]
  generalize connectChecks st s args = checked at hspared hinv hlt hpools hup
  obtain ⟨st₁, ret⟩ := checked
  cases ret with
  | some ret => exact hinv
  | none =>
    simp only at hinv hlt hpools hup ⊢
    have hcleared := hinv.cleared hlt (by rw [Spared, hup, hpools]; exact hspared rfl) args.request
    have hzero : ((finalize st₁ s).setUp s (.zero args.request)).up s = some (.zero args.request) := by
      rw [up_setUp (by rwa [length_finalize]), if_pos rfl]
    have hpeer := hcleared.peer hzero rfl rfl args.key
    have hdeclined := up_declined hzero args.key
    generalize get_keepalive_peer ((finalize st₁ s).setUp s (.zero args.request)) s args.key
      (.zero args.request) = peer at hpeer hdeclined
    obtain ⟨st₂, found⟩ := peer
    cases found with
    | true => exact hpeer
    | false =>
      obtain ⟨v, hv, hnone, hreused⟩ := hdeclined rfl
      cases net with
      | established =>
        refine hpeer.established fun w hw => ?_
        cases hv.symm.trans hw
        exact ⟨hnone, hreused⟩
      | waiting =>
        simp only at hv ⊢
        rw [hv, elim_some]
        have hset := hpeer.setUp { v with conn_waiting := true } (lt_of_up hv)
          (fun c hc => absurd (hnone.symm.trans hc) nofun) fun _ => ⟨hnone, hreused⟩
        rw [if_pos (show ({ v with conn_waiting := true } : Upstream).connection = none from hnone), hv, bind_some,
          takenFrom_none hnone] at hset
        exact hset
      | failed => exact hpeer

/-! ## `setkeepalive` -/

/-- What becomes of a pool when an item is taken for a connection. -/
theorem takeItem_spec (hpart : (pool.cache ++ pool.free).Perm (List.range pool.pool_size))
    (hsize : 0 < pool.pool_size) :
    (pool.takeItem.2 :: pool.takeItem.1.cache ++ pool.takeItem.1.free).Perm (pool.cache ++ pool.free) ∧
      (∀ j ∈ pool.takeItem.1.cache, j ∈ pool.cache) ∧
      pool.takeItem.1.active_connections - pool.takeItem.1.cache.length = pool.active_connections - pool.cache.length ∧
      pool.takeItem.1.key = pool.key ∧
      pool.takeItem.1.pool_size = pool.pool_size := by
  rw [Pool.takeItem]
  cases hfree : pool.free with
  | cons i free => exact ⟨perm_middle.symm, fun _ h => h, rfl, rfl, rfl⟩
  | nil =>
    have hne : pool.cache ≠ [] := by
      intro hnil
      have hlen := hpart.length_eq
      rw [hnil, hfree, length_append, List.length_range] at hlen
      exact absurd hlen (Nat.ne_of_lt hsize)
    have hpos := length_pos_of_ne_nil hne
    refine ⟨?_, fun j hj => (dropLast_sublist _).mem hj, ?_, rfl, rfl⟩
    · show (pool.cache.getLast?.getD 0 :: pool.cache.dropLast ++ []).Perm (pool.cache ++ [])
      rw [append_nil, append_nil, getLast?_eq_getLast_of_ne_nil hne, getD_some]
      refine (perm_append_singleton _ _).symm.trans ?_
      rw [dropLast_append_getLast hne]
    · show pool.active_connections - 1 - (pool.cache.dropLast.length : Int) = _
      rw [length_dropLast]
      omega

/-- The state when a connection is in a pool and wired to its item. -/
def kept (st : State) (s p : Nat) (key : Key) (u : Upstream) (conn : Nat) : State :=
  wire (store st s p key u conn).1 p (store st s p key u conn).2 u conn

/-- The pool of `kept`. -/
def Pool.kept (pool : Pool) (u : Upstream) (conn : Nat) : Pool :=
  { (pool.store u conn).1 with
    items := update pool.items pool.takeItem.2 { connection := conn, reused := u.reused } }

theorem connection_store (pool : Pool) (u : Upstream) (conn : Nat) :
    ((pool.store u conn).1.items pool.takeItem.2).connection = conn := by
  have hitems : (pool.store u conn).1.items = update pool.takeItem.1.items pool.takeItem.2
      { pool.takeItem.1.items pool.takeItem.2 with connection := conn } := rfl
  rw [hitems, update_self]

theorem store_number (st : State) (s p : Nat) (key : Key) (u : Upstream) (conn : Nat) :
    (store st s p key u conn).2 = (st.pools p).takeItem.2 := rfl

theorem items_takeItem (pool : Pool) : pool.takeItem.1.items = pool.items := by
  rw [Pool.takeItem]
  cases pool.free <;> rfl

theorem pools_kept (st : State) (s p : Nat) (key : Key) (u : Upstream) (conn q : Nat) :
    (kept st s p key u conn).pools q = if q = p then (st.pools p).kept u conn else st.pools q := by
  have hstore : (store st s p key u conn).1.pools = update st.pools p ((st.pools p).store u conn).1 := rfl
  rw [kept, wire, hstore]
  show update (update st.pools p _) p _ q = _
  rw [update_self, update_idem, update_apply]
  split
  · simp only [Pool.kept, Pool.store, store_number, items_takeItem, update_idem, update_self]
  · rfl

theorem up_kept (hs : s < st.sockets.length) (p : Nat) (key : Key) (u : Upstream) (conn t : Nat) :
    (kept st s p key u conn).up t = if t = s then some { u with connection := none } else st.up t :=
  up_setUp hs _ t

/-- What the pool of an upstream counts when the upstream has no connection any more. -/
theorem out_dropped (hs : st.up s = some u) (q : Nat) :
    (st.setUp s { u with connection := none }).out q + (if u.takenFrom = some q then 1 else 0) = st.out q := by
  have hset := out_setUp (lt_of_up hs) { u with connection := none } q
  rw [hs, bind_some, takenFrom_none (show ({ u with connection := none } : Upstream).connection = none from rfl)]
    at hset
  simp only [reduceCtorEq, if_false] at hset
  exact hset

/-- The connection of a socket object goes into the pool of its key, which is the one
that it was taken from, if it was taken from one. -/
theorem Books.keep (h : Books st none new) (hnew : new = none ∨ new = some p) (hp : st.registry.lookup key = some p)
    (hs : st.up s = some u) (hc : u.connection = some conn) (hown : u.reused ≠ 0 → u.socket_pool = some p) :
    Inv (kept st s p key u conn) := by
  obtain ⟨hkey, hcreated, hsize⟩ := h.keys key p hp
  obtain ⟨hperm, hsub, hactive, hkey', hsize'⟩ := takeItem_spec (h.partition p) hsize
  have hpools := pools_kept st s p key u conn
  have hup := up_kept (lt_of_up hs) p key u conn
  have hdata : (kept st s p key u conn).data =
      update st.data conn (.item p (st.pools p).takeItem.2) := rfl
  have hstored : (kept st s p key u conn).stored = update st.stored conn (some key) := rfl
  have hnotin : (st.pools p).takeItem.2 ∉ (st.pools p).takeItem.1.cache := by
    have hnodup := (hperm.trans (h.partition p)).nodup_iff.mpr nodup_range
    rw [cons_append, nodup_cons] at hnodup
    exact fun hmem => hnodup.1 (mem_append_left _ hmem)
  have hreg : ∀ q, ((kept st s p key u conn).pools q).key = (st.pools q).key := by
    intro q
    rw [hpools q]
    split
    · next hq =>
      rw [hq]
      exact hkey'
    · rfl
  have hcount : ∀ q, ((kept st s p key u conn).pools q).active_connections =
      ((kept st s p key u conn).pools q).cache.length + (kept st s p key u conn).out q := by
    intro q
    have hout : (kept st s p key u conn).out q + (if u.takenFrom = some q then 1 else 0) = st.out q := out_dropped hs q
    have hold := h.counted q
    simp only [reduceCtorEq, if_false] at hold
    rw [hpools q]
    by_cases hq : q = p
    · subst hq
      rw [if_pos rfl]
      show (if u.reused = 0 then (st.pools q).takeItem.1.active_connections + 1
        else (st.pools q).takeItem.1.active_connections) = (((st.pools q).takeItem.1.cache.length + 1 : Nat) : Int) + _
      by_cases hr : u.reused = 0
      · simp only [takenFrom_fresh hr, reduceCtorEq, if_false] at hout
        rw [if_pos hr]
        omega
      · rw [takenFrom_reused hc hr, hown hr, if_pos rfl] at hout
        rw [if_neg hr]
        omega
    · have hne : u.takenFrom ≠ some q := by
        by_cases hr : u.reused = 0
        · rw [takenFrom_fresh hr]
          exact nofun
        · rw [takenFrom_reused hc hr, hown hr, ne_eq, some.injEq]
          exact Ne.symm hq
      rw [if_neg hne] at hout
      rw [if_neg hq]
      omega
  constructor
  · intro q
    rw [hpools q]
    split
    · exact (hperm.trans (h.partition p)).trans (by rw [Pool.kept, Pool.store, ← hsize'])
    · exact h.partition q
  · intro q j hj
    rw [hpools q] at hj
    rw [hdata, hstored, hreg]
    have hheld : (kept st s p key u conn).connection q j =
        if q = p ∧ j = (st.pools p).takeItem.2 then conn else st.connection q j := by
      rw [State.connection, hpools q]
      by_cases hq : q = p
      · subst hq
        rw [if_pos rfl, Pool.kept]
        simp only [update_apply, true_and]
        split <;> rfl
      · rw [if_neg hq, if_neg fun h => hq h.1]
        rfl
    rw [hheld]
    by_cases hsame : q = p ∧ j = (st.pools p).takeItem.2
    · obtain ⟨rfl, rfl⟩ := hsame
      rw [if_pos ⟨rfl, rfl⟩, update_self, update_self, hkey]
      exact ⟨rfl, rfl, (h.taken s u conn hs hc).2.1⟩
    · rw [if_neg hsame]
      have hold : j ∈ (st.pools q).cache := by
        split at hj
        · next hq =>
          subst hq
          exact (mem_cons.mp hj).elim (fun heq => absurd ⟨rfl, heq⟩ hsame) (hsub j)
        · exact hj
      have hne := h.owned_ne hs hc hold
      rw [update_of_ne hne, update_of_ne hne]
      exact h.cached q j hold
  · intro t v c ht hv
    rw [hup] at ht
    split at ht
    · cases ht
      cases hv
    · next hts =>
      obtain ⟨hold, hrest⟩ := h.taken t v c ht hv
      refine ⟨?_, hrest⟩
      rw [hdata, update_of_ne, hold]
      rintro rfl
      rw [(h.taken s u c hs hc).1, Owner.upstream.injEq] at hold
      exact hts hold.symm
  · intro t v ht hw
    rw [hup] at ht
    split at ht
    · cases ht
      exact ⟨rfl, (h.waiting s u hs hw).2⟩
    · exact h.waiting t v ht hw
  · intro q
    rw [hcount q]
    simp
  · intro q
    have hold := h.registered q
    simp only [reduceCtorEq, or_false]
    rw [hreg]
    show st.registry.lookup _ = _ ↔ _
    by_cases hq : q = p
    · have hpos : 0 < ((kept st s p key u conn).pools q).cache.length := by
        rw [hpools q, if_pos hq]
        exact succ_pos _
      have hactive := hcount q
      refine ⟨fun _ => by omega, fun _ => ?_⟩
      rw [hq, hkey]
      exact hp
    · rw [hold, hpools q, if_neg hq]
      refine or_iff_left fun hq' => ?_
      rcases hnew with rfl | rfl
      · cases hq'
      · exact hq (some.inj hq').symm
  · intro k q hq
    rw [hreg]
    refine ⟨(h.keys k q hq).1, (h.keys k q hq).2.1, ?_⟩
    rw [hpools q]
    split
    · show 0 < (st.pools p).takeItem.1.pool_size
      rw [hsize']
      exact hsize
    · exact (h.keys k q hq).2.2
  · intro q hq
    rw [hpools q, if_neg (by rintro rfl; exact absurd hcreated (Nat.not_lt.mpr hq))]
    exact h.unborn q hq
  · exact h.served
  · exact h.sound

/-- `setkeepalive` finds a pool, or can create one. -/
def Pooled (conf : Conf) (st : State) (key : Key) (size : Arg) (c : Conditions) : Prop :=
  (st.registry.lookup key).isSome ∨
    ∃ n, poolSize conf size = some n ∧ n ≠ 0 ∧ c.memory = true ∧ poolBytes key n % 2 ^ 64 ≤ MAX_UDATA

/-- What `spool` gives. -/
inductive Spool (conf : Conf) (st : State) (key : Key) (size : Arg) : State → Nat → Prop
  | found {p : Nat} (h : st.registry.lookup key = some p) : Spool conf st key size st p
  | created {n : Nat} (h : st.registry.lookup key = none) (hsize : poolSize conf size = some n) (hn : n ≠ 0) :
    Spool conf st key size
      { st.setPool st.created (newPool key n) with
        created := st.created + 1
        registry := assign st.registry key st.created
        crashed := st.crashed || decide (2 ^ 64 ≤ poolBytes key n) } st.created

theorem spool_cases (conf : Conf) (st : State) (key : Key) (size : Arg) (cs : Conditions) :
    (∃ ret, spool conf st key size cs = .error ret) ∧ ¬ Pooled conf st key size cs ∨
      ∃ st' p, spool conf st key size cs = .ok (st', p) ∧ Pooled conf st key size cs ∧ Spool conf st key size st' p := by
  rw [spool]
  cases hfind : st.registry.lookup key with
  | some p => exact .inr ⟨st, p, rfl, .inl (by rw [hfind]; rfl), .found hfind⟩
  | none =>
    simp only [Pooled, hfind, isSome_none, Bool.false_eq_true, false_or]
    cases hsize : poolSize conf size with
    | none => exact .inl ⟨⟨_, rfl⟩, nofun⟩
    | some n =>
      simp only
      split
      · next hn => exact .inl ⟨⟨_, rfl⟩, fun ⟨m, hm, hne, _⟩ => hne (some.inj hm ▸ hn)⟩
      · next hn =>
        split
        · next hfail =>
          refine .inl ⟨⟨_, rfl⟩, fun ⟨m, hm, _, hmemory, hbytes⟩ => ?_⟩
          cases hm
          rcases hfail with hfail | hfail
          · rw [hmemory] at hfail
            cases hfail
          · omega
        · next hfits =>
          rw [not_or, Nat.not_lt] at hfits
          exact .inr ⟨_, _, rfl, ⟨n, rfl, hn, by simpa using hfits.1, hfits.2⟩, .created hfind hsize hn⟩

variable {size timeout : Arg}

theorem Books.spool (h : Inv st) (hspool : Spool conf st key size st' p) (hsound : st'.crashed = false) :
    ∃ new, (new = none ∨ new = some p) ∧ Books st' none new ∧ st'.registry.lookup key = some p := by
  cases hspool with
  | found hp => exact ⟨none, .inl rfl, h, hp⟩
  | created hnone hsize hn =>
    rename_i n
    have hempty := h.unborn st.created (Nat.le_refl _)
    have hfind : ∀ k, (assign st.registry key st.created).lookup k =
        if k = key then some st.created else st.registry.lookup k := fun k => lookup_assign _ _ _ _
    have hpools := fun q => pools_setPool st st.created q (newPool key n)
    refine ⟨some st.created, .inr rfl, ?_, by rw [hfind, if_pos rfl]⟩
    constructor
    · intro q
      show (((st.setPool st.created (newPool key n)).pools q).cache ++ _).Perm _
      rw [hpools]
      split
      · exact reverse_perm _
      · exact h.partition q
    · intro q i hi
      have hmem : i ∈ ((st.setPool st.created (newPool key n)).pools q).cache := hi
      have hpool : (st.setPool st.created (newPool key n)).pools q = st.pools q := by
        rw [hpools] at hmem ⊢
        split at hmem
        · cases hmem
        · next hq => exact if_neg hq
      rw [hpool] at hmem
      show st.data (((st.setPool st.created (newPool key n)).pools q).items i).connection = _ ∧
        st.stored (((st.setPool st.created (newPool key n)).pools q).items i).connection =
          some ((st.setPool st.created (newPool key n)).pools q).key ∧
        (((st.setPool st.created (newPool key n)).pools q).items i).connection < _
      rw [hpool]
      exact h.cached q i hmem
    · exact h.taken
    · exact h.waiting
    · intro q
      have hold := h.counted q
      simp only [reduceCtorEq, if_false] at hold ⊢
      show ((st.setPool st.created (newPool key n)).pools q).active_connections =
        ((st.setPool st.created (newPool key n)).pools q).cache.length + (st.out q : Int) + 0
      rw [hpools]
      split
      · next hq =>
        subst hq
        rw [hempty] at hold
        exact hold
      · exact hold
    · intro q
      have hold := h.registered q
      simp only [reduceCtorEq, or_false] at hold
      show (assign st.registry key st.created).lookup ((st.setPool st.created (newPool key n)).pools q).key = some q ↔
        ((st.setPool st.created (newPool key n)).pools q).active_connections ≠ 0 ∨ _
      rw [hpools, hfind]
      by_cases hq : q = st.created
      · simp [hq, newPool]
      · rw [if_neg hq, or_iff_left fun heq => hq (some.inj heq).symm]
        split
        · next hkey =>
          rw [← hold, hkey, hnone]
          simp [Ne.symm hq]
        · exact hold
    · intro k q hq
      show ((st.setPool st.created (newPool key n)).pools q).key = k ∧ q < st.created + 1 ∧
        0 < ((st.setPool st.created (newPool key n)).pools q).pool_size
      rw [hfind] at hq
      rw [hpools]
      split at hq
      · next hk =>
        cases hq
        rw [if_pos rfl]
        exact ⟨hk.symm, lt_succ_self _, Nat.pos_of_ne_zero hn⟩
      · obtain ⟨hkey, hlt, hpos⟩ := h.keys k q hq
        rw [if_neg (Nat.ne_of_lt hlt)]
        exact ⟨hkey, lt_succ_of_lt hlt, hpos⟩
    · intro q hq
      exact (hpools q).trans ((if_neg (by rintro rfl; exact not_succ_le_self _ hq)).trans
        (h.unborn q (le_of_succ_le hq)))
    · exact h.served
    · exact hsound

/-- The connection would be the only one that the pool of its key counts. -/
def Alone (st : State) (key : Key) (u : Upstream) : Prop :=
  match st.registry.lookup key with
  | none => True
  | some p =>
    (st.pools p).active_connections - (if (st.pools p).free = [] then 1 else 0) + (if u.reused = 0 then 1 else 0) = 1

/-- When `setkeepalive` leaves the pools as they should be: if it gets as far as to
store the connection, then the items of a new pool fit into its memory; the timeout
is a number; a connection that was taken from a pool goes back to the pool of that
name; and a dubious connection that is alone in its pool has a key without NUL. -/
def KeepCareful (conf : Conf) (st : State) (s : Nat) (timeout size : Arg) (cs : Conditions) : Prop :=
  ∀ key u conn, keepable st s cs = .ok (key, u, conn) → Pooled conf st key size cs →
    (st.registry.lookup key = none → ∀ n, poolSize conf size = some n → poolBytes key n < 2 ^ 64) ∧
    timeout ≠ .bad ∧
    (u.reused ≠ 0 → ∃ p, u.socket_pool = some p ∧ (st.pools p).key = key) ∧
    (cs.dubious = true → Alone st key u → 0 ∉ key.bytes)

variable {cs : Conditions}

theorem keepable_ok (h : keepable st s cs = .ok (key, u, conn)) : st.up s = some u ∧ u.connection = some conn := by
  rw [keepable] at h
  cases hkey : st.sockets[s]?.bind Socket.key with
  | none =>
    rw [hkey] at h
    cases h
  | some k =>
    simp only [hkey] at h
    cases hs : st.up s with
    | none =>
      rw [hs] at h
      cases h
    | some v =>
      simp only [hs] at h
      cases hc : v.connection with
      | none =>
        rw [hc] at h
        cases h
      | some c =>
        simp only [hc] at h
        repeat' split at h
        all_goals first
          | cases h
            exact ⟨rfl, hc⟩
          | cases h

/-- The pool that a connection was taken from is registered. -/
theorem Books.registered_of_taken (h : Inv st) (hs : st.up s = some u) (htaken : u.takenFrom = some p) :
    st.registry.lookup (st.pools p).key = some p := by
  have hpos : 0 < st.out p := by
    rw [State.out, countP_pos_iff]
    have hlt := lt_of_up hs
    refine ⟨st.sockets[s], getElem_mem _, ?_⟩
    have hup : st.sockets[s]?.bind Socket.upstream = some u := hs
    rw [getElem?_eq_getElem hlt, bind_some] at hup
    rw [hup, bind_some, htaken, beq_self_eq_true]
  have hcount := h.counted p
  simp only [reduceCtorEq, if_false] at hcount
  exact (h.registered p).mpr (.inl (by omega))

theorem active_kept (st : State) (s p : Nat) (key : Key) (u : Upstream) (conn : Nat) :
    ((kept st s p key u conn).pools p).active_connections =
      (st.pools p).active_connections - (if (st.pools p).free = [] then 1 else 0) + if u.reused = 0 then 1 else 0 := by
  rw [pools_kept, if_pos rfl, Pool.kept, Pool.store, Pool.takeItem]
  cases hfree : (st.pools p).free with
  | nil =>
    simp only [if_true]
    split <;> omega
  | cons i free =>
    simp only [reduceCtorEq, if_false]
    split <;> omega

/-- Where `setkeepalive` gets to. -/
inductive Keep (conf : Conf) (st : State) (s : Nat) (timeout size : Arg) (cs : Conditions) : State → Prop
  | failed (h : ∀ key u conn, keepable st s cs = .ok (key, u, conn) → ¬ Pooled conf st key size cs) :
    Keep conf st s timeout size cs st
  | raised {st' : State} {key : Key} {u : Upstream} {conn p : Nat} (h : keepable st s cs = .ok (key, u, conn))
    (hpooled : Pooled conf st key size cs) (hspool : Spool conf st key size st' p) (htimeout : timeout = .bad) :
    Keep conf st s timeout size cs (store st' s p key u conn).1
  | dubious {st' : State} {key : Key} {u : Upstream} {conn p : Nat} (h : keepable st s cs = .ok (key, u, conn))
    (hpooled : Pooled conf st key size cs) (hspool : Spool conf st key size st' p) (htimeout : timeout ≠ .bad)
    (hdubious : cs.dubious = true) :
    Keep conf st s timeout size cs (close_handler (kept st' s p key u conn) p (st'.pools p).takeItem.2)
  | saved {st' : State} {key : Key} {u : Upstream} {conn p : Nat} (h : keepable st s cs = .ok (key, u, conn))
    (hpooled : Pooled conf st key size cs) (hspool : Spool conf st key size st' p) (htimeout : timeout ≠ .bad)
    (hdubious : cs.dubious = false) :
    Keep conf st s timeout size cs (finalize (kept st' s p key u conn) s)

theorem setkeepalive_cases (conf : Conf) (st : State) (s : Nat) (timeout size : Arg) (cs : Conditions) :
    Keep conf st s timeout size cs (setkeepalive conf st s timeout size cs).1 := by
  rw [setkeepalive]
  cases hkeep : keepable st s cs with
  | error ret =>
    refine .failed fun key u conn h => ?_
    rw [hkeep] at h
    cases h
  | ok found =>
    obtain ⟨key, u, conn⟩ := found
    rcases spool_cases conf st key size cs with ⟨⟨ret, hret⟩, hnot⟩ | ⟨st', p, hok, hpooled, hspool⟩
    · simp only [hret]
      refine .failed fun key' u' conn' h => ?_
      rw [hkeep] at h
      cases h
      exact hnot
    · simp only [hok]
      have hwired (htimeout : timeout ≠ .bad) : Keep conf st s timeout size cs
          (if cs.dubious = true then (close_handler (kept st' s p key u conn) p (st'.pools p).takeItem.2,
            Ret.err "connection in dubious state") else (finalize (kept st' s p key u conn) s, Ret.ok)).1 := by
        cases hdubious : cs.dubious with
        | true => exact .dubious hkeep hpooled hspool htimeout hdubious
        | false => exact .saved hkeep hpooled hspool htimeout hdubious
      cases timeout with
      | bad => exact .raised hkeep hpooled hspool rfl
      | absent => exact hwired nofun
      | integer n => exact hwired nofun

theorem Spool.sockets (h : Spool conf st key size st' p) : st'.sockets = st.sockets := by
  cases h <;> rfl

theorem Spool.up (h : Spool conf st key size st' p) (t : Nat) : st'.up t = st.up t := by
  rw [State.up, h.sockets]
  rfl

/-- The pool that a connection was taken from is the one of its key, when the keys agree. -/
theorem Books.own_pool (h : Inv st) (hspool : Spool conf st key size st' p) (hs : st.up s = some u)
    (hc : u.connection = some conn) (hown : u.reused ≠ 0 → ∃ q, u.socket_pool = some q ∧ (st.pools q).key = key)
    (hreused : u.reused ≠ 0) : u.socket_pool = some p := by
  obtain ⟨q, hq, hkey⟩ := hown hreused
  have hreg := h.registered_of_taken hs ((takenFrom_reused hc hreused).trans hq)
  rw [hkey] at hreg
  cases hspool with
  | found hp => rw [hq, ← hreg, hp]
  | created hnone => cases hnone.symm.trans hreg

theorem Books.kept_inv (h : Inv st) (hkeep : keepable st s cs = .ok (key, u, conn))
    (hspool : Spool conf st key size st' p) (hsound : st'.crashed = false)
    (hown : u.reused ≠ 0 → ∃ q, u.socket_pool = some q ∧ (st.pools q).key = key) :
    Inv (kept st' s p key u conn) ∧ (st'.pools p).takeItem.2 ∈ ((kept st' s p key u conn).pools p).cache ∧
      ((kept st' s p key u conn).pools p).key = key ∧
      (((kept st' s p key u conn).pools p).active_connections = 1 ↔ Alone st key u) := by
  obtain ⟨hs, hc⟩ := keepable_ok hkeep
  obtain ⟨new, hnew, hbooks, hp⟩ := h.spool hspool hsound
  have hinv := hbooks.keep hnew hp ((hspool.up s).trans hs) hc (h.own_pool hspool hs hc hown)
  refine ⟨hinv, ?_, (hinv.keys key p hp).1, ?_⟩
  · rw [pools_kept, if_pos rfl]
    exact mem_cons_self
  · rw [active_kept]
    cases hspool with
    | found hfound => rw [Alone, hfound]
    | created hnone hsize hn =>
      rename_i n
      have hreused : u.reused = 0 := by
        by_contra hreused
        obtain ⟨q, hq, hkey⟩ := hown hreused
        have hreg := h.registered_of_taken hs ((takenFrom_reused hc hreused).trans hq)
        rw [hkey, hnone] at hreg
        cases hreg
      have hfree : (List.range n).reverse ≠ [] := by
        rw [ne_eq, reverse_eq_nil_iff, range_eq_nil]
        exact hn
      rw [Alone, hnone, iff_true, if_pos hreused]
      show (update st.pools st.created (newPool key n) st.created).active_connections - (if
        (update st.pools st.created (newPool key n) st.created).free = [] then 1 else 0) + 1 = 1
      rw [update_self, newPool, if_neg hfree]
      rfl

theorem Books.keep_step (h : Inv st)
    (hcareful : KeepCareful conf st s timeout size cs) : Inv (setkeepalive conf st s timeout size cs).1 := by
  have hcases := setkeepalive_cases conf st s timeout size cs
  generalize (setkeepalive conf st s timeout size cs).1 = final at hcases
  have hsound {key : Key} {u : Upstream} {conn p : Nat} {st' : State} (hkeep : keepable st s cs = .ok (key, u, conn))
      (hpooled : Pooled conf st key size cs) (hspool : Spool conf st key size st' p) : st'.crashed = false := by
    have hfits := (hcareful key u conn hkeep hpooled).1
    cases hspool with
    | found => exact h.sound
    | created hnone hsize =>
      rw [h.sound, Bool.false_or]
      exact decide_eq_false (Nat.not_le.mpr (hfits hnone _ hsize))
  cases hcases with
  | failed => exact h
  | raised hkeep hpooled _ htimeout => exact absurd htimeout (hcareful _ _ _ hkeep hpooled).2.1
  | dubious hkeep hpooled hspool _ hdubious =>
    obtain ⟨-, -, hown, halone⟩ := hcareful _ _ _ hkeep hpooled
    obtain ⟨hinv, hi, hkey, hlast⟩ := h.kept_inv hkeep hspool (hsound hkeep hpooled hspool) hown
    refine hinv.closed hi fun hactive => ?_
    rw [hkey]
    exact halone hdubious (hlast.mp hactive)
  | saved hkeep hpooled hspool =>
    obtain ⟨-, -, hown, -⟩ := hcareful _ _ _ hkeep hpooled
    obtain ⟨hinv, -, -, -⟩ := h.kept_inv hkeep hspool (hsound hkeep hpooled hspool) hown
    refine hinv.finalized fun v q hv htaken => ?_
    rw [up_kept (lt_of_up ((hspool.up s).trans (keepable_ok hkeep).1)), if_pos rfl] at hv
    cases hv
    rw [takenFrom_none rfl] at htaken
    cases htaken

/-- A pool that has paid its debt is as it should be only if its key has no NUL, or
something is left to count. -/
theorem Books.spare (h : Books st (some p) none)
    (hright : (release st p).registry.lookup ((release st p).pools p).key = some p ↔
      ((release st p).pools p).active_connections ≠ 0) :
    (st.pools p).active_connections = 1 → 0 ∉ (st.pools p).key.bytes := by
  intro hactive hmem
  have hr := released st p
  have hreg := (h.registered p).mpr (.inl (by omega))
  rw [(hr.pools p).key, hr.active, hr.registry, if_pos hactive, if_pos rfl, hactive, lookup_unassign,
    if_neg fun heq => cstring_eq_iff.mp heq.symm hmem, hreg] at hright
  exact absurd rfl (hright.mp rfl)

/-- What `setkeepalive` does, when it stores the connection, to the pools other than its own. -/
structure Others (st' : State) (p : Nat) (final : State) : Prop where
  crashed : final.crashed = st'.crashed
  pools : ∀ q, q ≠ p → SameItems (st'.pools q) (final.pools q) ∧
    (final.pools q).active_connections = (st'.pools q).active_connections

theorem others_kept (st' : State) (s p : Nat) (key : Key) (u : Upstream) (conn : Nat) :
    Others st' p (kept st' s p key u conn) where
  crashed := rfl
  pools q hq := by
    rw [pools_kept, if_neg hq]
    exact ⟨⟨rfl, rfl, rfl, rfl, rfl⟩, rfl⟩

/-- The socket objects when `setkeepalive` has stored a connection. -/
theorem Keep.stored {timeout size : Arg} {cs : Conditions} {final : State}
    (hkeep : keepable st s cs = .ok (key, u, conn)) (hpooled : Pooled conf st key size cs)
    (h : Keep conf st s timeout size cs final) :
    ∃ st' p, Spool conf st key size st' p ∧ Others st' p final ∧
      (∀ q, final.out q + (if u.takenFrom = some q then 1 else 0) = st.out q) ∧
      (timeout = .bad → final = (store st' s p key u conn).1) ∧
      (timeout ≠ .bad → cs.dubious = true →
        final = close_handler (kept st' s p key u conn) p (st'.pools p).takeItem.2) := by
  obtain ⟨hs, -⟩ := keepable_ok hkeep
  have hdropped {st' : State} {p : Nat} (hspool : Spool conf st key size st' p) (q : Nat) :
      (st'.setUp s { u with connection := none }).out q + (if u.takenFrom = some q then 1 else 0) = st.out q := by
    rw [out_dropped ((hspool.up s).trans hs), State.out, hspool.sockets]
    rfl
  cases h with
  | failed h => exact absurd hpooled (h key u conn hkeep)
  | @raised st' key' u' conn' p h _ hspool htimeout =>
    cases hkeep.symm.trans h
    have hdrop := hdropped hspool
    refine ⟨st', p, hspool, ⟨rfl, fun q hq => ?_⟩, fun q => hdrop q, fun _ => rfl, fun hne => absurd htimeout hne⟩
    have hpool : (store st' s p key u conn).1.pools q = st'.pools q := update_of_ne hq ..
    rw [hpool]
    exact ⟨⟨rfl, rfl, rfl, rfl, rfl⟩, rfl⟩
  | @dubious st' key' u' conn' p h _ hspool htimeout hdubious =>
    cases hkeep.symm.trans h
    refine ⟨st', p, hspool, ⟨?_, fun q hq => ?_⟩, fun q => ?_, fun heq => absurd heq htimeout, fun _ _ => rfl⟩
    · rw [close_handler, (released _ p).rest]
      rfl
    · have hr := released ((kept st' s p key u conn).setPool p
        (((kept st' s p key u conn).pools p).uncache (st'.pools p).takeItem.2)) p
      have hpool : ((kept st' s p key u conn).setPool p
          (((kept st' s p key u conn).pools p).uncache (st'.pools p).takeItem.2)).pools q = st'.pools q := by
        rw [pools_setPool, if_neg hq, pools_kept, if_neg hq]
      have hitems := hr.pools q
      have hactive := hr.active q
      rw [hpool] at hitems hactive
      rw [if_neg hq, Int.sub_zero] at hactive
      exact ⟨hitems, hactive⟩
    · rw [close_handler, State.out, sockets_release]
      exact hdropped hspool q
  | @saved st' key' u' conn' p h _ hspool htimeout hdubious =>
    cases hkeep.symm.trans h
    have hup : (kept st' s p key u conn).up s = some { u with connection := none } := by
      rw [up_kept (lt_of_up ((hspool.up s).trans hs)), if_pos rfl]
    have hfinal : finalize (kept st' s p key u conn) s =
        (kept st' s p key u conn).setUp s ({ u with connection := none } : Upstream).finalized := by
      simp only [finalize, hup, takenFrom_none (show ({ u with connection := none } : Upstream).connection = none from rfl)]
    have hother := others_kept st' s p key u conn
    rw [hfinal]
    refine ⟨st', p, hspool, ⟨hother.crashed, hother.pools⟩, fun q => ?_, fun heq => absurd heq htimeout, fun _ h => ?_⟩
    · have hset := out_setUp (lt_of_up hup) ({ u with connection := none } : Upstream).finalized q
      rw [hup, bind_some, takenFrom_none (show ({ u with connection := none } : Upstream).connection = none from rfl),
        takenFrom_none (show ({ u with connection := none } : Upstream).finalized.connection = none from rfl)] at hset
      rw [Nat.add_right_cancel hset]
      exact hdropped hspool q
    · rw [hdubious] at h
      cases h

theorem Books.careful_of_keep (h : Inv st)
    (hright : Right (setkeepalive conf st s timeout size cs).1) : KeepCareful conf st s timeout size cs := by
  intro key u conn hkeep hpooled
  have hcases := setkeepalive_cases conf st s timeout size cs
  generalize (setkeepalive conf st s timeout size cs).1 = final at hcases hright
  obtain ⟨st', p, hspool, hothers, hout, hbad, hdubious⟩ := hcases.stored hkeep hpooled
  obtain ⟨hs, hc⟩ := keepable_ok hkeep
  have hsound : st'.crashed = false := hothers.crashed.symm.trans hright.sound
  have hown : u.reused ≠ 0 → ∃ q, u.socket_pool = some q ∧ (st.pools q).key = key := by
    intro hreused
    obtain ⟨-, -, hpool⟩ := h.taken s u conn hs hc
    obtain ⟨q, hq⟩ := hpool hreused
    refine ⟨q, hq, ?_⟩
    by_contra hkey
    -- the pool that counts the connection keeps its count
    have htaken := (takenFrom_reused hc hreused).trans hq
    have hreg := h.registered_of_taken hs htaken
    have hsame : q ≠ p ∧ st'.pools q = st.pools q := by
      cases hspool with
      | found hp => exact ⟨fun heq => hkey (heq ▸ (h.keys key p hp).1), rfl⟩
      | created =>
        have hne := Nat.ne_of_lt (h.keys _ q hreg).2.1
        exact ⟨hne, update_of_ne hne ..⟩
    obtain ⟨hitems, hactive⟩ := hothers.pools q hsame.1
    have hcount := hright.counted q
    have hold := h.counted q
    have hq := hout q
    rw [hactive, hitems.cache, hsame.2] at hcount
    rw [if_pos htaken] at hq
    simp only [reduceCtorEq, if_false] at hold
    omega
  have htimeout : timeout ≠ .bad := by
    -- the connection would be cached, and still wired to the socket object
    intro hbad'
    have hfinal := hbad hbad'
    have hdata : st'.data conn = .upstream s := by
      rw [show st'.data = st.data by cases hspool <;> rfl]
      exact (h.taken s u conn hs hc).1
    have hi : (st'.pools p).takeItem.2 ∈ (final.pools p).cache := by
      rw [hfinal]
      show _ ∈ (update st'.pools p _ p).cache
      rw [update_self]
      exact mem_cons_self
    have hconn : final.connection p (st'.pools p).takeItem.2 = conn := by
      have hpool : final.pools p = ((st'.pools p).store u conn).1 := by
        rw [hfinal]
        exact update_self ..
      rw [State.connection, hpool, connection_store]
    refine hright.wired p _ hi s ?_
    rw [hconn, hfinal]
    exact hdata
  refine ⟨fun hnone n hsize => ?_, htimeout, hown, fun hd halone => ?_⟩
  · cases hspool with
    | found hp => cases hnone.symm.trans hp
    | created _ hsize' =>
      cases hsize.symm.trans hsize'
      rw [h.sound, Bool.false_or] at hsound
      exact Nat.not_le.mp (of_decide_eq_false hsound)
  · obtain ⟨hinv, hi, hkey, hlast⟩ := h.kept_inv hkeep hspool hsound hown
    have hreg := hright.registered p
    rw [hdubious htimeout hd] at hreg
    have hspare := (hinv.uncache hi).spare hreg
    rw [pools_setPool, if_pos rfl] at hspare
    rw [← hkey]
    exact hspare (hlast.mpr halone)

/-! ## Runs -/

/-- A call of `close` comes to closing the connection. -/
def Closes (st : State) (s request : Nat) : Prop :=
  ∃ u, st.up s = some u ∧ u.connection ≠ none ∧ ¬(u.read_closed ∧ u.write_closed) ∧ u.request = request ∧ u.busy = none

/-- A connection that leaves its pool, or is closed after it was taken from it, is not
the last one that a pool counts whose key has a NUL; `setkeepalive` is called with
care; and the Lua VM is not closed while a connection taken from a pool is in use. -/
def Careful (conf : Conf) (st : State) : Event → Prop
  | .connect s args _ => (connectChecks st s args).2 = none → Spared st s
  | .setkeepalive s timeout size c => KeepCareful conf st s timeout size c
  | .close s request => Closes st s request → Spared st s
  | .cleanup s => Spared st s
  | .idle p _ => (st.pools p).active_connections = 1 → 0 ∉ (st.pools p).key.bytes
  | .lua_close => ∀ s u, st.up s = some u → u.takenFrom = none
  | .tcp | .resume .. | .io .. | .gc _ => True

theorem close_eq (st : State) (s request : Nat) :
    (Closes st s request ∧ (close st s request).1 = finalize st s) ∨
      (¬ Closes st s request ∧ (close st s request).1 = st) := by
  rw [close]
  cases hs : st.up s with
  | none => exact .inr ⟨fun ⟨u, hu, _⟩ => (some_ne_none u) (hu.symm.trans hs), rfl⟩
  | some u =>
    have hcloses : Closes st s request ↔
        u.connection ≠ none ∧ ¬(u.read_closed ∧ u.write_closed) ∧ u.request = request ∧ u.busy = none :=
      ⟨fun ⟨v, hv, h⟩ => (some.inj (hs.symm.trans hv)) ▸ h, fun h => ⟨u, hs, h⟩⟩
    simp only [hcloses]
    by_cases hclosed : u.connection = none ∨ (u.read_closed ∧ u.write_closed)
    · rw [if_pos hclosed]
      exact .inr ⟨fun h => hclosed.elim h.1 h.2.1, rfl⟩
    · rw [if_neg hclosed]
      rw [not_or] at hclosed
      by_cases hreq : u.request = request
      · rw [if_neg (not_not.mpr hreq)]
        cases hbusy : u.busy with
        | some ret => exact .inr ⟨fun h => (some_ne_none ret) h.2.2.2, rfl⟩
        | none => exact .inl ⟨⟨hclosed.1, hclosed.2, hreq, rfl⟩, rfl⟩
      · rw [if_pos hreq]
        exact .inr ⟨fun h => hreq h.2.2.1, rfl⟩

/-- The pool of a connection that is closed pays for it, or nothing is owed. -/
theorem Books.spared (h : Inv st)
    (hreg : ∀ p, (finalize st s).registry.lookup ((finalize st s).pools p).key = some p ↔
      ((finalize st s).pools p).active_connections ≠ 0) : Spared st s := by
  intro u p hs htaken
  have hset := h.setUp u.finalized (lt_of_up hs) nofun fun hw => ⟨rfl, (h.waiting s u hs hw).2⟩
  rw [if_pos (show u.finalized.connection = none from rfl), hs, bind_some, htaken] at hset
  have hfinal : finalize st s = release (st.setUp s u.finalized) p := by simp only [finalize, hs, htaken]
  have := hreg p
  rw [hfinal] at this
  exact hset.spare this

/-- Every connection that is checked out is in no pool's count. -/
theorem out_eq_zero : (∀ p, st.out p = 0) ↔ ∀ s u, st.up s = some u → ∀ p, u.takenFrom ≠ some p := by
  constructor
  · intro h s u hs p htaken
    have hlt := lt_of_up hs
    have hzero := countP_eq_zero.mp (h p) st.sockets[s] (getElem_mem _)
    have hup : st.sockets[s]?.bind Socket.upstream = some u := hs
    rw [getElem?_eq_getElem hlt, bind_some] at hup
    rw [hup, bind_some, htaken, beq_self_eq_true] at hzero
    exact hzero rfl
  · intro h p
    refine countP_eq_zero.mpr fun sock hmem htaken => ?_
    obtain ⟨s, hs, rfl⟩ := getElem_of_mem hmem
    cases hup : st.sockets[s].upstream with
    | none =>
      rw [hup] at htaken
      exact absurd (eq_of_beq htaken) nofun
    | some u =>
      rw [hup, bind_some] at htaken
      exact h s u (by rw [State.up, getElem?_eq_getElem hs, bind_some, hup]) p (eq_of_beq htaken)

/-- The same pools are registered, and count the same. -/
structure SameCounts (st st' : State) : Prop where
  registry : st'.registry = st.registry
  key : ∀ p, (st'.pools p).key = (st.pools p).key
  active : ∀ p, (st'.pools p).active_connections = (st.pools p).active_connections

theorem SameCounts.trans {st₁ st₂ st₃ : State} (h : SameCounts st₁ st₂) (h' : SameCounts st₂ st₃) : SameCounts st₁ st₃ :=
  ⟨h'.registry.trans h.registry, fun p => (h'.key p).trans (h.key p), fun p => (h'.active p).trans (h.active p)⟩

theorem sameCounts_setUp (st : State) (s : Nat) (u : Upstream) : SameCounts st (st.setUp s u) :=
  ⟨rfl, fun _ => rfl, fun _ => rfl⟩

theorem sameCounts_peer (st : State) (s : Nat) (key : Key) (u : Upstream) :
    SameCounts st (get_keepalive_peer st s key u).1 := by
  rw [get_keepalive_peer]
  cases hp : st.registry.lookup key with
  | none => exact ⟨rfl, fun _ => rfl, fun _ => rfl⟩
  | some p =>
    cases hcache : (st.pools p).cache with
    | nil =>
      simp only [hcache]
      exact sameCounts_setUp st s _
    | cons i cache =>
      simp only [hcache]
      have hpool := fun q => pools_setPool st p q { st.pools p with cache, free := i :: (st.pools p).free }
      refine ⟨rfl, fun q => ?_, fun q => ?_⟩
      · show ((st.setPool p { st.pools p with cache, free := i :: (st.pools p).free }).pools q).key = _
        rw [hpool]
        split
        · next hq => rw [hq]
        · rfl
      · show ((st.setPool p { st.pools p with cache, free := i :: (st.pools p).free }).pools q).active_connections = _
        rw [hpool]
        split
        · next hq => rw [hq]
        · rfl

theorem sameCounts_open (st : State) (s : Nat) : SameCounts st (open_connection st s) := by
  rw [open_connection]
  cases st.up s <;> exact ⟨rfl, fun _ => rfl, fun _ => rfl⟩

theorem sameCounts_connect {args : ConnectArgs} (net : Net) (h : (connectChecks st s args).2 = none) :
    SameCounts (finalize (connectChecks st s args).1 s) (connect st s args net).1 := by
  rw [connect]
  generalize connectChecks st s args = checked at h
  obtain ⟨st₁, ret⟩ := checked
  cases h
  simp only
  have hpeer := (sameCounts_setUp (finalize st₁ s) s (.zero args.request)).trans
    (sameCounts_peer ((finalize st₁ s).setUp s (.zero args.request)) s args.key (.zero args.request))
  generalize get_keepalive_peer ((finalize st₁ s).setUp s (.zero args.request)) s args.key
    (.zero args.request) = peer at hpeer
  obtain ⟨st₂, found⟩ := peer
  cases found with
  | true => exact hpeer
  | false =>
    cases net with
    | established => exact hpeer.trans (sameCounts_open st₂ s)
    | waiting =>
      simp only
      cases st₂.up s with
      | none => exact hpeer
      | some v => exact hpeer.trans (sameCounts_setUp st₂ s _)
    | failed => exact hpeer

theorem Books.adjust (h : Inv st) (hs : st.up s = some u) (hc : u'.connection = u.connection) (hr : u'.reused = u.reused)
    (hp : u'.socket_pool = u.socket_pool) (hw : u'.conn_waiting = true → u.conn_waiting = true) : Inv (st.setUp s u') := by
  have hset := h.setUp u' (lt_of_up hs) (fun c hc' => ⟨u, hs, hc ▸ hc', hr, hp⟩) fun hwait => by
    rw [hc, hr]
    exact h.waiting s u hs (hw hwait)
  split at hset
  · next hnone =>
    rw [hs, bind_some, takenFrom_none (hc ▸ hnone)] at hset
    exact hset
  · exact hset

theorem Books.tcp (h : Inv st) : Inv { st with sockets := st.sockets ++ [{ key := none, upstream := none }] } := by
  have hup : ∀ s u, ({ st with sockets := st.sockets ++ [{ key := none, upstream := none }] } : State).up s = some u →
      st.up s = some u := by
    intro s u hs
    rw [State.up, getElem?_append] at hs
    split at hs
    · exact hs
    · cases hlast : ([{ key := none, upstream := none }] : List Socket)[s - st.sockets.length]? with
      | none =>
        rw [hlast] at hs
        cases hs
      | some sock =>
        rw [hlast] at hs
        cases mem_singleton.mp (mem_of_getElem? hlast)
        cases hs
  have hout : ∀ p, ({ st with sockets := st.sockets ++ [{ key := none, upstream := none }] } : State).out p = st.out p := by
    intro p
    rw [State.out, countP_append]
    rfl
  exact { h with
    taken := fun s u c hs hc => h.taken s u c (hup s u hs) hc
    waiting := fun s u hs hw => h.waiting s u (hup s u hs) hw
    counted := fun p => by
      rw [hout]
      exact h.counted p }

theorem Books.gc (h : Inv st) (hp : ¬∃ e ∈ st.registry, e.2 = p) : st.setPool p (st.pools p).shutdown = st := by
  have hzero : (st.pools p).active_connections = 0 := by
    by_contra hne
    exact hp ⟨_, mem_of_lookup ((h.registered p).mpr (.inl hne)), rfl⟩
  have hcount := h.counted p
  simp only [reduceCtorEq, if_false] at hcount
  have hnil : (st.pools p).cache = [] := eq_nil_of_length_eq_zero (by omega)
  have hempty : ∀ pool : Pool, pool.active_connections = 0 → pool.cache = [] → pool.shutdown = pool := by
    rintro ⟨key, pool_size, active_connections, cache, free, items⟩ hactive hcache
    cases hactive
    cases hcache
    rfl
  rw [hempty _ hzero hnil, State.setPool, update_eq_self]

theorem Books.lua_close (h : Inv st) (hfree : ∀ s u, st.up s = some u → u.takenFrom = none) :
    Inv { st with pools := fun p => (st.pools p).shutdown, registry := [], closing := true } := by
  have hout := out_eq_zero.mpr fun s u hs p htaken => some_ne_none p (htaken.symm.trans (hfree s u hs))
  exact { h with
    partition := fun p => by
      refine (List.Perm.append_right _ (reverse_perm _)).trans (h.partition p)
    cached := fun p i hi => nomatch hi
    counted := fun p => by
      show (0 : Int) = ((0 : Nat) : Int) + (st.out p : Int) + _
      rw [hout p]
      rfl
    registered := fun p => ⟨nofun, fun hp => hp.elim (fun hne => absurd rfl hne) nofun⟩
    keys := fun k p hp => nomatch hp
    unborn := fun p hp => by
      show (st.pools p).shutdown = noPool
      rw [h.unborn p hp]
      rfl }

theorem inv_step (st : State) (e : Event) (st' : State) (h : Inv st) (hstep : step conf st e = some st')
    (hcareful : Careful conf st e) : Inv st' := by
  rw [step, h.sound, if_neg Bool.false_ne_true] at hstep
  cases e with
  | tcp =>
    simp only [happen] at hstep
    split at hstep
    · cases hstep
    · cases hstep
      exact h.tcp
  | connect s args net =>
    simp only [happen] at hstep
    split at hstep
    · cases hstep
    · next hs =>
      cases hstep
      rw [not_or, Nat.not_le] at hs
      exact h.connected hs.2 args net hcareful
  | resume s established =>
    simp only [happen] at hstep
    cases hs : st.up s with
    | none =>
      rw [hs] at hstep
      cases hstep
    | some u =>
      simp only [hs] at hstep
      split at hstep
      · cases hstep
      · next hcan =>
        have hwaiting : u.conn_waiting = true := by
          rw [not_or, not_or] at hcan
          simpa using hcan.2.1
        split at hstep
        · cases hstep
          refine h.established fun v hv => ?_
          cases hs.symm.trans hv
          exact h.waiting s u hs hwaiting
        · cases hstep
          exact h.adjust hs rfl rfl rfl nofun
  | io s read_waiting write_waiting read_closed write_closed =>
    simp only [happen, map_eq_some_iff] at hstep
    obtain ⟨u, hs, rfl⟩ := hstep
    exact h.adjust hs rfl rfl rfl id
  | setkeepalive s timeout size cs =>
    simp only [happen] at hstep
    split at hstep
    · cases hstep
    · cases hstep
      exact h.keep_step hcareful
  | close s request =>
    simp only [happen] at hstep
    split at hstep
    · cases hstep
    · cases hstep
      rcases close_eq st s request with ⟨hcloses, heq⟩ | ⟨-, heq⟩
      · rw [heq]
        exact h.finalized (hcareful hcloses)
      · rw [heq]
        exact h
  | cleanup s =>
    cases hstep
    exact h.finalized hcareful
  | idle p i =>
    simp only [happen] at hstep
    split at hstep
    · next hi =>
      cases hstep
      exact h.closed hi.1 hcareful
    · cases hstep
  | gc p =>
    simp only [happen] at hstep
    split at hstep
    · cases hstep
    · next hp =>
      cases hstep
      rw [h.gc hp]
      exact h
  | lua_close =>
    simp only [happen] at hstep
    split at hstep
    · cases hstep
    · cases hstep
      exact h.lua_close hcareful

theorem careful_of_right (st : State) (e : Event) (st' : State) (h : Inv st) (hstep : step conf st e = some st')
    (hright : Right st') : Careful conf st e := by
  rw [step, h.sound, if_neg Bool.false_ne_true] at hstep
  cases e with
  | tcp => trivial
  | resume s established => trivial
  | io => trivial
  | gc p => trivial
  | connect s args net =>
    intro hchecks
    simp only [happen] at hstep
    split at hstep
    · cases hstep
    · next hs =>
      cases hstep
      rw [not_or, Nat.not_le] at hs
      obtain ⟨hinv, -, hpools, hup, -⟩ := h.checked hs.2 args
      have hsame := sameCounts_connect net hchecks
      have hspared : Spared (connectChecks st s args).1 s := hinv.spared fun p => by
        have hreg := hright.registered p
        rwa [hsame.registry, hsame.key, hsame.active] at hreg
      rwa [Spared, hup, hpools] at hspared
  | setkeepalive s timeout size cs =>
    simp only [happen] at hstep
    split at hstep
    · cases hstep
    · cases hstep
      exact h.careful_of_keep hright
  | close s request =>
    intro hcloses
    simp only [happen] at hstep
    split at hstep
    · cases hstep
    · cases hstep
      rcases close_eq st s request with ⟨-, heq⟩ | ⟨hnot, -⟩
      · rw [heq] at hright
        exact h.spared hright.registered
      · exact absurd hcloses hnot
  | cleanup s =>
    cases hstep
    exact h.spared hright.registered
  | idle p i =>
    simp only [happen] at hstep
    split at hstep
    · next hi =>
      cases hstep
      have hspare := (h.uncache hi.1).spare (hright.registered p)
      rwa [pools_setPool, if_pos rfl] at hspare
    · cases hstep
  | lua_close =>
    simp only [happen] at hstep
    split at hstep
    · cases hstep
    · cases hstep
      intro s u hs
      have hout : ∀ p, st.out p = 0 := fun p => by
        have hcount : (0 : Int) = ((0 : Nat) : Int) + (st.out p : Int) := hright.counted p
        omega
      exact eq_none_iff_forall_ne_some.mpr (out_eq_zero.mp hout s u hs)

/-- **The pools are as they should be in every state of a run if and only if each of
its steps is taken with care**: no call of `setkeepalive` that stores a connection has
a timeout that is no number, or a size whose bytes wrap around, or a key other than
that of the pool its connection was taken from; no pool whose key has a NUL counts
down to nothing; and the Lua VM is not closed while connections taken from pools are
in use. -/
theorem pools_right_iff_careful (conf : Conf) (es : List Event) :
    Always (step conf) Right init es ↔ Along (step conf) (Careful conf) init es :=
  always_iff_along (I := Inv) (fun _ => Books.right) inv_step careful_of_right inv_init

/-- `setkeepalive` with a timeout that is no number raises an error, and leaves the
connection in the pool with its events going to the socket object. -/
theorem pools_not_right_timeout : ¬∀ (conf : Conf) (es : List Event), Always (step conf) Right init es := by
  intro h
  let args : ConnectArgs := { request := 0, host := [97], port := none, pool := .absent }
  let cs : Conditions := { request := 0, unread := false, invalid := false, handled := true, memory := true, dubious := false }
  have hruns := h { pool_size := 1 } [.tcp, .connect 0 args .established, .setkeepalive 0 .bad .absent cs]
  have hright : Right _ := ((hruns.2 _ rfl).2 _ rfl).2 _ rfl
  exact hright.wired 0 0 (by decide) 0 (by decide)

end OpenResty.NgxLua.KeepalivePool
