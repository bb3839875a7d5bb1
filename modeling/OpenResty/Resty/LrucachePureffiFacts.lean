/-
The arrays hold what the tables of `resty.lrucache` hold, node for node, so
both caches give the same answers.
-/
import Mathlib.Data.List.Perm.Subperm
import OpenResty.Resty.LrucachePureffi

namespace OpenResty.Resty

open Lib Links List Function Option Nat

namespace Pureffi

variable {K V : Type} [DecidableEq K]
variable {c : Pureffi K V} {addr addr' : K → Nat} {N : Nat → Option K} {H H' : K → Option V} {key : K} {i : Nat}

/-! ## The arrays -/

/-- What the buckets hold, by the keys and hashes. -/
def Lists (c : Pureffi K V) (addr : K → Nat) (N : Nat → Option K) (lists : Nat → List Nat) : Prop :=
  c.buckets.Holds lists ∧ ∀ b i, i ∈ lists b ↔ ∃ key, N (c.node_v + i) = some key ∧ c.hash_string addr key = b

/-- The arrays hold the key `N x` with its value in `H` for the node at `x`, and
the bucket of each key has its node. -/
structure Stores (c : Pureffi K V) (addr : K → Nat) (N : Nat → Option K) (H : K → Option V) : Prop where
  keys : ∀ i, c.key_v i = N (c.node_v + i)
  vals : ∀ i, c.val_v i = (N (c.node_v + i)).bind H
  inRange : ∀ i key, N (c.node_v + i) = some key → 0 < i ∧ i ≤ c.size
  unique : ∀ i j key, N (c.node_v + i) = some key → N (c.node_v + j) = some key → i = j
  buckets : ∃ lists, Lists c addr N lists

/-- A field of the node with the ID `i` is one of the nodes by ID. -/
theorem update_shift {α : Type} (f : Nat → α) (a i : Nat) (v : α) (j : Nat) :
    update f (a + i) v (a + j) = update (fun j => f (a + j)) i v j := by
  simp only [update_apply, Nat.add_left_cancel_iff]

namespace Stores

variable {lists : Nat → List Nat}

omit [DecidableEq K] in
/-- A bucket is no longer than the search. -/
theorem length_lt (h : Stores c addr N H) (hlists : Lists c addr N lists) (b : Nat) :
    (lists b).length < c.size + 1 := by
  have hsub : lists b ⊆ List.range' 1 c.size := fun i hi => by
    obtain ⟨key, hkey, -⟩ := (hlists.2 b i).mp hi
    have := h.inRange i key hkey
    rw [mem_range'_1]
    omega
  have := (subperm_of_subset (hlists.1.nodup b) hsub).length_le
  rw [length_range'] at this
  omega

/-- A key without a node is in no bucket. -/
theorem find_none (h : Stores c addr N H) (hkey : ∀ i, N (c.node_v + i) ≠ some key) :
    c.find_key addr key = .ok none := by
  obtain ⟨lists, hlists⟩ := h.buckets
  have hno : ∀ i ∈ lists (c.hash_string addr key), decide (c.key_v i = some key) = false := fun i _ => by
    rw [h.keys i]
    exact decide_eq_false (hkey i)
  obtain ⟨prev, hsearch⟩ : ∃ prev, Buckets.search c.buckets.next _ (c.size + 1) _ 0 = some (0, prev) :=
    Buckets.search_absent (hlists.1.path _) hno (h.length_lt hlists _)
  unfold find_key find_node_in_bucket
  rw [show c.bucket_v (c.hash_string addr key) = c.buckets.head (c.hash_string addr key) from rfl, hsearch]
  rfl

/-- A key is found in its bucket, behind others. -/
theorem find_some (h : Stores c addr N H) (hkey : N (c.node_v + i) = some key) (hlists : Lists c addr N lists) :
    ∃ as bs, lists (c.hash_string addr key) = as ++ i :: bs ∧
      c.find_node_in_bucket key (c.bucket_v (c.hash_string addr key)) = .ok (some (i, as.getLast?.getD 0)) := by
  obtain ⟨as, bs, hsplit⟩ := append_of_mem ((hlists.2 (c.hash_string addr key) i).mpr ⟨key, hkey, rfl⟩)
  have hpath := hlists.1.path (c.hash_string addr key)
  have hnodup := hlists.1.nodup (c.hash_string addr key)
  have hlength := h.length_lt hlists (c.hash_string addr key)
  rw [hsplit] at hpath hnodup hlength
  have hothers : ∀ j ∈ as, decide (c.key_v j = some key) = false := fun j hj => by
    rw [h.keys j]
    refine decide_eq_false fun hj' => ?_
    rw [h.unique j i key hj' hkey] at hj
    exact (nodup_append.mp hnodup).2.2 i hj i mem_cons_self rfl
  have hthis : decide (c.key_v i = some key) = true := by
    rw [h.keys i]
    exact decide_eq_true hkey
  refine ⟨as, bs, hsplit, ?_⟩
  have hsearch : Buckets.search c.buckets.next _ (c.size + 1) _ 0 = some (i, as.getLast?.getD 0) :=
    Buckets.search_found hpath hothers hthis (by rw [length_append] at hlength; omega)
  unfold find_node_in_bucket
  rw [show c.bucket_v (c.hash_string addr key) = c.buckets.head (c.hash_string addr key) from rfl, hsearch]
  simp only [if_neg (Nat.ne_of_gt (h.inRange i key hkey).1)]

omit [DecidableEq K] in
/-- Where `conflict` and `bucket_v` are those of a bucket that the node has left. -/
theorem erase (h : Stores c addr N H) (hkey : N (c.node_v + i) = some key) (hlists : Lists c addr N lists)
    {as bs : List Nat}
    (hsplit : lists (c.hash_string addr key) = as ++ i :: bs) {conflict bucket_v : Nat → Nat}
    (hunlink : ({ head := bucket_v, next := fun j => conflict (c.node_v + j) } : Buckets) =
      c.buckets.unlink (c.hash_string addr key) i (as.getLast?.getD 0)) :
    Stores { c with key_v := update c.key_v i none, val_v := update c.val_v i none, conflict, bucket_v }
      addr (update N (c.node_v + i) none) H := by
  have hN : ∀ j key', update N (c.node_v + i) none (c.node_v + j) = some key' ↔ j ≠ i ∧
    N (c.node_v + j) = some key' :=
    fun j key' => by
      rw [update_shift]
      by_cases hj : j = i
      · simp [hj]
      · simp [hj]
  refine ⟨fun j => ?_, fun j => ?_, fun j key' hj => h.inRange j key' ((hN j key').mp hj).2,
    fun j j' key' hj hj' => h.unique j j' key' ((hN j key').mp hj).2 ((hN j' key').mp hj').2, ?_⟩
  · change update c.key_v i none j = update N (c.node_v + i) none (c.node_v + j)
    rw [update_shift, update_apply, update_apply, h.keys j]
  · change update c.val_v i none j = (update N (c.node_v + i) none (c.node_v + j)).bind H
    rw [update_shift, update_apply, update_apply, h.vals j]
    split
    · rfl
    · rfl
  · refine ⟨update lists (c.hash_string addr key) (as ++ bs), ?_, fun b j => ?_⟩
    · have hholds := hlists.1.unlink hsplit
      rwa [← hunlink] at hholds
    · have hnodup := hlists.1.nodup (c.hash_string addr key)
      rw [hsplit, nodup_middle, nodup_cons] at hnodup
      have hmem : j ∈ update lists (c.hash_string addr key) (as ++ bs) b ↔ j ≠ i ∧ j ∈ lists b := by
        by_cases hb : b = c.hash_string addr key
        · subst hb
          rw [update_self, hsplit]
          have hne : j ∈ as ++ bs → j ≠ i := fun hj heq => hnodup.1 (heq ▸ hj)
          simp only [mem_append, mem_cons] at hne ⊢
          grind
        · rw [update_of_ne hb]
          refine ⟨fun hj => ⟨fun heq => hb ?_, hj⟩, And.right⟩
          subst heq
          exact hlists.1.apart b _ j hj (by rw [hsplit]; simp)
      rw [hmem, hlists.2 b j]
      constructor
      · rintro ⟨hj, key', hkey', hb⟩
        exact ⟨key', (hN j key').mpr ⟨hj, hkey'⟩, hb⟩
      · rintro ⟨key', hkey', hb⟩
        exact ⟨((hN j key').mp hkey').1, key', ((hN j key').mp hkey').2, hb⟩

/-- The node of a key that is removed leaves its bucket. -/
theorem remove (h : Stores c addr N H) (hkey : N (c.node_v + i) = some key) :
    ∃ conflict bucket_v, c.remove_key addr key = .ok (some i,
        { c with
          key_v := update c.key_v i none, val_v := update c.val_v i none, conflict, bucket_v }) ∧
      Stores { c with key_v := update c.key_v i none, val_v := update c.val_v i none, conflict, bucket_v }
        addr (update N (c.node_v + i) none) H := by
  obtain ⟨lists, hlists⟩ := h.buckets
  obtain ⟨as, bs, hsplit, hfind⟩ := h.find_some hkey hlists
  unfold remove_key
  simp only [hfind]
  by_cases hprev : as.getLast?.getD 0 = 0
  · refine ⟨_, _, by rw [if_neg fun hne => hne hprev], h.erase hkey hlists hsplit ?_⟩
    rw [Buckets.unlink, if_neg fun hne => hne hprev]
    exact congrArg _ (funext fun j => update_shift ..)
  · refine ⟨_, _, by rw [if_pos hprev], h.erase hkey hlists hsplit ?_⟩
    rw [Buckets.unlink, if_pos hprev]
    refine congrArg _ (funext fun j => ?_)
    rw [update_shift]
    exact congrArg (update · i 0 j) (funext fun j => update_shift ..)

/-- A key that is new gets a node that is in no bucket. -/
theorem insert (h : Stores c addr N H) (hnode : N (c.node_v + i) = none) (hi : 0 < i ∧ i ≤ c.size)
    (hid : c.id (c.node_v + i) = i) (hkey : ∀ j, N (c.node_v + j) ≠ some key) (value : V) :
    Stores (c.insert_key addr key value (c.node_v + i)) addr (update N (c.node_v + i) (some key))
      (update H key (some value)) := by
  obtain ⟨lists, hholds, hlists⟩ := h.buckets
  have hN : ∀ j key', update N (c.node_v + i) (some key) (c.node_v + j) = some key' ↔
      j = i ∧ key' = key ∨ j ≠ i ∧ N (c.node_v + j) = some key' := fun j key' => by
    rw [update_shift]
    by_cases hj : j = i
    · simp [hj, eq_comm]
    · simp [hj]
  have hfresh : ∀ b, i ∉ lists b := fun b hmem => by
    obtain ⟨key', hkey', -⟩ := (hlists b i).mp hmem
    rw [hnode] at hkey'
    cases hkey'
  unfold insert_key
  rw [hid]
  refine ⟨fun j => ?_, fun j => ?_, fun j key' hj => ?_, fun j j' key' hj hj' => ?_, ?_⟩
  · change update c.key_v i (some key) j = update N (c.node_v + i) (some key) (c.node_v + j)
    rw [update_shift, update_apply, update_apply, h.keys j]
  · change update c.val_v i (some value) j =
      (update N (c.node_v + i) (some key) (c.node_v + j)).bind (update H key (some value))
    rw [update_shift]
    by_cases hj : j = i
    · subst hj
      simp
    · rw [update_of_ne hj, update_of_ne hj, h.vals j]
      refine Option.bind_congr fun key' hkey' => (update_of_ne (fun heq => hkey j ?_) ..).symm
      rw [← heq]
      exact hkey'
  · rcases (hN j key').mp hj with ⟨rfl, -⟩ | ⟨-, hold⟩
    · exact hi
    · exact h.inRange j key' hold
  · rcases (hN j key').mp hj with ⟨rfl, rfl⟩ | ⟨-, hold⟩ <;> rcases (hN j' key').mp hj' with ⟨rfl, hk⟩ | ⟨-, hold'⟩
    · rfl
    · exact absurd hold' (hkey j')
    · rw [hk] at hold
      exact absurd hold (hkey j)
    · exact h.unique j j' key' hold hold'
  · have hpush := hholds.push (Nat.ne_of_gt hi.1) hfresh (c.hash_string addr key)
    have hnext : (fun j =>
        update c.conflict (c.node_v + i) (c.bucket_v (c.hash_string addr key)) (c.node_v + j)) =
        update c.buckets.next i (c.buckets.head (c.hash_string addr key)) := funext fun j => update_shift ..
    refine ⟨update lists (c.hash_string addr key) (i :: lists (c.hash_string addr key)), ?_, fun b j => ?_⟩
    · unfold Buckets.push at hpush
      rw [← hnext] at hpush
      exact hpush
    · have hmem : j ∈ update lists (c.hash_string addr key) (i :: lists (c.hash_string addr key)) b ↔
          j = i ∧ c.hash_string addr key = b ∨ j ∈ lists b := by
        by_cases hb : b = c.hash_string addr key
        · subst hb
          simp
        · rw [update_of_ne hb]
          simp [Ne.symm hb]
      rw [hmem, hlists b j]
      constructor
      · rintro (⟨rfl, hb⟩ | ⟨key', hkey', hb⟩)
        · exact ⟨key, (hN j key).mpr (.inl ⟨rfl, rfl⟩), hb⟩
        · refine ⟨key', (hN j key').mpr (.inr ⟨fun heq => ?_, hkey'⟩), hb⟩
          rw [heq, hnode] at hkey'
          cases hkey'
      · rintro ⟨key', hkey', hb⟩
        rcases (hN j key').mp hkey' with ⟨rfl, rfl⟩ | ⟨-, hold⟩
        · exact .inl ⟨rfl, hb⟩
        · exact .inr ⟨key', hold, hb⟩

omit [DecidableEq K] in
theorem pinned (h : Stores c addr N H) (hpinned : ∀ i key, c.key_v i = some key → addr' key = addr key) :
    Stores c addr' N H := by
  obtain ⟨lists, hholds, hlists⟩ := h.buckets
  have hhash : ∀ i key, N (c.node_v + i) = some key → c.hash_string addr' key = c.hash_string addr key :=
    fun i key hkey => by
    unfold hash_string
    rw [hpinned i key ((h.keys i).trans hkey)]
  refine ⟨h.keys, h.vals, h.inRange, h.unique, lists, hholds, fun b i => ?_⟩
  rw [hlists b i]
  refine exists_congr fun key => and_congr_right fun hkey => ?_
  rw [hhash i key hkey]

omit [DecidableEq K] in
theorem congr (h : Stores c addr N H) (hsame : ∀ i key, N (c.node_v + i) = some key → H' key = H key) :
    Stores c addr N H' := by
  refine ⟨h.keys, fun i => ?_, h.inRange, h.unique, h.buckets⟩
  rw [h.vals i]
  exact Option.bind_congr fun key hkey => (hsame i key hkey).symm

omit [DecidableEq K] in
theorem moved (h : Stores c addr N H) {links : Links} {expire : Nat → Rat} :
    Stores { c with links, expire } addr N H :=
  ⟨h.keys, h.vals, h.inRange, h.unique, h.buckets⟩

/-- A key gets a new value. -/
theorem assign (h : Stores c addr N H) (hkey : N (c.node_v + i) = some key) (value : V) :
    Stores { c with val_v := update c.val_v i (some value) } addr N
      (update H key (some value)) := by
  refine ⟨h.keys, fun j => ?_, h.inRange, h.unique, h.buckets⟩
  change update c.val_v i (some value) j = (N (c.node_v + j)).bind (update H key (some value))
  by_cases hj : j = i
  · subst hj
    rw [hkey, update_self, bind_some, update_self]
  · rw [update_of_ne hj, h.vals j]
    refine Option.bind_congr fun key' hkey' => (update_of_ne (fun heq => hj ?_) ..).symm
    exact h.unique j i key (by rw [← heq]; exact hkey') hkey

end Stores

end Pureffi

/-! ## Both caches -/

section

variable {K V : Type} [DecidableEq K]
variable {c c' : Lrucache K V} {p : Pureffi K V} {addr addr' : K → Nat} {size t : Nat} {frees : List Nat}
  {items : List (Item K V)} {key : K} {x : Nat} {now : Rat}

namespace Rep

theorem inverse (h : Rep size t c frees items) (key : K) (x : Nat) :
    c.key2node key = some x ↔ c.node2key x = some key :=
  h.wellFormed.inverse key x

theorem id_of_mem (h : Rep size t c frees items) (hx : x ∈ frees ++ items.map Item.node) :
    ∃ i, x = c.free_queue + i ∧ 0 < i ∧ i ≤ size := by
  have := h.mem_range hx
  refine ⟨x - 1, ?_⟩
  rw [h.heads.1]
  omega

/-- A node with a key is one of the array. -/
theorem id_of_key (h : Rep size t c frees items) (hx : c.node2key x = some key) :
    ∃ i, x = c.free_queue + i ∧ 0 < i ∧ i ≤ size := by
  rw [h.tables.node2key] at hx
  obtain ⟨i, hi, -⟩ := map_eq_some_iff.mp hx
  obtain ⟨rfl, as, bs, rfl⟩ := find_split hi
  exact h.id_of_mem (by simp)

theorem hasht_none (h : Rep size t c frees items) (hkey : c.key2node key = none) : c.hasht key = none := by
  simp only [h.tables.key2node, map_eq_none_iff] at hkey
  simp only [h.tables.hasht, hkey, bind_none]

theorem absent (h : Rep size t c frees items) (hkey : c.key2node key = none) (x : Nat) :
    c.node2key x ≠ some key := fun hx => by
  rw [(h.inverse key x).mpr hx] at hkey
  cases hkey

/-- The first free node has no key. -/
theorem head_free (h : Rep size t c frees items) (hfree : Queue.isEmpty c.links c.free_queue = false) :
    (∃ i, Queue.head c.links c.free_queue = c.free_queue + i ∧ 0 < i ∧ i ≤ size) ∧
      c.node2key (Queue.head c.links c.free_queue) = none := by
  cases frees with
  | nil =>
    rw [Bool.eq_false_iff, Ne, h.isEmpty_iff] at hfree
    exact absurd rfl hfree
  | cons x frees =>
    rw [show Queue.head c.links c.free_queue = x from h.free.head]
    refine ⟨h.id_of_mem (by simp), ?_⟩
    rw [h.tables.node2key]
    have hx : x ∉ items.map Item.node := fun hmem => (nodup_append.mp h.nodup).2.2 x (by simp) x hmem rfl
    exact map_eq_none_iff.mpr (find_none.mpr hx)

/-- With no free node the last one has a key. -/
theorem last_cached (h : Rep size t c frees items) (hsize : 0 < size)
    (hfree : Queue.isEmpty c.links c.free_queue = true) :
    ∃ oldkey, c.node2key (Queue.last c.links c.cache_queue) = some oldkey := by
  have hlength := h.length
  rw [h.isEmpty_iff.mp hfree] at hlength
  rcases eq_nil_or_concat' items with rfl | ⟨as, i, rfl⟩
  · simp at hlength
    omega
  · have hcached := h.cached
    simp only [map_append, map_cons, map_nil] at hcached
    refine ⟨i.key, ?_⟩
    have hfound : find Item.node i.node (as ++ [i]) = some i := (find_iff h.nodes_nodup).mpr ⟨by simp, rfl⟩
    rw [show Queue.last c.links c.cache_queue = i.node from hcached.last]
    simp only [h.tables.node2key, hfound, map_some]

end Rep

/-- The arrays of one are as the tables of the other, with the same queues. -/
structure Sim (addr : K → Nat) (size : Nat) (p : Pureffi K V) (c : Lrucache K V) : Prop where
  links : p.links = c.links
  expire : p.expire = c.expire
  free : p.free_queue = c.free_queue
  cache : p.cache_queue = c.cache_queue
  node : p.node_v = c.free_queue
  slots : p.size = size
  id : ∀ i ≤ size, p.id (c.free_queue + i) = i
  stores : p.Stores addr c.node2key c.hasht
  /-- values are not nil -/
  full : ∀ key x, c.key2node key = some x → (c.hasht key).isSome

namespace Sim

/-- The ID of the node of a key -/
theorem present (h : Sim addr size p c) (hrep : Rep size t c frees items) (hkey : c.key2node key = some x) :
    ∃ i prev, x = p.node_v + i ∧ c.node2key (p.node_v + i) = some key ∧
      p.find_key addr key = .ok (some (i, prev)) := by
  have hnode := (hrep.inverse key x).mp hkey
  obtain ⟨i, rfl, -⟩ := hrep.id_of_key hnode
  rw [← h.node] at hnode
  obtain ⟨lists, hlists⟩ := h.stores.buckets
  obtain ⟨as, bs, -, hfind⟩ := h.stores.find_some hnode hlists
  exact ⟨i, _, by rw [h.node], hnode, hfind⟩

theorem get (h : Sim addr size p c) (hrep : Rep size t c frees items) (now : Rat) (key : K) :
    ∃ answer p' c', p.get addr now key = .ok (answer, p') ∧ c.get now key = .ok (answer, c') ∧
      Sim addr size p' c' := by
  cases hkey : c.key2node key with
  | none =>
    refine ⟨(none, none), p, c, ?_, ?_, h⟩
    · simp only [Pureffi.get, h.stores.find_none fun i => hrep.absent hkey _]
      rfl
    · simp only [Lrucache.get, hrep.hasht_none hkey]
  | some x =>
    obtain ⟨i, prev, rfl, hnode, hfind⟩ := h.present hrep hkey
    obtain ⟨val, hval⟩ := isSome_iff_exists.mp (h.full key _ hkey)
    have hstored : p.val_v i = some val := by rw [h.stores.vals i, hnode, bind_some, hval]
    have hsim : Sim addr size { p with links := (Queue.remove p.links (p.node_v + i)).insertHead p.cache_queue (p.node_v + i) }
        { c with links := (Queue.remove c.links (p.node_v + i)).insertHead c.cache_queue (p.node_v + i) } :=
      ⟨by rw [h.links, h.cache], h.expire, h.free, h.cache, h.node, h.slots, h.id,
        h.stores.moved, h.full⟩
    have hexpire : (0 ≤ p.expire (p.node_v + i) ∧ p.expire (p.node_v + i) < now) ↔
        0 ≤ c.expire (p.node_v + i) ∧ c.expire (p.node_v + i) < now := by rw [h.expire]
    simp only [Pureffi.get, hfind, Lrucache.get, hval, hkey, bind, Except.bind, pure, Except.pure, hstored, hexpire]
    split
    · exact ⟨_, _, _, rfl, rfl, hsim⟩
    · exact ⟨_, _, _, rfl, rfl, hsim⟩

theorem delete (h : Sim addr size p c) (hrep : Rep size t c frees items) (key : K) :
    ∃ found p', p.delete addr key = .ok (found, p') ∧ (c.delete key).1 = found ∧
      Sim addr size p' (c.delete key).2 := by
  cases hkey : c.key2node key with
  | none =>
    refine ⟨false, p, ?_, ?_, ?_⟩
    · have hfind := h.stores.find_none fun i => hrep.absent hkey _
      unfold Pureffi.find_key at hfind
      simp only [Pureffi.delete, Pureffi.remove_key, hfind]
      rfl
    · simp only [Lrucache.delete, hkey]
    · have hsame : update c.hasht key none = c.hasht :=
        update_eq_self_iff.mpr (hrep.hasht_none hkey).symm
      simp only [Lrucache.delete, hkey, hsame]
      exact h
  | some x =>
    obtain ⟨i, prev, rfl, hnode, -⟩ := h.present hrep hkey
    obtain ⟨conflict, bucket_v, hremove, hstores⟩ := h.stores.remove hnode
    refine ⟨true, _, by simp only [Pureffi.delete, hremove]; rfl, by simp only [Lrucache.delete, hkey], ?_⟩
    simp only [Lrucache.delete, hkey]
    have hother : ∀ j key', update c.node2key (p.node_v + i) none (p.node_v + j) = some key' → key' ≠ key :=
      fun j key' hj heq => by
        rw [Pureffi.update_shift] at hj
        by_cases hji : j = i
        · rw [hji, update_self] at hj
          cases hj
        · rw [update_of_ne hji] at hj
          exact hji (h.stores.unique j i key (by rw [← heq]; exact hj) hnode)
    refine ⟨by rw [h.links, h.free], h.expire, h.free, h.cache, h.node, h.slots, h.id,
      (hstores.congr fun j key' hj => update_of_ne (hother j key' hj) ..).moved, fun key' x hx => ?_⟩
    dsimp only at hx ⊢
    by_cases heq : key' = key
    · rw [heq, update_self] at hx
      cases hx
    · rw [update_of_ne heq] at hx ⊢
      exact h.full key' x hx

theorem set_again (h : Sim addr size p c) (hrep : Rep size t c frees items) (hkey : c.key2node key = some x)
    (value : V)
    (ttl : Option Rat) : ∃ p', p.set addr now key value ttl = .ok p' ∧ Sim addr size p'
    (c.set now key (some value) ttl) := by
  obtain ⟨i, prev, rfl, hnode, hfind⟩ := h.present hrep hkey
  refine ⟨_, by simp only [Pureffi.set, hfind, bind, Except.bind, pure, Except.pure]; rfl, ?_⟩
  simp only [Lrucache.set, hkey]
  refine ⟨by rw [h.links, h.cache], by rw [h.expire], h.free, h.cache, h.node, h.slots, h.id,
    (h.stores.assign hnode value).moved,
    fun key' x hx => ?_⟩
  dsimp only at hx ⊢
  by_cases heq : key' = key
  · rw [heq, update_self]
    rfl
  · rw [update_of_ne heq]
    exact h.full key' x hx

theorem set_free (h : Sim addr size p c) (hrep : Rep size t c frees items) (hkey : c.key2node key = none)
    (hfree : Queue.isEmpty c.links c.free_queue = false) (value : V) (ttl : Option Rat) :
    ∃ p', p.set addr now key value ttl = .ok p' ∧ Sim addr size p' (c.set now key (some value) ttl) := by
  have hfind := h.stores.find_none fun i => hrep.absent hkey (p.node_v + i)
  obtain ⟨⟨i, hi₀, hi⟩, hnode⟩ := hrep.head_free hfree
  have hfree' : Queue.isEmpty p.links p.free_queue = false := by rw [h.links, h.free, hfree]
  have hhead : Queue.head c.links c.free_queue = p.node_v + i := by rw [hi₀, h.node]
  have hhead' : Queue.head p.links p.free_queue = p.node_v + i := by rw [h.links, h.free, hhead]
  rw [hhead] at hnode
  have hinsert := h.stores.insert hnode (by rw [h.slots]; exact hi) (by rw [h.node]; exact h.id i hi.2)
    (fun j => hrep.absent hkey _) value
  refine ⟨_, by simp only [Pureffi.set, hfind, Pureffi.takeNode, hfree', Bool.false_eq_true, if_false, hhead', bind, Except.bind,
    pure, Except.pure]; rfl, ?_⟩
  simp only [Lrucache.set, hkey, Lrucache.takeNode, hfree, Bool.false_eq_true, if_false, hhead]
  refine ⟨by rw [← h.links, ← h.cache]; rfl, by rw [← h.expire]; rfl, h.free, h.cache, h.node, h.slots, h.id,
    hinsert.moved,
    fun key' x hx => ?_⟩
  dsimp only at hx ⊢
  by_cases heq : key' = key
  · rw [heq, update_self]
    rfl
  · rw [update_of_ne heq] at hx ⊢
    exact h.full key' x hx

theorem set_evict (h : Sim addr size p c) (hrep : Rep size t c frees items) (hsize : 0 < size)
    (hkey : c.key2node key = none)
    (hfree : Queue.isEmpty c.links c.free_queue = true) (value : V) (ttl : Option Rat) :
    ∃ p', p.set addr now key value ttl = .ok p' ∧ Sim addr size p' (c.set now key (some value) ttl) := by
  have hfind := h.stores.find_none fun i => hrep.absent hkey (p.node_v + i)
  obtain ⟨oldkey, hold⟩ := hrep.last_cached hsize hfree
  obtain ⟨i, hi₀, hi⟩ := hrep.id_of_key hold
  have hfree' : Queue.isEmpty p.links p.free_queue = true := by rw [h.links, h.free, hfree]
  have hlast : Queue.last c.links c.cache_queue = p.node_v + i := by rw [hi₀, h.node]
  have hlast' : Queue.last p.links p.cache_queue = p.node_v + i := by rw [h.links, h.cache, hlast]
  have hid : p.id (p.node_v + i) = i := by rw [h.node]; exact h.id i hi.2
  rw [hlast] at hold
  have hkey_v : p.key_v i = some oldkey := (h.stores.keys i).trans hold
  have hold_ne : oldkey ≠ key := fun heq => hrep.absent hkey _ (by rw [← heq]; exact hold)
  obtain ⟨conflict, bucket_v, hremove, hstores⟩ := h.stores.remove hold
  have habsent : ∀ j, update c.node2key (p.node_v + i) none (p.node_v + j) ≠ some key := fun j hj => by
    rw [Pureffi.update_shift] at hj
    by_cases hji : j = i
    · rw [hji, update_self] at hj
      cases hj
    · rw [update_of_ne hji] at hj
      exact hrep.absent hkey _ hj
  have hinsert := hstores.insert (update_self ..) (by rw [← h.slots] at hi; exact hi) hid habsent value
  rw [update_idem] at hinsert
  refine ⟨_, by simp only [Pureffi.set, hfind, Pureffi.takeNode, hfree', if_true, hlast', hid, hkey_v, hremove, Except.map, bind,
    Except.bind, pure, Except.pure]; rfl, ?_⟩
  simp only [Lrucache.set, hkey, Lrucache.takeNode, hfree, if_true, hlast, hold]
  refine ⟨by rw [← h.links, ← h.cache]; rfl, by rw [← h.expire]; rfl, h.free, h.cache, h.node, h.slots, h.id,
    (hinsert.congr fun j key' hj => update_of_ne (fun heq => ?_) ..).moved, fun key' x hx => ?_⟩
  · change update c.node2key (p.node_v + i) (some key) (p.node_v + j) = some key' at hj
    rw [Pureffi.update_shift, heq] at hj
    by_cases hji : j = i
    · rw [hji, update_self] at hj
      exact hold_ne (some.inj hj).symm
    · rw [update_of_ne hji] at hj
      exact hji (h.stores.unique j i oldkey hj hold)
  · dsimp only at hx ⊢
    by_cases hkey' : key' = oldkey
    · rw [hkey', update_of_ne hold_ne, update_self] at hx
      cases hx
    · rw [update_of_ne hkey']
      by_cases heq : key' = key
      · rw [heq, update_self]
        rfl
      · rw [update_of_ne heq, update_of_ne hkey'] at hx
        rw [update_of_ne heq]
        exact h.full key' x hx

theorem set (h : Sim addr size p c) (hrep : Rep size t c frees items) (hsize : 0 < size) (now : Rat) (key : K)
    (value : V)
    (ttl : Option Rat) : ∃ p', p.set addr now key value ttl = .ok p' ∧ Sim addr size p'
    (c.set now key (some value) ttl) := by
  cases hkey : c.key2node key with
  | some x => exact h.set_again hrep hkey value ttl
  | none =>
    cases hfree : Queue.isEmpty c.links c.free_queue with
    | false => exact h.set_free hrep hkey hfree value ttl
    | true => exact h.set_evict hrep hsize hkey hfree value ttl

/-- A call is answered alike by both. -/
theorem step (h : Sim addr size p c) (hrep : Rep size t c frees items) (hsize : 0 < size) (call : Call K V) :
    ∃ r p' c', p.step addr call = .ok (r, p') ∧ Resty.step c call.op = .ok (r, c') ∧ Sim addr size p' c' := by
  cases call with
  | set now key value ttl =>
    obtain ⟨p', hset, hsim⟩ := h.set hrep hsize now key value ttl
    exact ⟨.done, p', _, by rw [Pureffi.step, hset]; rfl, rfl, hsim⟩
  | get now key =>
    obtain ⟨⟨val, stale⟩, p', c', hget, hget', hsim⟩ := h.get hrep now key
    exact ⟨.got val stale, p', c', by rw [Pureffi.step, hget]; rfl, by rw [Call.op, Resty.step, hget']; rfl, hsim⟩
  | delete key =>
    obtain ⟨found, p', hdelete, rfl, hsim⟩ := h.delete hrep key
    exact ⟨_, p', _, by rw [Pureffi.step, hdelete]; rfl, rfl, hsim⟩

theorem results (h : Sim addr size p c) (hrep : Rep size t c frees items) (hsize : 0 < size)
    (calls : List ((K → Nat) × Call K V)) (hpinned : p.Pinned addr calls) :
    ∃ rs, p.results calls = .ok rs ∧ c.results (calls.map (·.2.op)) = .ok rs := by
  induction calls generalizing addr p c t frees items with
  | nil => exact ⟨[], rfl, rfl⟩
  | cons call calls ih =>
    obtain ⟨addr', call⟩ := call
    have hmoved : Sim addr' size p c := { h with stores := h.stores.pinned hpinned.1 }
    obtain ⟨r, p', c', hp, hc, hsim⟩ := hmoved.step hrep hsize call
    obtain ⟨r', c'', frees', items', hc', hrep', -⟩ := hrep.serves hsize call.op
    cases hc.symm.trans hc'
    obtain ⟨rs, hrs, hrs'⟩ := ih hsim hrep' (hpinned.2 r p' hp)
    refine ⟨r :: rs, ?_, ?_⟩
    · simp only [Pureffi.results, hp, bind, Except.bind, hrs]
      rfl
    · simp only [map_cons, Lrucache.results, hc, bind, Except.bind, hrs']
      rfl

end Sim

/-! ## A new cache -/

omit [DecidableEq K] in
theorem sim_new {load_factor : Option Rat} (hc : Lrucache.new size = some c)
    (hp : Pureffi.new size load_factor = some p)
    (addr : K → Nat) : Sim addr size p c := by
  unfold Lrucache.new at hc
  unfold Pureffi.new at hp
  split at hc
  · cases hc
  · next hsize =>
    rw [if_neg hsize] at hp
    cases hc
    cases hp
    refine ⟨rfl, rfl, rfl, rfl, rfl, rfl, fun i hi => ?_, ?_, fun _ _ h => by cases h⟩
    · dsimp only
      rw [if_pos (by omega)]
      omega
    · refine ⟨fun _ => rfl, fun _ => rfl,
        fun _ _ h => (by cases h), fun _ _ _ h => (by cases h), fun _ => [], ?_, fun b i => ?_⟩
      · exact Buckets.holds_empty
      · simp

/-- **Every call on the arrays returns what the same call on the tables does**,
for every size, load factor and hash, if strings keep their addresses as long as
they are keys. -/
theorem pureffi_as_lrucache (size : Nat) (load_factor : Option Rat) (addr : K → Nat)
    (calls : List ((K → Nat) × Call K V)) :
    match (Lrucache.new size : Option (Lrucache K V)), (Pureffi.new size load_factor : Option (Pureffi K V)) with
    | some c, some p => p.Pinned addr calls → ∃ rs, p.results calls = .ok rs ∧ c.results (calls.map (·.2.op)) = .ok rs
    | none, none => True
    | _, _ => False := by
  cases hc : (Lrucache.new size : Option (Lrucache K V)) with
  | none =>
    have hsize : size < 1 := by
      unfold Lrucache.new at hc
      split at hc
      · next hsize => exact hsize
      · cases hc
    rw [Pureffi.new, if_pos hsize]
    trivial
  | some c =>
    obtain ⟨hsize, hrep⟩ := rep_new hc
    cases hp : (Pureffi.new size load_factor : Option (Pureffi K V)) with
    | none =>
      unfold Pureffi.new at hp
      rw [if_neg (by omega)] at hp
      cases hp
    | some p => exact (sim_new hc hp addr).results hrep hsize calls

end

/-- The address of "b" changes while that is no key. -/
theorem pureffi_as_lrucache_moved :
    let addr (b : Nat) (key : String) : Nat := if key = "a" then 8 else b
    let calls : List ((String → Nat) × Call String Nat) := [(addr 16, .set 0 "a" 1 none), (addr 24, .get 5 "b")]
    ∃ c p, Lrucache.new 1 = some c ∧ Pureffi.new 1 (some 1) = some p ∧
      ∃ rs, p.results calls = .ok rs ∧ c.results (calls.map (·.2.op)) = .ok rs := by
  refine ⟨_, _, rfl, rfl, pureffi_as_lrucache 1 (some 1) (fun _ => 0) _
    ⟨fun _ _ hkey => (by cases hkey), fun r p' hstep => ⟨fun i key hkey => ?_, fun _ _ _ => trivial⟩⟩⟩
  cases hstep
  change update (fun _ => none) 1 (some "a") i = some key at hkey
  by_cases hi : i = 1
  · rw [hi, update_self] at hkey
    cases hkey
    rfl
  · rw [update_of_ne hi] at hkey
    cases hkey

end OpenResty.Resty
