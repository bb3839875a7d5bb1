/-
The cache keeps what it should: its nodes, queues and tables stand for one
list of items, the most recently used first, and every call does to it what
the cache promises.
-/
import Mathlib.Data.List.Range
import Mathlib.Data.List.Perm.Basic
import OpenResty.Resty.Lrucache

namespace OpenResty.Resty

open Lib Links List Function Option Nat

/-! ## What the cache is for -/

/-- What is kept of a key: what was last set for it, when that expires, and
the number of the call that last set it or got its value. -/
structure Entry (V : Type) where
  value : Option V
  expire : Option Rat
  used : Nat

/-- Without a ttl an entry never expires, nor with one that reaches back
before the epoch. -/
def Entry.Expired {V : Type} (e : Entry V) (now : Rat) : Prop := ∃ x, e.expire = some x ∧ 0 ≤ x ∧ x < now

abbrev View (K V : Type) := K → Option (Entry V)

section

variable {K V : Type} [DecidableEq K]

/-- What call number `t` answers and does. A key is only evicted for a new
one when no node is free, and it is the one least recently set or got. -/
inductive Serves (c : Lrucache K V) (t : Nat) (m : View K V) : Op K V → Result V → View K V → Prop
  | set_again : m key = some e →
      Serves c t m (.set now key value ttl) .done (update m key (some ⟨value, ttl.map (now + ·), t⟩))
  | set_free : m key = none → Queue.isEmpty c.links c.free_queue = false →
      Serves c t m (.set now key value ttl) .done (update m key (some ⟨value, ttl.map (now + ·), t⟩))
  | set_evict : m key = none → Queue.isEmpty c.links c.free_queue = true → m old = some e →
      (∀ key' e', m key' = some e' → e.used ≤ e'.used) →
      Serves c t m (.set now key value ttl) .done
        (update (update m old none) key (some ⟨value, ttl.map (now + ·), t⟩))
  | get_live : m key = some e → e.value = some val → ¬ e.Expired now →
      Serves c t m (.get now key) (.got (some val) none) (update m key (some { e with used := t }))
  | get_stale : m key = some e → e.value = some val → e.Expired now →
      Serves c t m (.get now key) (.got none (some val)) (update m key (some { e with used := t }))
  | get_absent : (m key).bind Entry.value = none → Serves c t m (.get now key) (.got none none) m
  | delete : Serves c t m (.delete key) (.deleted (m key).isSome) (update m key none)

inductive Runs : Lrucache K V → Nat → View K V → List (Op K V) → Lrucache K V → View K V → Prop
  | nil : Runs c t m [] c m
  | cons : step c op = .ok (r, c') → Serves c t m op r m' → Runs c' (t + 1) m' ops c'' m'' →
      Runs c t m (op :: ops) c'' m''

/-- The nodes of the free queue's array are parted between the queues, the
tables of the cached nodes are inverse, and there are at most `size` values. -/
structure WellFormed (size : Nat) (c : Lrucache K V) : Prop where
  queues : ∃ frees cached, Ring c.links c.free_queue frees ∧ Ring c.links c.cache_queue cached ∧
    (frees ++ cached).Perm (range' (c.free_queue + 1) size) ∧ ∀ x, x ∈ cached ↔ (c.node2key x).isSome
  inverse : ∀ key node, c.key2node key = some node ↔ c.node2key node = some key
  bounded : ∃ keys : List K, keys.length ≤ size ∧ ∀ key, (c.hasht key).isSome → key ∈ keys

/-! ## Items -/

/-- A cached node with its key and entry. -/
structure Item (K V : Type) where
  node : Nat
  key : K
  entry : Entry V

def find {α : Type} [DecidableEq α] (f : Item K V → α) (a : α) (items : List (Item K V)) : Option (Item K V) :=
  items.find? fun i => f i = a

variable {α : Type} [DecidableEq α] {f : Item K V → α} {a : α}

omit [DecidableEq K] in
theorem find_cons (i : Item K V) (items : List (Item K V)) :
    find f a (i :: items) = if f i = a then some i else find f a items := by
  by_cases h : f i = a
  · simp [find, h]
  · simp [find, h]

omit [DecidableEq K] in
theorem find_skip {i : Item K V} (h : f i ≠ a) (as bs : List (Item K V)) :
    find f a (as ++ i :: bs) = find f a (as ++ bs) := by
  simp [find, find?_append, h]

omit [DecidableEq K] in
theorem find_none {items : List (Item K V)} : find f a items = none ↔ a ∉ items.map f := by
  simp [find]

omit [DecidableEq K] in
theorem find_split {items : List (Item K V)} {i : Item K V} (h : find f a items = some i) :
    f i = a ∧ ∃ as bs, items = as ++ i :: bs := by
  obtain ⟨hi, as, bs, hitems, -⟩ := find?_eq_some_iff_append.mp h
  exact ⟨by simpa using hi, as, bs, hitems⟩

omit [DecidableEq K] in
theorem find_iff {items : List (Item K V)} (hnodup : (items.map f).Nodup) {i : Item K V} :
    find f a items = some i ↔ i ∈ items ∧ f i = a := by
  induction items with
  | nil => simp [find]
  | cons j items ih =>
    rw [map_cons, nodup_cons] at hnodup
    rw [find_cons]
    split
    · next hj =>
      constructor
      · rintro ⟨⟩
        exact ⟨mem_cons_self, hj⟩
      · rintro ⟨hmem, hi⟩
        rcases mem_cons.mp hmem with rfl | hmem
        · rfl
        · exact absurd (mem_map.mpr ⟨i, hmem, hi.trans hj.symm⟩) hnodup.1
    · next hj =>
      rw [ih hnodup.2]
      constructor
      · exact fun ⟨hmem, hi⟩ => ⟨mem_cons_of_mem _ hmem, hi⟩
      · rintro ⟨hmem, hi⟩
        rcases mem_cons.mp hmem with rfl | hmem
        · exact absurd hi hj
        · exact ⟨hmem, hi⟩

def view (items : List (Item K V)) : View K V := fun key => (find Item.key key items).map Item.entry

/-! ## Moving a node -/

theorem ring_queueRemove {l : Links} {h x : Nat} {xs ys : List Nat} (hr : Ring l h (xs ++ x :: ys)) :
    Ring (Queue.remove l x) h (xs ++ ys) ∧ Same l (Queue.remove l x) (h :: (xs ++ x :: ys)) := by
  have hsame := same_remove hr (show x ∈ xs ++ x :: ys by simp)
  have hnodup := hr.not_mem_rest
  constructor
  · refine hr.remove.congr fun c hc => ?_
    have hcx : c ≠ x := fun heq => hnodup (heq ▸ hc)
    simp [Queue.remove, setNext, setPrev, hcx]
  · intro c hc
    have hcx : c ≠ x := fun heq => hc (by simp [heq])
    have := hsame c hc
    simpa [Queue.remove, setNext, setPrev, hcx] using this

variable {l : Links} {h h' x : Nat} {xs ys zs : List Nat}

/-- A node goes to the head of its own queue. -/
theorem ring_refresh (hr : Ring l h (xs ++ x :: ys)) (hr' : Ring l h' zs)
    (hdisj : ∀ a ∈ h' :: zs, a ∉ h :: (xs ++ x :: ys)) :
    Ring ((Queue.remove l x).insertHead h x) h (x :: (xs ++ ys)) ∧
      Ring ((Queue.remove l x).insertHead h x) h' zs := by
  obtain ⟨hremoved, hsame⟩ := ring_queueRemove hr
  have hx := hr.not_mem_rest
  refine ⟨hremoved.insertHead hx, (hr'.beside hsame hdisj).beside (same_insertHead hremoved hx) fun a ha hmem => ?_⟩
  refine hdisj a ha ?_
  simp only [mem_cons, mem_append] at hmem ⊢
  grind

/-- A node goes to the head of the other queue. -/
theorem ring_toHead (hr : Ring l h (xs ++ x :: ys)) (hr' : Ring l h' zs)
    (hdisj : ∀ a ∈ h' :: zs, a ∉ h :: (xs ++ x :: ys)) :
    Ring ((Queue.remove l x).insertHead h' x) h (xs ++ ys) ∧ Ring ((Queue.remove l x).insertHead h' x) h'
      (x :: zs) := by
  obtain ⟨hremoved, hsame⟩ := ring_queueRemove hr
  have hx := hr.not_mem_rest
  have hr₁ := hr'.beside hsame hdisj
  have hx' : x ∉ h' :: zs := fun hmem => hdisj x hmem (by simp)
  refine ⟨hremoved.beside (same_insertHead hr₁ hx') fun a ha hmem => ?_, hr₁.insertHead hx'⟩
  rcases mem_cons.mp hmem with rfl | hmem
  · exact hx ha
  · refine hdisj a hmem ?_
    simp only [mem_cons, mem_append] at ha ⊢
    grind

/-- A node goes to the tail of the other queue. -/
theorem ring_toTail (hr : Ring l h (xs ++ x :: ys)) (hr' : Ring l h' zs)
    (hdisj : ∀ a ∈ h' :: zs, a ∉ h :: (xs ++ x :: ys)) :
    Ring ((Queue.remove l x).insertTail h' x) h (xs ++ ys) ∧
      Ring ((Queue.remove l x).insertTail h' x) h' (zs ++ [x]) := by
  obtain ⟨hremoved, hsame⟩ := ring_queueRemove hr
  have hx := hr.not_mem_rest
  have hr₁ := hr'.beside hsame hdisj
  have hx' : x ∉ h' :: zs := fun hmem => hdisj x hmem (by simp)
  refine ⟨hremoved.beside (same_insertTail hr₁ hx') fun a ha hmem => ?_, hr₁.insertTail hx'⟩
  rcases mem_cons.mp hmem with rfl | hmem
  · exact hx ha
  · refine hdisj a hmem ?_
    simp only [mem_cons, mem_append] at ha ⊢
    grind

/-! ## The tables -/

/-- The tables of a cache say what the items say. -/
structure Tables (c : Lrucache K V) (items : List (Item K V)) : Prop where
  key2node : c.key2node = fun key => (find Item.key key items).map Item.node
  node2key : c.node2key = fun node => (find Item.node node items).map Item.key
  hasht : c.hasht = fun key => (find Item.key key items).bind fun i => i.entry.value
  expire : ∀ i ∈ items, c.expire i.node = i.entry.expire.getD (-1)

/-- The cache stands for `items`, the most recently used first; `t` calls were made. -/
structure Rep (size t : Nat) (c : Lrucache K V) (frees : List Nat) (items : List (Item K V)) : Prop where
  free : Ring c.links c.free_queue frees
  cached : Ring c.links c.cache_queue (items.map Item.node)
  heads : c.free_queue = 1 ∧ c.cache_queue = size + 2
  nodes : (frees ++ items.map Item.node).Perm (range' 2 size)
  keys : (items.map Item.key).Nodup
  tables : Tables c items
  recent : items.Pairwise fun i j => j.entry.used < i.entry.used
  past : ∀ i ∈ items, i.entry.used < t

namespace Rep

variable {size t : Nat} {c : Lrucache K V} {frees : List Nat} {items : List (Item K V)}

theorem nodup (h : Rep size t c frees items) : (frees ++ items.map Item.node).Nodup :=
  h.nodes.nodup_iff.mpr nodup_range'

theorem nodes_nodup (h : Rep size t c frees items) : (items.map Item.node).Nodup := (nodup_append.mp h.nodup).2.1

theorem mem_range (h : Rep size t c frees items) {x : Nat} (hx : x ∈ frees ++ items.map Item.node) :
    2 ≤ x ∧ x < size + 2 := by
  have := mem_range'_1.mp (h.nodes.mem_iff.mp hx)
  omega

theorem disjoint (h : Rep size t c frees items) :
    ∀ a ∈ c.free_queue :: frees, a ∉ c.cache_queue :: items.map Item.node := by
  intro a ha ha'
  obtain ⟨hfree, hcache⟩ := h.heads
  rw [hfree] at ha
  rw [hcache] at ha'
  rcases mem_cons.mp ha with rfl | hmem
  · rcases mem_cons.mp ha' with heq | hmem'
    · omega
    · have := h.mem_range (mem_append_right frees hmem')
      omega
  · rcases mem_cons.mp ha' with rfl | hmem'
    · have := h.mem_range (mem_append_left (items.map Item.node) hmem)
      omega
    · exact (nodup_append.mp h.nodup).2.2 a hmem a hmem' rfl

theorem disjoint' (h : Rep size t c frees items) :
    ∀ a ∈ c.cache_queue :: items.map Item.node, a ∉ c.free_queue :: frees :=
  fun a ha ha' => h.disjoint a ha' ha

theorem length (h : Rep size t c frees items) : frees.length + items.length = size := by
  simpa using h.nodes.length_eq

/-- The queues and tables are as they should be. -/
theorem wellFormed (h : Rep size t c frees items) : WellFormed size c := by
  have hkey2node : ∀ key node, c.key2node key = some node ↔ ∃ i ∈ items, i.key = key ∧ i.node = node := by
    intro key node
    rw [h.tables.key2node]
    simp only [map_eq_some_iff, find_iff h.keys, and_assoc]
  have hnode2key : ∀ node key, c.node2key node = some key ↔ ∃ i ∈ items, i.key = key ∧ i.node = node := by
    intro node key
    rw [h.tables.node2key]
    simp only [map_eq_some_iff, find_iff h.nodes_nodup, and_assoc, and_comm (a := _ = node)]
  refine ⟨⟨frees, items.map Item.node, h.free, h.cached, ?_, fun x => ?_⟩, fun key node => ?_, ?_⟩
  · rw [h.heads.1]
    exact h.nodes
  · rw [Option.isSome_iff_exists, List.mem_map]
    constructor
    · exact fun ⟨i, hi, hx⟩ => ⟨i.key, (hnode2key x i.key).mpr ⟨i, hi, rfl, hx⟩⟩
    · rintro ⟨key, hkey⟩
      obtain ⟨i, hi, -, hx⟩ := (hnode2key x key).mp hkey
      exact ⟨i, hi, hx⟩
  · rw [hkey2node, hnode2key]
  · refine ⟨items.map Item.key, ?_, fun key hkey => ?_⟩
    · have := h.length
      rw [length_map]
      omega
    · rw [h.tables.hasht, isSome_iff_exists] at hkey
      obtain ⟨val, hval⟩ := hkey
      obtain ⟨i, hi, -⟩ := bind_eq_some_iff.mp hval
      have hi' := (find_iff h.keys).mp hi
      exact mem_map.mpr ⟨i, hi'⟩

end Rep

/-! ## Changing the tables -/

/-- The tables say what `rest` says, but for the key `k` and the node `x`. -/
structure TablesBut (k : K) (x : Nat) (c : Lrucache K V) (rest : List (Item K V)) : Prop where
  fresh : x ∉ rest.map Item.node
  key2node : ∀ key, key ≠ k → c.key2node key = (find Item.key key rest).map Item.node
  node2key : ∀ node, node ≠ x → c.node2key node = (find Item.node node rest).map Item.key
  hasht : ∀ key, key ≠ k → c.hasht key = (find Item.key key rest).bind fun i => i.entry.value
  expire : ∀ i ∈ rest, c.expire i.node = i.entry.expire.getD (-1)

variable {c c' : Lrucache K V} {rest items as bs : List (Item K V)} {i : Item K V} {k : K} {e : Entry V}

theorem TablesBut.congr (h : TablesBut k x c rest)
    (hkey : ∀ key, key ≠ k → c'.key2node key = c.key2node key ∧ c'.hasht key = c.hasht key)
    (hnode : ∀ node, node ≠ x → c'.node2key node = c.node2key node ∧ c'.expire node = c.expire node) :
    TablesBut k x c' rest where
  fresh := h.fresh
  key2node key hk := (hkey key hk).1.trans (h.key2node key hk)
  node2key node hx := (hnode node hx).1.trans (h.node2key node hx)
  hasht key hk := (hkey key hk).2.trans (h.hasht key hk)
  expire i hi := (hnode i.node fun heq => h.fresh (mem_map.mpr ⟨i, hi, heq⟩)).2.trans (h.expire i hi)

/-- What the tables say of the key and the node makes an item. -/
theorem TablesBut.front (h : TablesBut k x c rest) (hk : c.key2node k = some x) (hx : c.node2key x = some k)
    (hv : c.hasht k = e.value) (he : c.expire x = e.expire.getD (-1)) : Tables c (⟨x, k, e⟩ :: rest) := by
  refine ⟨funext fun key => ?_, funext fun node => ?_, funext fun key => ?_, fun i hi => ?_⟩
  · rw [find_cons]
    split
    · next hkey => subst hkey; exact hk
    · next hkey => exact h.key2node key (Ne.symm hkey)
  · rw [find_cons]
    split
    · next hnode => subst hnode; exact hx
    · next hnode => exact h.node2key node (Ne.symm hnode)
  · rw [find_cons]
    split
    · next hkey => subst hkey; exact hv
    · next hkey => exact h.hasht key (Ne.symm hkey)
  · rcases mem_cons.mp hi with rfl | hi
    · exact he
    · exact h.expire i hi

theorem Tables.but (h : Tables c (as ++ i :: bs)) (hnodes : ((as ++ i :: bs).map Item.node).Nodup) :
    TablesBut i.key i.node c (as ++ bs) where
  fresh := by
    rw [map_append, map_cons, nodup_middle, ← map_append] at hnodes
    exact (nodup_cons.mp hnodes).1
  key2node key hk := by simp only [h.key2node, find_skip (Ne.symm hk)]
  node2key node hx := by simp only [h.node2key, find_skip (Ne.symm hx)]
  hasht key hk := by simp only [h.hasht, find_skip (Ne.symm hk)]
  expire j hj := h.expire j (mem_append.mpr ((mem_append.mp hj).imp_right (mem_cons_of_mem i)))

theorem Tables.but_new (h : Tables c items) (hx : x ∉ items.map Item.node) : TablesBut k x c items where
  fresh := hx
  key2node key _ := by rw [h.key2node]
  node2key node _ := by rw [h.node2key]
  hasht key _ := by rw [h.hasht]
  expire := h.expire

/-- An entry under its key, in front of the others. -/
theorem view_front (hsame : ∀ key, key ≠ k → find Item.key key items = find Item.key key rest) :
    view (⟨x, k, e⟩ :: rest) = update (view items) k (some e) := by
  funext key
  by_cases hkey : key = k
  · subst hkey
    simp [view, find_cons]
  · simp [view, find_cons, hkey, Ne.symm hkey, hsame key hkey]

namespace Rep

variable {size t : Nat} {frees frees' : List Nat}

/-- A call that makes `k` the most recently used key. -/
theorem front (h : Rep size t c frees items) (hsub : rest.Sublist items) (hused : e.used = t)
    (hk : k ∉ rest.map Item.key)
    (hfree : Ring c'.links c'.free_queue frees') (hcached : Ring c'.links c'.cache_queue (x :: rest.map Item.node))
    (hheads : c'.free_queue = c.free_queue ∧ c'.cache_queue = c.cache_queue)
    (hnodes : (frees' ++ x :: rest.map Item.node).Perm (frees ++ items.map Item.node))
    (htables : Tables c' (⟨x, k, e⟩ :: rest)) : Rep size (t + 1) c' frees' (⟨x, k, e⟩ :: rest) where
  free := hfree
  cached := hcached
  heads := by rw [hheads.1, hheads.2]; exact h.heads
  nodes := hnodes.trans h.nodes
  keys := nodup_cons.mpr ⟨hk, h.keys.sublist (hsub.map _)⟩
  tables := htables
  recent := by
    refine pairwise_cons.mpr ⟨fun j hj => ?_, h.recent.sublist hsub⟩
    rw [hused]
    exact h.past j (hsub.subset hj)
  past j hj := by
    rcases mem_cons.mp hj with rfl | hj
    · exact lt_succ_of_le (Nat.le_of_eq hused)
    · exact lt_succ_of_lt (h.past j (hsub.subset hj))

theorem key_fresh (h : Rep size t c frees (as ++ i :: bs)) : i.key ∉ (as ++ bs).map Item.key := by
  have hk := h.keys
  rw [map_append, map_cons, nodup_middle, ← map_append] at hk
  exact (nodup_cons.mp hk).1

/-- The key is found and moves to the front. -/
theorem refresh (h : Rep size t c frees (as ++ i :: bs)) (hused : e.used = t)
    (hlinks : c'.links = (Queue.remove c.links i.node).insertHead c.cache_queue i.node)
    (hheads : c'.free_queue = c.free_queue ∧ c'.cache_queue = c.cache_queue) (hkey2node : c'.key2node = c.key2node)
    (hnode2key : c'.node2key = c.node2key) (hhasht : c'.hasht = update c.hasht i.key e.value)
    (hexpire : c'.expire = update c.expire i.node (e.expire.getD (-1))) :
    Rep size (t + 1) c' frees (⟨i.node, i.key, e⟩ :: (as ++ bs)) := by
  have hcached := h.cached
  have hdisj := h.disjoint
  simp only [map_append, map_cons] at hcached hdisj
  have hrings := ring_refresh hcached h.free hdisj
  rw [← hlinks, ← hheads.1, ← hheads.2, ← map_append] at hrings
  have hfound : find Item.key i.key (as ++ i :: bs) = some i := (find_iff h.keys).mpr ⟨by simp, rfl⟩
  have hfound' : find Item.node i.node (as ++ i :: bs) = some i := (find_iff h.nodes_nodup).mpr ⟨by simp, rfl⟩
  refine h.front (((sublist_cons_self i bs)).append_left as) hused h.key_fresh hrings.2 hrings.1 hheads ?_ ?_
  · simp only [map_append, map_cons]
    exact Perm.append_left frees (perm_middle).symm
  · have hbut : TablesBut i.key i.node c' (as ++ bs) := by
      refine (h.tables.but h.nodes_nodup).congr (fun key hk => ?_) fun node hx => ?_
      · simp [hkey2node, hhasht, hk]
      · simp [hnode2key, hexpire, hx]
    refine hbut.front ?_ ?_ ?_ ?_
    · rw [hkey2node, h.tables.key2node]
      simp [hfound]
    · rw [hnode2key, h.tables.node2key]
      simp [hfound']
    · simp [hhasht]
    · simp [hexpire]

end Rep

/-! ## The calls -/

namespace Rep

variable {size t : Nat} {frees : List Nat} {key : K} {now : Rat} {ttl : Option Rat} {value : Option V}

theorem view_some (h : Rep size t c frees items) (hm : view items k = some e) :
    ∃ as i bs, items = as ++ i :: bs ∧ i.key = k ∧ i.entry = e ∧ c.key2node k = some i.node := by
  obtain ⟨i, hi, rfl⟩ := map_eq_some_iff.mp hm
  obtain ⟨hk, as, bs, hitems⟩ := find_split hi
  refine ⟨as, i, bs, hitems, hk, rfl, ?_⟩
  rw [h.tables.key2node]
  simp [hi]

theorem view_none (h : Rep size t c frees items) (hm : view items k = none) :
    k ∉ items.map Item.key ∧ c.key2node k = none ∧ c.hasht k = none := by
  have hfind : find Item.key k items = none := map_eq_none_iff.mp hm
  refine ⟨find_none.mp hfind, ?_, ?_⟩
  · rw [h.tables.key2node]
    simp [hfind]
  · rw [h.tables.hasht]
    simp [hfind]

theorem isEmpty_iff (h : Rep size t c frees items) : Queue.isEmpty c.links c.free_queue = true ↔ frees = [] := by
  rw [Queue.isEmpty, beq_iff_eq, eq_comm]
  exact h.free.isEmpty

/-- The entry that a set makes. -/
def entryOf (now : Rat) (value : Option V) (ttl : Option Rat) (t : Nat) : Entry V := ⟨value, ttl.map (now + ·), t⟩

theorem expireAt_eq (now : Rat) (ttl : Option Rat) : Lrucache.expireAt now ttl = (ttl.map (now + ·)).getD (-1) := by
  cases ttl <;> rfl

theorem set_again (h : Rep size t c frees (as ++ i :: bs)) (hnode : c.key2node i.key = some i.node) :
    Rep size (t + 1) (c.set now i.key value ttl) frees (⟨i.node, i.key, entryOf now value ttl t⟩ :: (as ++ bs)) := by
  refine h.refresh rfl ?_ ?_ ?_ ?_ ?_ ?_
  · simp only [Lrucache.set, hnode]
  · simp only [Lrucache.set, hnode, and_self]
  · simp only [Lrucache.set, hnode]
  · simp only [Lrucache.set, hnode]
  · simp only [Lrucache.set, hnode, entryOf]
  · simp only [Lrucache.set, hnode, entryOf, expireAt_eq]

theorem set_free {frees : List Nat} (h : Rep size t c (x :: frees) items) (hk : key ∉ items.map Item.key)
    (hnode : c.key2node key = none) :
    Rep size (t + 1) (c.set now key value ttl) frees (⟨x, key, entryOf now value ttl t⟩ :: items) := by
  have hempty : Queue.isEmpty c.links c.free_queue = false := by
    rw [Bool.eq_false_iff, Ne, h.isEmpty_iff]
    simp
  have hhead : Queue.head c.links c.free_queue = x := h.free.head
  have hset : c.set now key value ttl =
      { c with
        links := (Queue.remove c.links x).insertHead c.cache_queue x
        hasht := update c.hasht key value
        key2node := update c.key2node key (some x)
        node2key := update c.node2key x (some key)
        expire := update c.expire x ((ttl.map (now + ·)).getD (-1)) } := by
    simp only [Lrucache.set, hnode, Lrucache.takeNode, hempty, hhead, expireAt_eq, Bool.false_eq_true, if_false]
  have hx : x ∉ items.map Item.node := fun hmem => (nodup_append.mp h.nodup).2.2 x (by simp) x hmem rfl
  have hrings := ring_toHead (show Ring c.links c.free_queue ([] ++ x :: frees) from h.free) h.cached h.disjoint'
  rw [hset]
  refine h.front (Sublist.refl _) rfl hk hrings.1 hrings.2 ⟨rfl, rfl⟩ perm_middle ?_
  refine ((h.tables.but_new hx).congr (k := key) ?_ ?_).front ?_ ?_ ?_ ?_
  · exact fun key' hk' => by simp [hk']
  · exact fun node hx' => by simp [hx']
  · simp
  · simp
  · simp [entryOf]
  · simp [entryOf]

theorem set_evict (h : Rep size t c [] (as ++ [i])) (hk : key ∉ (as ++ [i]).map Item.key)
    (hnode : c.key2node key = none) :
    Rep size (t + 1) (c.set now key value ttl) [] (⟨i.node, key, entryOf now value ttl t⟩ :: as) := by
  have hempty : Queue.isEmpty c.links c.free_queue = true := h.isEmpty_iff.mpr rfl
  have hcached := h.cached
  have hdisj := h.disjoint
  simp only [map_append, map_cons, map_nil] at hcached hdisj
  have hlast : Queue.last c.links c.cache_queue = i.node := hcached.last
  have hfound : find Item.node i.node (as ++ [i]) = some i := (find_iff h.nodes_nodup).mpr ⟨by simp, rfl⟩
  have hold : c.node2key i.node = some i.key := by
    rw [h.tables.node2key]
    simp [hfound]
  have hset : c.set now key value ttl =
      { c with
        links := (Queue.remove c.links i.node).insertHead c.cache_queue i.node
        hasht := update (update c.hasht key value) i.key none
        key2node := update (update c.key2node i.key none) key (some i.node)
        node2key := update c.node2key i.node (some key)
        expire := update c.expire i.node ((ttl.map (now + ·)).getD (-1)) } := by
    simp only [Lrucache.set, hnode, Lrucache.takeNode, hempty, hlast, hold, expireAt_eq, if_true]
  have hne : i.key ≠ key := fun heq => hk (by simp [heq])
  have hfresh : i.key ∉ as.map Item.key := by simpa using h.key_fresh
  have hrings := ring_refresh hcached h.free hdisj
  rw [append_nil] at hrings
  have hbut := h.tables.but h.nodes_nodup
  rw [append_nil] at hbut
  rw [hset]
  refine h.front (sublist_append_left as [i]) rfl (fun hmem => hk (by simp at hmem ⊢; exact .inl hmem)) hrings.2
    hrings.1 ⟨rfl, rfl⟩ (by simpa using (perm_append_singleton i.node (as.map Item.node)).symm) ?_
  refine TablesBut.front ⟨hbut.fresh, fun key' hk' => ?_, fun node hx => ?_, fun key' hk' => ?_,
    fun j hj => ?_⟩ ?_ ?_ ?_ ?_
  · by_cases hold' : key' = i.key
    · subst hold'
      simp [hk', find_none.mpr hfresh]
    · simp [hk', hold', hbut.key2node key' hold']
  · simp [hx, hbut.node2key node hx]
  · by_cases hold' : key' = i.key
    · subst hold'
      simp [find_none.mpr hfresh]
    · simp [hk', hold', hbut.hasht key' hold']
  · have hjx : j.node ≠ i.node := fun heq => hbut.fresh (mem_map.mpr ⟨j, hj, heq⟩)
    simp [hjx, hbut.expire j hj]
  · simp
  · simp
  · simp [Ne.symm hne, entryOf]
  · simp [entryOf]

/-- An entry's time of expiry against the clock. -/
theorem expired_iff (h : Rep size t c frees items) (hi : i ∈ items) :
    i.entry.Expired now ↔ 0 ≤ c.expire i.node ∧ c.expire i.node < now := by
  rw [h.tables.expire i hi, Entry.Expired]
  cases i.entry.expire with
  | none => simpa using fun hle : (0 : Rat) ≤ -1 => absurd hle (by decide)
  | some x => simp

theorem get_found (h : Rep size t c frees (as ++ i :: bs)) {c' : Lrucache K V}
    (hget : c' = { c with links := (Queue.remove c.links i.node).insertHead c.cache_queue i.node }) :
    Rep size (t + 1) c' frees (⟨i.node, i.key, { i.entry with used := t }⟩ :: (as ++ bs)) := by
  have hfound : find Item.key i.key (as ++ i :: bs) = some i := (find_iff h.keys).mpr ⟨by simp, rfl⟩
  subst hget
  refine h.refresh rfl rfl ⟨rfl, rfl⟩ rfl rfl ?_ ?_
  · refine (update_eq_self_iff.mpr ?_).symm
    rw [h.tables.hasht]
    simp [hfound]
  · exact (update_eq_self_iff.mpr (h.tables.expire i (by simp)).symm).symm

theorem again (h : Rep size t c frees items) : Rep size (t + 1) c frees items :=
  { h with past := fun i hi => lt_succ_of_lt (h.past i hi) }

theorem view_update : view (⟨x, i.key, e⟩ :: (as ++ bs)) = update (view (as ++ i :: bs)) i.key (some e) :=
  view_front fun _ hkey => find_skip (Ne.symm hkey) as bs

theorem view_delete (h : Rep size t c frees (as ++ i :: bs)) :
    view (as ++ bs) = update (view (as ++ i :: bs)) i.key none := by
  funext key
  by_cases hkey : key = i.key
  · subst hkey
    simp [view, find_none.mpr h.key_fresh]
  · simp [view, hkey, find_skip (Ne.symm hkey)]

theorem delete_found (h : Rep size t c frees (as ++ i :: bs)) (hnode : c.key2node i.key = some i.node) :
    (c.delete i.key).1 = true ∧ Rep size (t + 1) (c.delete i.key).2 (frees ++ [i.node]) (as ++ bs) := by
  have hcached := h.cached
  have hdisj := h.disjoint
  simp only [map_append, map_cons] at hcached hdisj
  have hrings := ring_toTail hcached h.free hdisj
  rw [← map_append] at hrings
  have hbut := h.tables.but h.nodes_nodup
  have hsub : (as ++ bs).Sublist (as ++ i :: bs) := (sublist_cons_self i bs).append_left as
  have hnode' : find Item.node i.node (as ++ bs) = none := find_none.mpr hbut.fresh
  have hkey' : find Item.key i.key (as ++ bs) = none := find_none.mpr h.key_fresh
  simp only [Lrucache.delete, hnode, true_and]
  refine ⟨hrings.2, hrings.1, h.heads, ?_, h.keys.sublist (hsub.map _), ⟨funext fun key => ?_, funext fun node => ?_,
    funext fun key => ?_, hbut.expire⟩, h.recent.sublist hsub, fun j hj =>
      lt_succ_of_lt (h.past j (hsub.subset hj))⟩
  · refine Perm.trans ?_ h.nodes
    simp only [map_append, map_cons, append_assoc, singleton_append]
    exact Perm.append_left frees perm_middle.symm
  · by_cases hkey : key = i.key
    · subst hkey
      simp [hkey']
    · simp [hkey, hbut.key2node key hkey]
  · by_cases hx : node = i.node
    · subst hx
      simp [hnode']
    · simp [hx, hbut.node2key node hx]
  · by_cases hkey : key = i.key
    · subst hkey
      simp [hkey']
    · simp [hkey, hbut.hasht key hkey]

/-! ## Every call serves -/

theorem serves_set (h : Rep size t c frees items) (hsize : 0 < size) :
    ∃ frees' items', Rep size (t + 1) (c.set now key value ttl) frees' items' ∧
      Serves c t (view items) (.set now key value ttl) .done (view items') := by
  cases hm : view items key with
  | some e =>
    obtain ⟨as, i, bs, rfl, rfl, rfl, hnode⟩ := h.view_some hm
    refine ⟨_, _, h.set_again hnode, ?_⟩
    rw [view_update]
    exact .set_again hm
  | none =>
    obtain ⟨hk, hnode, -⟩ := h.view_none hm
    cases frees with
    | cons x frees =>
      refine ⟨_, _, h.set_free hk hnode, ?_⟩
      rw [view_front fun _ _ => rfl]
      refine .set_free hm ?_
      rw [Bool.eq_false_iff, Ne, h.isEmpty_iff]
      simp
    | nil =>
      have hlength := h.length
      rcases eq_nil_or_concat' items with rfl | ⟨as, i, rfl⟩
      · simp at hlength
        omega
      refine ⟨_, _, h.set_evict hk hnode, ?_⟩
      have hdelete := h.view_delete
      rw [append_nil] at hdelete
      rw [view_front fun _ _ => rfl, hdelete]
      have hold : view (as ++ [i]) i.key = some i.entry := by
        rw [view, (find_iff h.keys).mpr ⟨by simp, rfl⟩]
        rfl
      refine .set_evict hm (h.isEmpty_iff.mpr rfl) hold fun key' e' he' => ?_
      -- the last item was used before all others
      obtain ⟨j, hj, rfl⟩ := map_eq_some_iff.mp he'
      obtain ⟨hmem, -⟩ := (find_iff h.keys).mp hj
      rcases mem_append.mp hmem with hmem | hmem
      · exact Nat.le_of_lt ((pairwise_append.mp h.recent).2.2 j hmem i (by simp))
      · rw [mem_singleton.mp hmem]

theorem serves_get (h : Rep size t c frees items) :
    ∃ val stale c' items', c.get now key = .ok ((val, stale), c') ∧ Rep size (t + 1) c' frees items' ∧
      Serves c t (view items) (.get now key) (.got val stale) (view items') := by
  cases hval : c.hasht key with
  | none =>
    refine ⟨none, none, c, items, by rw [Lrucache.get, hval], h.again, .get_absent ?_⟩
    rw [h.tables.hasht] at hval
    rw [view, bind_map]
    exact hval
  | some val =>
    cases hm : view items key with
    | none =>
      obtain ⟨-, -, hnone⟩ := h.view_none hm
      rw [hnone] at hval
      cases hval
    | some e =>
      obtain ⟨as, i, bs, rfl, rfl, rfl, hnode⟩ := h.view_some hm
      have hvalue : i.entry.value = some val := by
        rw [h.tables.hasht] at hval
        simpa [(find_iff h.keys).mpr ⟨show i ∈ as ++ i :: bs by simp, rfl⟩] using hval
      have hrep := h.get_found rfl
      have hexpired : i.entry.Expired now ↔ _ := h.expired_iff (show i ∈ as ++ i :: bs by simp)
      by_cases hlate : i.entry.Expired now
      · refine ⟨none, some val, _, _, ?_, hrep, ?_⟩
        · simp only [Lrucache.get, hval, hnode, if_pos (hexpired.mp hlate)]
        · rw [view_update]
          exact .get_stale hm hvalue hlate
      · refine ⟨some val, none, _, _, ?_, hrep, ?_⟩
        · simp only [Lrucache.get, hval, hnode, if_neg fun hlate' => hlate (hexpired.mpr hlate')]
        · rw [view_update]
          exact .get_live hm hvalue hlate

theorem serves_delete (h : Rep size t c frees items) :
    ∃ found c' frees' items', c.delete key = (found, c') ∧ Rep size (t + 1) c' frees' items' ∧
      Serves c t (view items) (.delete key) (.deleted found) (view items') := by
  cases hm : view items key with
  | some e =>
    obtain ⟨as, i, bs, rfl, rfl, rfl, hnode⟩ := h.view_some hm
    obtain ⟨hfound, hrep⟩ := h.delete_found hnode
    refine ⟨true, _, _, _, Prod.ext hfound rfl, hrep, ?_⟩
    have hserves : Serves c t (view (as ++ i :: bs)) (.delete i.key) _ _ := .delete
    rw [hm] at hserves
    rw [h.view_delete]
    exact hserves
  | none =>
    obtain ⟨-, hnode, hnone⟩ := h.view_none hm
    have hsame : update c.hasht key none = c.hasht := update_eq_self_iff.mpr hnone.symm
    refine ⟨false, c, frees, items, ?_, h.again, ?_⟩
    · simp only [Lrucache.delete, hnode, hsame]
    · have hserves : Serves c t (view items) (.delete key) _ _ := .delete
      rw [hm, update_eq_self_iff.mpr hm.symm] at hserves
      exact hserves

theorem serves (h : Rep size t c frees items) (hsize : 0 < size) (op : Op K V) :
    ∃ r c' frees' items', step c op = .ok (r, c') ∧ Rep size (t + 1) c' frees' items' ∧
      Serves c t (view items) op r (view items') := by
  cases op with
  | set now key value ttl =>
    obtain ⟨frees', items', hrep, hserves⟩ := h.serves_set hsize
    exact ⟨_, _, frees', items', rfl, hrep, hserves⟩
  | get now key =>
    obtain ⟨val, stale, c', items', hget, hrep, hserves⟩ := h.serves_get
    exact ⟨_, c', frees, items', by rw [step, hget]; rfl, hrep, hserves⟩
  | delete key =>
    obtain ⟨found, c', frees', items', hdelete, hrep, hserves⟩ := h.serves_delete
    exact ⟨_, c', frees', items', by rw [step, hdelete], hrep, hserves⟩

theorem runs (h : Rep size t c frees items) (hsize : 0 < size) (ops : List (Op K V)) :
    ∃ c' m', Runs c t (view items) ops c' m' ∧ WellFormed size c' := by
  induction ops generalizing t c frees items with
  | nil => exact ⟨c, view items, .nil, h.wellFormed⟩
  | cons op ops ih =>
    obtain ⟨r, c₁, frees₁, items₁, hstep, hrep, hserves⟩ := h.serves hsize op
    obtain ⟨c', m', hruns, hwf⟩ := ih hrep
    exact ⟨c', m', .cons hstep hserves hruns, hwf⟩

end Rep

/-! ## A new cache -/

/-- The loop links the nodes one behind the other. -/
theorem linked_initLoop {l : Links} {q i : Nat} (n : Nat) (hl : Linked l (range' q (i + 1))) :
    ∃ l', (range' (i + 1) n).foldl (Queue.initLoop q) (l, q + i) = (l', q + (i + n)) ∧
      Linked l' (range' q (i + n + 1)) := by
  induction n generalizing l i with
  | zero => exact ⟨l, rfl, hl⟩
  | succ n ih =>
    have hstep : Linked ((l.setNext (q + i) (q + (i + 1))).setPrev (q + (i + 1)) (q + i))
      (range' q (i + 1 + 1)) := by
      rw [range'_concat, range'_concat, append_assoc]
      refine (linked_append _ _ _).mpr ⟨?_, ?_⟩
      · rw [range'_concat] at hl
        refine hl.congr (fun a ha => ?_) fun a ha => ?_
        · rw [dropLast_concat] at ha
          have := mem_range'_1.mp ha
          simp [setNext, setPrev, show a ≠ q + i by omega]
        · have := mem_of_mem_tail ha
          have hlt : a < q + (i + 1) := by
            simp only [mem_append, mem_range'_1, mem_singleton] at this
            omega
          simp [setNext, setPrev, Nat.ne_of_lt hlt]
      · simp [Linked, setNext, setPrev]
    obtain ⟨l', hfold, hl'⟩ := ih hstep
    refine ⟨l', ?_, ?_⟩
    · rw [range'_succ, foldl_cons, Queue.initLoop, hfold]
      congr 1
      omega
    · rwa [show i + (n + 1) + 1 = i + 1 + n + 1 by omega]

theorem ring_queueInit (l : Links) (q size : Nat) : Ring (Queue.init l q size) q (range' (q + 1) size) := by
  rw [Queue.init]
  split
  · next hsize =>
    subst hsize
    exact ring_init l q
  · next hsize =>
    have hone : Linked l (range' q (0 + 1)) := by simp [Linked]
    obtain ⟨l', hfold, hl'⟩ := linked_initLoop size hone
    rw [Nat.zero_add] at hfold hl'
    simp only [Nat.zero_add, Nat.add_zero] at hfold
    have hnodup : (q :: range' (q + 1) size).Nodup := by
      rw [← range'_succ]
      exact nodup_range'
    simp only [hfold]
    refine ⟨hnodup, ?_⟩
    obtain ⟨n, rfl⟩ := exists_eq_succ_of_ne_zero hsize
    rw [← cons_append, ← range'_succ, range'_concat, append_assoc]
    refine (linked_append _ _ _).mpr ⟨?_, ?_⟩
    · rw [← range'_concat]
      refine hl'.congr (fun a ha => ?_) fun a ha => ?_
      · rw [range'_concat, dropLast_concat] at ha
        have := mem_range'_1.mp ha
        simp [setNext, setPrev, show a ≠ q + (n + 1) by omega]
      · rw [range'_succ, List.tail_cons] at ha
        have := mem_range'_1.mp ha
        simp [setNext, setPrev, show a ≠ q by omega]
    · simp [Linked, setNext, setPrev]

theorem rep_new {size : Nat} {c : Lrucache K V} (h : Lrucache.new size = some c) :
    0 < size ∧ Rep size 0 c (range' 2 size) [] := by
  rw [Lrucache.new] at h
  split at h
  · cases h
  · next hsize =>
    cases h
    have hfree := ring_queueInit { prev := fun _ => NULL, next := fun _ => NULL } 1 size
    refine ⟨by omega, ?_, ?_, ⟨rfl, ?_⟩, ?_, nodup_nil, ⟨rfl, rfl, rfl, by simp⟩, .nil, by simp⟩
    · refine hfree.beside (same_init _ _) fun a ha hmem => ?_
      rw [mem_singleton.mp hmem] at ha
      simp only [mem_cons, mem_range'_1] at ha
      omega
    · exact ring_init _ _
    · dsimp only
      omega
    · simp

/-- **Every call on a cache does what the cache promises**, and after any
calls its queues and tables are as they should be. -/
theorem lrucache_serves {size : Nat} {c : Lrucache K V} (h : Lrucache.new size = some c) (ops : List (Op K V)) :
    ∃ c' m', Runs c 0 (fun _ => none) ops c' m' ∧ WellFormed size c' :=
  (rep_new h).2.runs (rep_new h).1 ops

end

theorem lrucache_serves_one : ∃ c : Lrucache String Nat, Lrucache.new 1 = some c ∧
    ∃ c' m', Runs c 0 (fun _ => none) [.set 0 "a" (some 1) none, .set 0 "b" (some 2) (some 1), .get 5 "b"] c' m' ∧
      WellFormed 1 c' :=
  ⟨_, rfl, lrucache_serves rfl _⟩

end OpenResty.Resty
