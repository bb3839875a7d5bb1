/-
The conflict chains of `resty.lrucache.pureffi` through a run: each cached node stands in the
chain of its key's bucket and in no other, free nodes stand in none, and a lookup comes to an
end.
-/
import OpenResty.Lib.Transition
import OpenResty.Resty.LrucachePureffiFacts

namespace OpenResty.Resty.Pureffi

open Lib Links Lib.Transition List Function

variable {K V : Type} [DecidableEq K]

/-- The chains of the buckets, with the nodes of the cache queue and those of the free queue. -/
structure Chained (addr : K → Nat) (c : Pureffi K V) (chains : Nat → List Nat) (cached frees : List Nat) : Prop where
  cache_queue : Ring c.links c.cache_queue cached
  free_queue : Ring c.links c.free_queue frees
  /-- From its bucket on a chain leads to 0, -/
  path : ∀ b, Buckets.Path c.buckets.next (c.bucket_v b) (chains b)
  /-- and it comes to no node twice. -/
  nodup : ∀ b, (chains b).Nodup
  /-- A cached node has a key, and is in the chain of its bucket and in no other. -/
  once : ∀ x ∈ cached, x = c.node_v + c.id x ∧ ∃ key, c.key_v (c.id x) = some key ∧
    ∀ b, c.id x ∈ chains b ↔ b = c.hash_string addr key
  unchained : ∀ x ∈ frees, ∀ b, c.id x ∉ chains b
  found : ∀ x ∈ cached, ∀ key, c.key_v (c.id x) = some key → ∃ prev, c.find_key addr key = .ok (some (c.id x, prev))
  absent : ∀ key, (∀ x ∈ cached, c.key_v (c.id x) ≠ some key) → c.find_key addr key = .ok none

/-- A cache, with the addresses of the last call. -/
abbrev Held (K V : Type) := (K → Nat) × Pureffi K V

/-- A call, made with addresses of its own. It is `none` where the call faults. -/
def next (s : Held K V) (e : (K → Nat) × Call K V) : Option (Held K V) :=
  match s.2.step e.1 e.2 with
  | .ok (_, c) => some (e.1, c)
  | .error _ => none

/-- A string that is a key is not collected, so its address stays. -/
def Stays (s : Held K V) (e : (K → Nat) × Call K V) : Prop := ∀ i key, s.2.key_v i = some key → e.1 key = s.1 key

def Right (s : Held K V) : Prop := ∃ chains cached frees, Chained s.1 s.2 chains cached frees

section

variable {p : Pureffi K V} {c : Lrucache K V} {addr : K → Nat} {size t : Nat} {frees : List Nat}
  {items : List (Item K V)} {x : Nat}

theorem id_eq (h : Sim addr size p c) (hrep : Rep size t c frees items) (hx : x ∈ frees ++ items.map Item.node) :
    x = p.node_v + p.id x := by
  obtain ⟨i, rfl, -, hle⟩ := hrep.id_of_mem hx
  rw [h.id i hle, h.node]

/-- The key of a cached node. -/
theorem key_of_cached (h : Sim addr size p c) (hrep : Rep size t c frees items) (hx : x ∈ items.map Item.node) :
    ∃ key, c.node2key x = some key ∧ p.key_v (p.id x) = some key := by
  have hid := id_eq h hrep (mem_append_right frees hx)
  obtain ⟨i, hi, rfl⟩ := mem_map.mp hx
  have hkey : c.node2key i.node = some i.key := by
    rw [hrep.tables.node2key]
    exact Option.map_eq_some_iff.mpr ⟨i, (find_iff hrep.nodes_nodup).mpr ⟨hi, rfl⟩, rfl⟩
  exact ⟨i.key, hkey, by rw [h.stores.keys, ← hid, hkey]⟩

/-- A node with a key is cached. -/
theorem cached_of_key {key : K} (hrep : Rep size t c frees items) (hkey : c.node2key x = some key) :
    x ∈ items.map Item.node := by
  rw [hrep.tables.node2key] at hkey
  obtain ⟨i, hi, -⟩ := Option.map_eq_some_iff.mp hkey
  obtain ⟨hmem, rfl⟩ := (find_iff hrep.nodes_nodup).mp hi
  exact mem_map_of_mem hmem

theorem chained (h : Sim addr size p c) (hrep : Rep size t c frees items) : Right (addr, p) := by
  obtain ⟨lists, hlists⟩ := h.stores.buckets
  refine ⟨lists, items.map Item.node, frees, ?_⟩
  exact
    { cache_queue := by
        rw [h.links, h.cache]
        exact hrep.cached
      free_queue := by
        rw [h.links, h.free]
        exact hrep.free
      path := hlists.1.path
      nodup := hlists.1.nodup
      once := by
        intro x hx
        obtain ⟨key, hnode, hkey⟩ := key_of_cached h hrep hx
        have hid := id_eq h hrep (mem_append_right frees hx)
        refine ⟨hid, key, hkey, fun b => (hlists.2 b (p.id x)).trans ?_⟩
        rw [← hid, hnode]
        constructor
        · rintro ⟨key', heq, rfl⟩
          cases heq
          rfl
        · intro hb
          exact ⟨key, rfl, hb.symm⟩
      unchained := by
        intro x hx b hmem
        obtain ⟨key, hkey, -⟩ := (hlists.2 b (p.id x)).mp hmem
        rw [← id_eq h hrep (mem_append_left _ hx)] at hkey
        exact (nodup_append.mp hrep.nodup).2.2 x hx x (cached_of_key hrep hkey) rfl
      found := by
        intro x hx key hkey
        have hid := id_eq h hrep (mem_append_right frees hx)
        rw [h.stores.keys] at hkey
        obtain ⟨as, bs, -, hfind⟩ := h.stores.find_some hkey hlists
        exact ⟨_, hfind⟩
      absent := by
        intro key hnone
        refine h.stores.find_none fun i hkey => ?_
        have hx := cached_of_key hrep hkey
        have hid := id_eq h hrep (mem_append_right frees hx)
        refine hnone _ hx ?_
        rw [h.stores.keys, ← hid, hkey] }

end

/-- **No call of a run faults, and the chains are right after each**, for every size, load
factor and hash. -/
theorem chains_right {size : Nat} {load_factor : Option Rat} {p : Pureffi K V}
    (hp : Pureffi.new size load_factor = some p) (addr : K → Nat) (calls : List ((K → Nat) × Call K V))
    (h : Guarded next Stays (addr, p) calls) :
    Right (addr, p) ∧ Goes next (fun _ _ s => Right s) (addr, p) calls := by
  obtain ⟨c, hc⟩ : ∃ c : Lrucache K V, Lrucache.new size = some c := by
    rw [Pureffi.new] at hp
    split at hp
    · cases hp
    · next hsize => exact ⟨_, if_neg hsize⟩
  obtain ⟨hsize, hrep⟩ := rep_new hc
  have hsim := sim_new hc hp addr
  have hstep : ∀ (s : Held K V) (e : (K → Nat) × Call K V),
      (∃ t c frees items, Sim s.1 size s.2 c ∧ Rep size t c frees items) → Stays s e →
        ∃ s', next s e = some s' ∧ Right s' ∧ ∃ t c frees items, Sim s'.1 size s'.2 c ∧ Rep size t c frees items := by
    rintro ⟨addr, p⟩ ⟨addr', call⟩ ⟨t, c, frees, items, hsim, hrep⟩ hstays
    have hmoved : Sim addr' size p c := { hsim with stores := hsim.stores.pinned hstays }
    obtain ⟨r, p', c', hp, hc, hsim'⟩ := hmoved.step hrep hsize call
    obtain ⟨r', c'', frees', items', hc', hrep', -⟩ := hrep.serves hsize call.op
    cases hc.symm.trans hc'
    refine ⟨(addr', p'), ?_, chained hsim' hrep', t + 1, _, frees', items', hsim', hrep'⟩
    simp only [next, hp]
  exact ⟨chained hsim hrep, goes_of_guarded hstep ⟨0, c, _, [], hsim, hrep⟩ h⟩

/-- The address of "b" changes while that is no key. -/
theorem chains_right_moved :
    let addr (b : Nat) (key : String) : Nat := if key = "a" then 8 else b
    let calls : List ((String → Nat) × Call String Nat) := [(addr 16, .set 0 "a" 1 none), (addr 24, .get 5 "b")]
    ∃ p, Pureffi.new 1 (some 1) = some p ∧ Right (fun _ => 0, p) ∧
      Goes next (fun _ _ s => Right s) (fun _ => 0, p) calls := by
  have hp : Pureffi.new (K := String) (V := Nat) 1 (some 1) = some _ := rfl
  refine ⟨_, hp, chains_right hp _ _ ⟨fun _ _ hkey => (by cases hkey), fun s hstep => ⟨fun i key hkey => ?_, ?_⟩⟩⟩
  rotate_left
  · exact fun _ _ => trivial
  cases hstep
  change update (fun _ => none) 1 (some "a") i = some key at hkey
  by_cases hi : i = 1
  · rw [hi, update_self] at hkey
    cases hkey
    rfl
  · rw [update_of_ne hi] at hkey
    cases hkey

end OpenResty.Resty.Pureffi
