/-
A cycle of checks of `resty.upstream.healthcheck`: how `check_peers` gives the
peers to light threads, and what is still running when `do_check` publishes.

The number of threads that the wait loop reads is only set where there are no
more peers than `concurrency`: with more of them it is a local of its own that
has the number, and nothing is waited for.
-/
import Mathlib.Algebra.Order.Floor.Div
import OpenResty.Resty.HealthcheckVersion

namespace OpenResty.Resty.Healthcheck.Cycle

open Lib.Transition Nat
open List hiding getElem?_eq_some_iff

/-- Whether it is a backup peer, and its place in the list, from 1 on -/
abbrev Peer := Bool × Nat

/-- What the light thread that runs `do_check` does, one after the other. -/
inductive Act
  | spawn (peers : List Peer)
  | check (peer : Peer)
  | wait (i : Nat)
  | publish
  deriving DecidableEq

/-! ## The peers of a thread -/

/-- The peers that `check_peer_range` checks -/
def check_peer_range (is_backup : Bool) (from' to' : Nat) : List Peer :=
  (range' from' (to' + 1 - from')).map fun i => (is_backup, i)

/-- The loop that spawns up to `i` threads, with the `from` and `rest` it ends with -/
def spawnGroups (is_backup : Bool) (group_size : Nat) : Nat → Nat → Nat → List (List Peer) × Nat × Nat
  | 0, from', rest => ([], from', rest)
  | i + 1, from', rest =>
    let (rest, to') :=
      if group_size ≤ rest then (rest - group_size, from' + group_size - 1) else (0, from' + rest - 1)
    let peers := check_peer_range is_backup from' to'
    let from' := from' + group_size
    if rest = 0 then ([peers], from', rest)
    else
      let (groups, from', rest) := spawnGroups is_backup group_size i from' rest
      (peers :: groups, from', rest)

/-- The steps of `check_peers` for `n` peers, when `base` threads were spawned before. -/
def check_peers (concur : Nat) (is_backup : Bool) (n base : Nat) : List Act :=
  if n = 0 then []
  else if concur ≤ 1 then (check_peer_range is_backup 1 n).map .check
  else
    let (acts, nthr) : List Act × Option Nat :=
      if n ≤ concur then
        let nthr := n - 1
        ((range' 1 nthr).map (fun i => .spawn [(is_backup, i)]) ++ [.check (is_backup, n)], some nthr)
      else
        let group_size := n ⌈/⌉ concur
        let nthr := n ⌈/⌉ group_size - 1
        let (groups, from', rest) := spawnGroups is_backup group_size nthr 1 n
        -- that `nthr` is local to this branch
        (groups.map .spawn ++
          if 0 < rest then (check_peer_range is_backup from' (from' + rest - 1)).map .check else [], none)
    acts ++ (List.range (nthr.getD 0)).map fun i => .wait (base + i)

/-- What the spawned threads check -/
def spawns (acts : List Act) : List (List Peer) :=
  acts.filterMap fun
    | .spawn peers => some peers
    | _ => none

/-- What the current thread checks -/
def own (acts : List Act) : List Peer :=
  acts.filterMap fun
    | .check peer => some peer
    | _ => none

/-! ## A cycle -/

/-- `ctx` as far as a cycle reads it, with the number of peers of each list -/
structure Checker where
  fall : Nat
  rise : Nat
  concurrency : Nat
  primary_peers : Nat
  backup_peers : Nat

def Checker.config (k : Checker) : Config Peer :=
  { fall := k.fall, rise := k.rise, peers :=
    check_peer_range false 1 k.primary_peers ++ check_peer_range true 1 k.backup_peers }

structure State where
  /-- what the current thread has still to do -/
  todo : List Act
  /-- the peers that each spawned thread has still to check -/
  threads : List (List Peer)
  ctx : Ctx Peer
  dict : Dict Peer
  /-- told apart beside the run: the peers turned down or up since a version was last published -/
  unpublished : Nat

inductive Event
  /-- the current thread spawns, waits or publishes -/
  | go
  /-- it has checked a peer; without an outcome where it gets no socket -/
  | current (side : Option Side)
  /-- a spawned thread has checked a peer -/
  | thread (i : Nat) (side : Option Side)
  /-- other workers change the dictionary -/
  | others (dict : Dict Peer)

/-- `check_peer`, with the state before and after it compared -/
def State.check_peer (cfg : Config Peer) (x : State) (p : Peer) : Option Side → State
  | none => x
  | some side =>
    let (ctx, dict) :=
      match side with
      | .fail => peer_fail cfg x.ctx x.dict p
      | .ok => peer_ok cfg x.ctx x.dict p
    { x with ctx, dict, unpublished := x.unpublished + if ctx.down p = x.ctx.down p then 0 else 1 }

/-- The end of `do_check` -/
def State.publish (x : State) : State :=
  if x.ctx.new_version then
    let new_ver := x.dict.version + 1
    { x with
      ctx := { x.ctx with version := new_ver, new_version := false }
      dict := { x.dict with v := some new_ver }
      unpublished := 0 }
  else x

def step (cfg : Config Peer) (x : State) : Event → Option State
  | .go =>
    match x.todo with
    | .spawn peers :: todo => some { x with todo, threads := x.threads ++ [peers] }
    | .wait i :: todo => if x.threads[i]?.getD [] = [] then some { x with todo } else none
    | .publish :: todo => some { x with todo }.publish
    | _ => none
  | .current side =>
    match x.todo with
    | .check p :: todo => some ({ x with todo }.check_peer cfg p side)
    | _ => none
  | .thread i side =>
    match x.threads[i]? with
    | some (p :: peers) => some ({ x with threads := x.threads.set i peers }.check_peer cfg p side)
    | _ => none
  | .others dict => some { x with dict }

def upgrade_peers_version (ctx : Ctx Peer) (dict : Dict Peer) (peers : List Peer) : Ctx Peer :=
  { ctx with down := fun p => if p ∈ peers then dict.d p else ctx.down p }

def check_peers_updates (cfg : Config Peer) (ctx : Ctx Peer) (dict : Dict Peer) : Ctx Peer :=
  match dict.v with
  | none => if 0 < ctx.version then { ctx with new_version := true } else ctx
  | some ver =>
    if ctx.version < ver then { upgrade_peers_version ctx dict cfg.peers with version := ver } else ctx

/-- What `do_check` does, when it gets the lock and when not -/
def do_check (k : Checker) (lock : Bool) : List Act :=
  (if lock then
    let primary := check_peers k.concurrency false k.primary_peers 0
    primary ++ check_peers k.concurrency true k.backup_peers (spawns primary).length
  else []) ++ [.publish]

/-- A cycle begins. -/
def start (k : Checker) (lock : Bool) (ctx : Ctx Peer) (dict : Dict Peer) : State :=
  { todo := do_check k lock, threads := [], ctx := check_peers_updates k.config ctx dict, dict, unpublished := 0 }

/-- The threads that are checking peers -/
def State.running (x : State) : Nat :=
  (List.range x.threads.length).countP (fun i => x.threads[i]?.getD [] ≠ []) +
    match x.todo with
    | .check _ :: _ => 1
    | _ => 0

/-- What a cycle is to keep -/
structure Right (k : Checker) (x : State) : Prop where
  within : x.running ≤ k.concurrency
  waited : x.todo = [.publish] → ∀ peers ∈ x.threads, peers = []
  published : x.todo = [] → x.unpublished = 0

/-- Every peer is given to one thread, each of which has a range. -/
def Assigned (is_backup : Bool) (n : Nat) (acts : List Act) : Prop :=
  (spawns acts ++ [own acts]).flatten = (range' 1 n).map (fun i => (is_backup, i)) ∧
    ∀ peers ∈ spawns acts ++ [own acts], ∃ from' len, peers = (range' from' len).map fun i => (is_backup, i)

/-! ## The ranges -/

variable {is_backup : Bool} {concur group_size n base i from' rest : Nat} {acts acts' : List Act}

@[simp] theorem spawns_append : spawns (acts ++ acts') = spawns acts ++ spawns acts' := filterMap_append

@[simp] theorem own_append : own (acts ++ acts') = own acts ++ own acts' := filterMap_append

@[simp] theorem spawns_spawn (groups : List (List Peer)) : spawns (groups.map .spawn) = groups := by
  induction groups with
  | nil => rfl
  | cons group groups ih => exact congrArg (group :: ·) ih

@[simp] theorem own_spawn (groups : List (List Peer)) : own (groups.map .spawn) = [] := by
  induction groups with
  | nil => rfl
  | cons group groups ih => exact ih

@[simp] theorem spawns_check (peers : List Peer) : spawns (peers.map .check) = [] := by
  induction peers with
  | nil => rfl
  | cons p peers ih => exact ih

@[simp] theorem own_check (peers : List Peer) : own (peers.map .check) = peers := by
  induction peers with
  | nil => rfl
  | cons p peers ih => exact congrArg (p :: ·) ih

@[simp] theorem spawns_wait (is : List Nat) (f : Nat → Nat) : spawns (is.map fun i => .wait (f i)) = [] := by
  induction is with
  | nil => rfl
  | cons i is ih => exact ih

@[simp] theorem own_wait (is : List Nat) (f : Nat → Nat) : own (is.map fun i => .wait (f i)) = [] := by
  induction is with
  | nil => rfl
  | cons i is ih => exact ih

theorem check_peer_range_eq (is_backup : Bool) (from' : Nat) {len : Nat} (h : 0 < len) :
    check_peer_range is_backup from' (from' + len - 1) = (range' from' len).map fun i => (is_backup, i) := by
  rw [check_peer_range]
  congr 2
  omega

/-- Every group is full while more peers are left than the groups take. -/
theorem spawnGroups_eq (hsize : 0 < group_size) (hrest : i * group_size < rest) :
    spawnGroups is_backup group_size i from' rest =
      ((List.range i).map fun j => (range' (from' + j * group_size) group_size).map fun i => (is_backup, i),
        from' + i * group_size, rest - i * group_size) := by
  induction i generalizing from' rest with
  | zero => simp [spawnGroups]
  | succ i ih =>
    rw [succ_mul] at hrest
    have hfull : group_size ≤ rest := by omega
    have hleft : rest - group_size ≠ 0 := by omega
    rw [spawnGroups]
    simp only [if_pos hfull, if_neg hleft, ih (show i * group_size < rest - group_size by omega)]
    rw [check_peer_range_eq _ _ hsize, range_succ_eq_map, map_cons, map_map]
    simp only [Nat.zero_mul, Nat.add_zero, Prod.mk.injEq, List.cons.injEq, true_and]
    refine ⟨map_congr_left fun j _ => ?_, ?_, ?_⟩
    · simp only [Function.comp, succ_mul]
      rw [Nat.add_assoc, Nat.add_comm group_size]
    · rw [succ_mul]
      omega
    · rw [succ_mul]
      omega

theorem flatten_groups (is_backup : Bool) (group_size i from' : Nat) :
    ((List.range i).map fun j => (range' (from' + j * group_size) group_size).map
      fun i => (is_backup, i)).flatten = (range' from' (i * group_size)).map fun i => (is_backup, i) := by
  induction i with
  | zero => simp
  | succ i ih =>
    rw [range_succ, map_append, List.flatten_append, ih, succ_mul, ← range'_append_1,
      map_append]
    simp

/-- The groups of more peers than `concurrency`: at least one thread, and fewer than `concurrency`. -/
theorem groups_of_many (hconcur : 2 ≤ concur) (h : concur < n) :
    0 < n ⌈/⌉ concur ∧ 1 < n ⌈/⌉ (n ⌈/⌉ concur) ∧ n ⌈/⌉ (n ⌈/⌉ concur) ≤ concur ∧
      (n ⌈/⌉ (n ⌈/⌉ concur) - 1) * (n ⌈/⌉ concur) < n := by
  have hsize : 0 < n ⌈/⌉ concur := by
    by_contra hzero
    have hle := (ceilDiv_le_iff_le_mul (show 0 < concur by omega)).mp (Nat.le_of_not_lt hzero)
    omega
  have hless : n ⌈/⌉ concur < n := by
    have hle : n ⌈/⌉ concur ≤ n - 1 := by
      rw [ceilDiv_le_iff_le_mul (by omega)]
      calc n ≤ 2 * (n - 1) := by omega
        _ ≤ concur * (n - 1) := Nat.mul_le_mul_right _ hconcur
    omega
  have hmany : 1 < n ⌈/⌉ (n ⌈/⌉ concur) := by
    by_contra hone
    have hle := (ceilDiv_le_iff_le_mul hsize).mp (Nat.le_of_not_lt hone)
    omega
  refine ⟨hsize, hmany, ?_, ?_⟩
  · rw [ceilDiv_le_iff_le_mul hsize, Nat.mul_comm]
    exact (ceilDiv_le_iff_le_mul (by omega)).mp (Nat.le_refl _)
  · by_contra hall
    have hle : n ⌈/⌉ (n ⌈/⌉ concur) ≤ n ⌈/⌉ (n ⌈/⌉ concur) - 1 :=
      (ceilDiv_le_iff_le_mul hsize).mpr (by rw [Nat.mul_comm]; exact Nat.le_of_not_lt hall)
    omega

/-! ## The three ways to check -/

theorem check_peers_alone (h : concur ≤ 1) :
    check_peers concur is_backup n base = ((range' 1 n).map fun i => (is_backup, i)).map .check := by
  rw [check_peers, if_pos h, check_peer_range, Nat.add_sub_cancel]
  split
  · next hzero =>
    rw [hzero]
    rfl
  · rfl

theorem check_peers_few (hconcur : 2 ≤ concur) (hn : 0 < n) (h : n ≤ concur) :
    check_peers concur is_backup n base =
      ((range' 1 (n - 1)).map fun i => [(is_backup, i)]).map .spawn ++ [.check (is_backup, n)] ++
        (List.range (n - 1)).map fun i => .wait (base + i) := by
  rw [check_peers, if_neg (by omega), if_neg (by omega), if_pos h, map_map]
  rfl

/-- The groups, and the peers that the current thread takes; nothing is waited for. -/
theorem check_peers_many (hconcur : 2 ≤ concur) (h : concur < n) :
    ∃ nthr size rest, 0 < nthr ∧ nthr + 1 ≤ concur ∧ 0 < size ∧ 0 < rest ∧ nthr * size + rest = n ∧
      check_peers concur is_backup n base =
        ((List.range nthr).map fun j => (range' (1 + j * size) size).map fun i => (is_backup, i)).map .spawn ++
          ((range' (1 + nthr * size) rest).map fun i => (is_backup, i)).map .check := by
  obtain ⟨hsize, hmany, hfew, hrest⟩ := groups_of_many hconcur h
  refine ⟨n ⌈/⌉ (n ⌈/⌉ concur) - 1, n ⌈/⌉ concur, n - (n ⌈/⌉ (n ⌈/⌉ concur) - 1) * (n ⌈/⌉ concur), by omega, by omega,
    hsize, by omega, by omega, ?_⟩
  rw [check_peers, if_neg (by omega), if_neg (by omega), if_neg (by omega)]
  simp only [spawnGroups_eq hsize hrest]
  rw [if_pos (by omega), check_peer_range_eq _ _ (by omega)]
  exact append_nil _

theorem assigned_alone (h : concur ≤ 1) : Assigned is_backup n (check_peers concur is_backup n base) := by
  rw [check_peers_alone h, Assigned, spawns_check, own_check, nil_append]
  refine ⟨flatten_singleton .., fun peers hpeers => ⟨1, n, ?_⟩⟩
  exact mem_singleton.mp hpeers

theorem spawns_few (hconcur : 2 ≤ concur) (hn : 0 < n) (h : n ≤ concur) :
    spawns (check_peers concur is_backup n base) = (range' 1 (n - 1)).map fun i => [(is_backup, i)] := by
  rw [check_peers_few hconcur hn h, spawns_append, spawns_append, spawns_spawn, spawns_wait, append_nil]
  exact append_nil _

theorem assigned_few (hconcur : 2 ≤ concur) (hn : 0 < n) (h : n ≤ concur) :
    Assigned is_backup n (check_peers concur is_backup n base) := by
  have hspawns := @spawns_few is_backup concur n base hconcur hn h
  have hown : own (check_peers concur is_backup n base) = [(is_backup, n)] := by
    rw [check_peers_few hconcur hn h, own_append, own_append, own_spawn, own_wait, append_nil]
    rfl
  rw [Assigned, hspawns, hown]
  constructor
  · obtain ⟨m, rfl⟩ := Nat.exists_eq_add_of_lt hn
    rw [List.flatten_append, ← flatMap_def, ← map_eq_flatMap, flatten_singleton]
    simp only [Nat.zero_add, Nat.add_sub_cancel, range'_1_concat, map_append, Nat.add_comm 1]
    rfl
  · intro peers hpeers
    rcases mem_append.mp hpeers with hspawned | hlast
    · obtain ⟨i, -, rfl⟩ := mem_map.mp hspawned
      exact ⟨i, 1, rfl⟩
    · exact ⟨n, 1, mem_singleton.mp hlast⟩

theorem assigned_many (hconcur : 2 ≤ concur) (h : concur < n) :
    Assigned is_backup n (check_peers concur is_backup n base) := by
  obtain ⟨nthr, size, rest, -, -, -, -, hn, hacts⟩ := @check_peers_many is_backup concur n base hconcur h
  rw [hacts, Assigned, spawns_append, own_append, spawns_spawn, spawns_check, own_spawn, own_check, append_nil,
    nil_append]
  constructor
  · rw [List.flatten_append, flatten_groups, flatten_singleton, ← map_append, range'_append_1, hn]
  · intro peers hpeers
    rcases mem_append.mp hpeers with hspawned | hlast
    · obtain ⟨j, -, rfl⟩ := mem_map.mp hspawned
      exact ⟨_, _, rfl⟩
    · exact ⟨_, _, mem_singleton.mp hlast⟩

theorem assigned_check_peers (concur : Nat) (is_backup : Bool) (n base : Nat) :
    Assigned is_backup n (check_peers concur is_backup n base) := by
  rcases Nat.lt_or_ge 1 concur with hconcur | hconcur
  · rcases Nat.lt_or_ge concur n with hmany | hfew
    · exact assigned_many hconcur hmany
    · rcases Nat.eq_zero_or_pos n with rfl | hn
      · exact ⟨rfl, fun peers hpeers => ⟨1, 0, mem_singleton.mp hpeers⟩⟩
      · exact assigned_few hconcur hn hfew
  · exact assigned_alone hconcur

/-! ## Threads that are waited for -/

/-- Of the threads from number `k` on, each is waited for after it is spawned. -/
def Waited : Nat → List Act → Prop
  | _, [] => True
  | k, .spawn _ :: todo => .wait k ∈ todo ∧ Waited (k + 1) todo
  | k, .check _ :: todo => Waited k todo
  | k, .wait _ :: todo => Waited k todo
  | k, .publish :: todo => Waited k todo

/-- How many of the threads below `k` are still waited for. -/
def awaited (k : Nat) (todo : List Act) : Nat := (List.range k).countP fun i => .wait i ∈ todo

/-- The threads that are still waited for are at most `c`, and fewer while the current thread checks. -/
def Few (c : Nat) : Nat → List Act → Prop
  | _, [] => True
  | k, .spawn peers :: todo => awaited k (.spawn peers :: todo) ≤ c ∧ Few c (k + 1) todo
  | k, .check p :: todo => awaited k (.check p :: todo) < c ∧ Few c k todo
  | k, .wait i :: todo => awaited k (.wait i :: todo) ≤ c ∧ Few c k todo
  | k, .publish :: todo => awaited k (.publish :: todo) ≤ c ∧ Few c k todo

/-- What every step keeps, where all threads are waited for. -/
structure Inv (c : Nat) (x : State) : Prop where
  waited : Waited x.threads.length x.todo
  few : Few c x.threads.length x.todo
  alive : ∀ i, x.threads[i]?.getD [] ≠ [] → .wait i ∈ x.todo
  last : x.todo ≠ [] → x.todo.getLast? = some .publish
  owed : x.unpublished ≠ 0 → x.ctx.new_version = true ∧ x.todo ≠ []

variable {k : Checker} {cfg : Config Peer} {x x' : State} {e : Event} {c m : Nat} {p : Peer} {todo rest' : List Act}
  {groups : List (List Peer)}

theorem checked_new_version (cfg : Config Peer) (side : Side) (ctx : Ctx Peer) (dict : Dict Peer) (p : Peer) :
    ((checked side cfg ctx dict p).1.down p = ctx.down p ∨ (checked side cfg ctx dict p).1.new_version = true) ∧
      (ctx.new_version = true → (checked side cfg ctx dict p).1.new_version = true) := by
  unfold checked
  dsimp only
  rcases turn_cases cfg ctx _ side p _ with hsame | ⟨value, -, hturned⟩
  · rw [hsame]
    exact ⟨.inl rfl, id⟩
  · rw [hturned]
    exact ⟨.inr rfl, fun _ => rfl⟩

theorem check_peer_frame (cfg : Config Peer) (x : State) (p : Peer) (side : Option Side) :
    (x.check_peer cfg p side).todo = x.todo ∧ (x.check_peer cfg p side).threads = x.threads := by
  cases side <;> exact ⟨rfl, rfl⟩

/-- A peer that is turned has a new version published. -/
theorem check_peer_owed (side : Option Side) (h : x.unpublished ≠ 0 → x.ctx.new_version = true)
    (howed : (x.check_peer cfg p side).unpublished ≠ 0) : (x.check_peer cfg p side).ctx.new_version = true := by
  have hchecked (side : Side) (howed : (x.unpublished +
      if (checked side cfg x.ctx x.dict p).1.down p = x.ctx.down p then 0 else 1) ≠ 0) :
      (checked side cfg x.ctx x.dict p).1.new_version = true := by
    obtain ⟨hturned, hkept⟩ := checked_new_version cfg side x.ctx x.dict p
    rcases hturned with hsame | hnew
    · rw [if_pos hsame] at howed
      exact hkept (h howed)
    · exact hnew
  cases side with
  | none => exact h howed
  | some side =>
    cases side with
    | fail => exact hchecked .fail howed
    | ok => exact hchecked .ok howed

theorem publish_frame (x : State) : x.publish.todo = x.todo ∧ x.publish.threads = x.threads := by
  unfold State.publish
  split <;> exact ⟨rfl, rfl⟩

theorem publish_unpublished (h : x.unpublished ≠ 0 → x.ctx.new_version = true) : x.publish.unpublished = 0 := by
  unfold State.publish
  split
  · rfl
  · next hnew => exact by_contra fun howed => hnew (h howed)

theorem last_of_cons {a : Act} (h : (a :: todo).getLast? = some .publish) (ha : a ≠ .publish) :
    todo ≠ [] ∧ todo.getLast? = some .publish := by
  cases todo with
  | nil => exact absurd (Option.some.inj h) ha
  | cons b todo => exact ⟨cons_ne_nil _ _, by rwa [getLast?_cons_cons] at h⟩

theorem last_of_tail {a : Act} (h : (a :: todo).getLast? = some .publish) (hne : todo ≠ []) :
    todo.getLast? = some .publish := by
  cases todo with
  | nil => exact absurd rfl hne
  | cons b todo => rwa [getLast?_cons_cons] at h

theorem wait_mem_cons {a : Act} {i : Nat} (ha : ∀ i, a ≠ .wait i) (h : .wait i ∈ a :: todo) : .wait i ∈ todo :=
  (mem_cons.mp h).resolve_left fun heq => ha i heq.symm

/-- The step lemma. -/
theorem Inv.step (h : Inv c x) (hs : step cfg x e = some x') : Inv c x' := by
  obtain ⟨hwaited, hfew, halive, hlast, howed⟩ := h
  cases e with
  | go =>
    simp only [Cycle.step] at hs
    split at hs
    · next peers todo htodo =>
      cases hs
      rw [htodo] at hwaited hfew halive hlast howed
      obtain ⟨hne, hlast'⟩ := last_of_cons (hlast (cons_ne_nil _ _)) Act.noConfusion
      refine ⟨?_, ?_, ?_, fun _ => hlast', fun hu => ⟨(howed hu).1, hne⟩⟩
      · rw [length_append]
        exact hwaited.2
      · rw [length_append]
        exact hfew.2
      · intro i hi
        rcases Nat.lt_trichotomy i x.threads.length with hlt | heq | hgt
        · rw [getElem?_append_left hlt] at hi
          exact wait_mem_cons (fun _ => Act.noConfusion) (halive i hi)
        · rw [heq]
          exact hwaited.1
        · rw [getElem?_eq_none (by rw [length_append]; exact hgt)] at hi
          exact absurd rfl hi
    · next i todo htodo =>
      split at hs
      · next hdone =>
        cases hs
        rw [htodo] at hwaited hfew halive hlast howed
        obtain ⟨hne, hlast'⟩ := last_of_cons (hlast (cons_ne_nil _ _)) Act.noConfusion
        refine ⟨hwaited, hfew.2, fun j hj => ?_, fun _ => hlast', fun hu => ⟨(howed hu).1, hne⟩⟩
        refine (mem_cons.mp (halive j hj)).resolve_left fun heq => hj ?_
        rw [Act.wait.inj heq]
        exact hdone
      · cases hs
    · next todo htodo =>
      cases hs
      rw [htodo] at hwaited hfew halive hlast howed
      have hzero : ({ x with todo }.publish : State).unpublished = 0 := publish_unpublished fun hu => (howed hu).1
      obtain ⟨htodo', hthreads⟩ := publish_frame { x with todo }
      refine ⟨?_, ?_, ?_, ?_, fun hu => absurd hzero hu⟩
      · rw [hthreads, htodo']
        exact hwaited
      · rw [hthreads, htodo']
        exact hfew.2
      · intro i hi
        rw [hthreads] at hi
        rw [htodo']
        exact wait_mem_cons (fun _ => Act.noConfusion) (halive i hi)
      · rw [htodo']
        exact fun hne => last_of_tail (hlast (cons_ne_nil _ _)) hne
    · cases hs
  | current side =>
    simp only [Cycle.step] at hs
    split at hs
    · next p todo htodo =>
      cases hs
      rw [htodo] at hwaited hfew halive hlast howed
      obtain ⟨hne, hlast'⟩ := last_of_cons (hlast (cons_ne_nil _ _)) Act.noConfusion
      obtain ⟨htodo', hthreads⟩ := check_peer_frame cfg { x with todo } p side
      refine ⟨?_, ?_, ?_, ?_, fun hu => ⟨?_, ?_⟩⟩
      · rw [hthreads, htodo']
        exact hwaited
      · rw [hthreads, htodo']
        exact hfew.2
      · intro i hi
        rw [hthreads] at hi
        rw [htodo']
        exact wait_mem_cons (fun _ => Act.noConfusion) (halive i hi)
      · rw [htodo']
        exact fun _ => hlast'
      · exact check_peer_owed side (fun hu => (howed hu).1) hu
      · rw [htodo']
        exact hne
    · cases hs
  | thread i side =>
    simp only [Cycle.step] at hs
    split at hs
    · next p peers hi =>
      cases hs
      have hbusy : x.threads[i]?.getD [] ≠ [] := by
        rw [hi]
        exact cons_ne_nil _ _
      have hne : x.todo ≠ [] := ne_nil_of_mem (halive i hbusy)
      obtain ⟨htodo', hthreads⟩ := check_peer_frame cfg { x with threads := x.threads.set i peers } p side
      refine ⟨?_, ?_, ?_, ?_, fun hu => ⟨?_, ?_⟩⟩
      · rw [hthreads, htodo', List.length_set]
        exact hwaited
      · rw [hthreads, htodo', List.length_set]
        exact hfew
      · intro j hj
        rw [hthreads] at hj
        rw [htodo']
        by_cases hij : i = j
        · rw [← hij]
          exact halive i hbusy
        · rw [getElem?_set_ne hij] at hj
          exact halive j hj
      · rw [htodo']
        exact hlast
      · exact check_peer_owed side (fun hu => (howed hu).1) hu
      · rw [htodo']
        exact hne
    · cases hs
  | others dict =>
    cases hs
    exact ⟨hwaited, hfew, halive, hlast, howed⟩

theorem Inv.right (h : Inv k.concurrency x) : Right k x where
  within := by
    have hcount : (List.range x.threads.length).countP (fun i => x.threads[i]?.getD [] ≠ []) ≤
        awaited x.threads.length x.todo := by
      refine countP_mono_left fun i _ hi => ?_
      rw [decide_eq_true_eq] at hi ⊢
      exact h.alive i hi
    have hfew := h.few
    unfold State.running
    split
    · next htodo =>
      rw [htodo] at hcount hfew
      have hlt := hfew.1
      omega
    · cases htodo : x.todo with
      | nil =>
        rw [htodo, awaited] at hcount
        simp only [not_mem_nil, decide_false, countP_false] at hcount
        exact hcount.trans (Nat.zero_le _)
      | cons a todo =>
        rw [htodo] at hcount hfew
        cases a with
        | spawn peers => exact hcount.trans hfew.1
        | check p => exact hcount.trans hfew.1.le
        | wait i => exact hcount.trans hfew.1
        | publish => exact hcount.trans hfew.1
  waited := by
    intro htodo peers hpeers
    by_contra hbusy
    obtain ⟨i, hi⟩ := mem_iff_getElem?.mp hpeers
    have hmem := h.alive i (by rw [hi]; exact hbusy)
    rw [htodo] at hmem
    cases mem_singleton.mp hmem
  published := fun htodo => by_contra fun hu => (h.owed hu).2 htodo

/-! ## Cycles in which all threads are waited for -/

theorem awaited_le {k s : Nat} (h : ∀ i, i < k → .wait i ∉ todo) : awaited (k + s) todo ≤ s := by
  rw [awaited, range_add, countP_append]
  have hbelow : (List.range k).countP (fun i => .wait i ∈ todo) = 0 := by
    rw [countP_eq_zero]
    intro i hi
    rw [decide_eq_true_eq]
    exact h i (List.mem_range.mp hi)
  have hrest := @countP_le_length _ (fun i => decide (Act.wait i ∈ todo)) ((List.range s).map (k + ·))
  rw [length_map, List.length_range] at hrest
  omega

theorem awaited_cons_le {k s : Nat} {a : Act} (ha : ∀ i, a ≠ .wait i) (h : ∀ i, i < k → .wait i ∉ todo) :
    awaited (k + s) (a :: todo) ≤ s := awaited_le fun i hi hmem => h i hi (wait_mem_cons ha hmem)

theorem waited_spawns (hwait : ∀ j < groups.length, .wait (base + j) ∈ rest')
    (h : Waited (base + groups.length) rest') : Waited base (groups.map .spawn ++ rest') := by
  induction groups generalizing base with
  | nil => exact h
  | cons group groups ih =>
    rw [length_cons] at hwait h
    refine ⟨mem_append_right _ (hwait 0 (succ_pos _)), ih (fun j hj => ?_) ?_⟩
    · rw [Nat.add_assoc, Nat.add_comm 1]
      exact hwait (j + 1) (succ_lt_succ hj)
    · rw [Nat.add_assoc, Nat.add_comm 1]
      exact h

variable {peers : List Peer}

theorem waited_checks (h : Waited base rest') : Waited base (peers.map .check ++ rest') := by
  induction peers with
  | nil => exact h
  | cons p peers ih => exact ih

theorem waited_waits {is : List Nat} (f : Nat → Nat) (h : Waited base rest') :
    Waited base ((is.map fun i => .wait (f i)) ++ rest') := by
  induction is with
  | nil => exact h
  | cons i is ih => exact ih

theorem few_spawns {s : Nat} (hnone : ∀ i, i < base → .wait i ∉ groups.map .spawn ++ rest')
    (hfew : s + groups.length ≤ c) (h : Few c (base + s + groups.length) rest') :
    Few c (base + s) (groups.map .spawn ++ rest') := by
  induction groups generalizing s with
  | nil => exact h
  | cons group groups ih =>
    rw [length_cons] at hfew h
    refine ⟨(awaited_le hnone).trans (by omega), ?_⟩
    rw [Nat.add_assoc]
    refine ih (fun i hi hmem => hnone i hi (mem_cons_of_mem _ hmem)) (by omega) ?_
    rw [show base + (s + 1) + groups.length = base + s + (groups.length + 1) by omega]
    exact h

theorem few_checks {peers : List Peer} {s : Nat} (hnone : ∀ i, i < base → .wait i ∉ peers.map .check ++ rest')
    (hfew : s < c) (h : Few c (base + s) rest') : Few c (base + s) (peers.map .check ++ rest') := by
  induction peers with
  | nil => exact h
  | cons p peers ih =>
    exact ⟨(awaited_le hnone).trans_lt hfew, ih fun i hi hmem => hnone i hi (mem_cons_of_mem _ hmem)⟩

theorem few_waits {is : List Nat} (f : Nat → Nat) {s : Nat}
    (hnone : ∀ i, i < base → .wait i ∉ (is.map fun i => .wait (f i)) ++ rest') (hfew : s ≤ c)
    (h : Few c (base + s) rest') : Few c (base + s) ((is.map fun i => .wait (f i)) ++ rest') := by
  induction is with
  | nil => exact h
  | cons i is ih =>
    exact ⟨(awaited_le hnone).trans hfew, ih fun i hi hmem => hnone i hi (mem_cons_of_mem _ hmem)⟩

/-- Only the threads of a call are waited for in it. -/
theorem wait_mem_check_peers (h : .wait i ∈ check_peers concur is_backup n base) :
    base ≤ i ∧ i < base + (spawns (check_peers concur is_backup n base)).length := by
  rcases Nat.lt_or_ge 1 concur with hconcur | hconcur
  · rcases Nat.lt_or_ge concur n with hmany | hfew
    · obtain ⟨nthr, size, rest, -, -, -, -, -, hacts⟩ := @check_peers_many is_backup concur n base hconcur hmany
      rw [hacts] at h
      simp at h
    · rcases Nat.eq_zero_or_pos n with rfl | hn
      · cases h
      · rw [spawns_few hconcur hn hfew, length_map, length_range']
        rw [check_peers_few hconcur hn hfew] at h
        simp only [mem_append, mem_map, mem_singleton, reduceCtorEq, and_false, exists_false, or_false,
          false_or, Act.wait.injEq, List.mem_range] at h
        obtain ⟨j, hj, rfl⟩ := h
        omega
  · rw [check_peers_alone hconcur] at h
    simp at h

/-- A call that waits for its threads, before the rest of the cycle. -/
theorem waited_check_peers (hcond : concur ≤ 1 ∨ n ≤ concur)
    (h : Waited (base + (spawns (check_peers concur is_backup n base)).length) rest') :
    Waited base (check_peers concur is_backup n base ++ rest') := by
  rcases Nat.lt_or_ge 1 concur with hconcur | hconcur
  · have hle : n ≤ concur := hcond.resolve_left (Nat.not_le_of_lt hconcur)
    rcases Nat.eq_zero_or_pos n with rfl | hn
    · exact h
    · rw [spawns_few hconcur hn hle] at h
      rw [check_peers_few hconcur hn hle, append_assoc, append_assoc]
      refine waited_spawns (fun j hj => ?_) (waited_waits (base + ·) h)
      rw [length_map, length_range'] at hj
      refine mem_append_right _ (mem_append_left _ ?_)
      exact mem_map.mpr ⟨j, List.mem_range.mpr hj, rfl⟩
  · rw [check_peers_alone hconcur, spawns_check] at h
    rw [check_peers_alone hconcur]
    exact waited_checks h

theorem few_check_peers (hpos : 1 ≤ concur) (hcond : concur ≤ 1 ∨ n ≤ concur)
    (hnone : ∀ i, i < base + (spawns (check_peers concur is_backup n base)).length → .wait i ∉ rest')
    (h : Few concur (base + (spawns (check_peers concur is_backup n base)).length) rest') :
    Few concur base (check_peers concur is_backup n base ++ rest') := by
  have hbelow : ∀ i, i < base → .wait i ∉ check_peers concur is_backup n base ++ rest' := by
    intro i hi hmem
    rcases mem_append.mp hmem with hcall | hlater
    · have hle := (wait_mem_check_peers hcall).1
      omega
    · exact hnone i (by omega) hlater
  rcases Nat.lt_or_ge 1 concur with hconcur | hconcur
  · have hle : n ≤ concur := hcond.resolve_left (Nat.not_le_of_lt hconcur)
    rcases Nat.eq_zero_or_pos n with rfl | hn
    · exact h
    · have hlen := congrArg List.length (@spawns_few is_backup concur n base hconcur hn hle)
      rw [length_map, length_range'] at hlen
      rw [hlen] at h
      rw [check_peers_few hconcur hn hle, append_assoc, append_assoc] at hbelow ⊢
      have hwaits : ∀ i, i < base → .wait i ∉ ((List.range (n - 1)).map fun i => Act.wait (base + i)) ++ rest' :=
        fun i hi hmem => hbelow i hi (mem_append_right _ (mem_append_right _ hmem))
      have hcheck : Few concur (base + (n - 1))
          ([.check (is_backup, n)] ++ (((List.range (n - 1)).map fun i => Act.wait (base + i)) ++ rest')) :=
        ⟨(awaited_cons_le (fun _ => Act.noConfusion) hwaits).trans_lt (by omega),
          few_waits (base + ·) hwaits (by omega) h⟩
      refine @few_spawns base concur _ _ 0 hbelow ?_ ?_
      · rw [length_map, length_range']
        omega
      · rw [length_map, length_range']
        exact hcheck
  · rw [check_peers_alone hconcur, spawns_check] at h
    rw [check_peers_alone hconcur] at hbelow ⊢
    exact @few_checks base concur _ _ 0 hbelow hpos h

theorem inv_start (k : Checker) (hpos : 1 ≤ k.concurrency)
    (hcond : k.concurrency ≤ 1 ∨ k.primary_peers ≤ k.concurrency ∧ k.backup_peers ≤ k.concurrency) (lock : Bool)
    (ctx : Ctx Peer) (dict : Dict Peer) : Inv k.concurrency (start k lock ctx dict) where
  waited := by
    cases lock with
    | false => trivial
    | true =>
      simp only [start, do_check, if_true, append_assoc, length_nil]
      refine waited_check_peers (hcond.imp_right And.left) ?_
      rw [Nat.zero_add]
      exact waited_check_peers (hcond.imp_right And.right) trivial
  few := by
    have hpublish (n : Nat) : Few k.concurrency n [.publish] := by
      refine ⟨?_, trivial⟩
      rw [awaited, countP_eq_zero.mpr (by simp)]
      exact Nat.zero_le _
    cases lock with
    | false => exact hpublish 0
    | true =>
      simp only [start, do_check, if_true, append_assoc, length_nil]
      refine few_check_peers hpos (hcond.imp_right And.left) ?_ ?_
      · intro i hi hmem
        rcases mem_append.mp hmem with hcall | hlast
        · have hle := (wait_mem_check_peers hcall).1
          omega
        · cases mem_singleton.mp hlast
      · rw [Nat.zero_add]
        refine few_check_peers hpos (hcond.imp_right And.right) ?_ (hpublish _)
        intro i _ hmem
        cases mem_singleton.mp hmem
  alive := fun i hi => absurd rfl hi
  last := fun _ => getLast?_concat ..
  owed := fun h => absurd rfl h

/-! ## A thread that outlasts its cycle -/

/-- A thread can come to its end. -/
theorem run_finish (cfg : Config Peer) {x : State} {i : Nat} (hi : x.threads[i]? = some peers) :
    run (step cfg) x (replicate peers.length (.thread i none)) =
      some { x with threads := x.threads.set i [] } := by
  induction peers generalizing x with
  | nil =>
    obtain ⟨hlt, hget⟩ := List.getElem?_eq_some_iff.mp hi
    rw [length_nil, replicate_zero, run, ← hget, set_getElem_self]
  | cons p peers ih =>
    have hstep : step cfg x (.thread i none) = some { x with threads := x.threads.set i peers } := by
      simp only [step, hi]
      rfl
    have hlt := (List.getElem?_eq_some_iff.mp hi).1
    have hrest := @ih { x with threads := x.threads.set i peers } (getElem?_set_self hlt)
    rw [length_cons, replicate_succ, run, hstep]
    rw [List.set_set] at hrest
    exact hrest

/-- The current thread can go on while a thread that it does not wait for does nothing. -/
theorem run_current (cfg : Config Peer) {x : State} {acts : List Act} (keep : Nat) (htodo : x.todo = acts ++ rest')
    (hkeep : .wait keep ∉ acts) :
    ∃ es x', run (step cfg) x es = some x' ∧ x'.todo = rest' ∧
      x'.threads.length = x.threads.length + (spawns acts).length ∧
      (keep < x.threads.length → x'.threads[keep]? = x.threads[keep]?) := by
  induction acts generalizing x with
  | nil => exact ⟨[], x, rfl, htodo, rfl, fun _ => rfl⟩
  | cons a acts ih =>
    have hrest : .wait keep ∉ acts := fun hmem => hkeep (mem_cons_of_mem _ hmem)
    cases a with
    | spawn peers =>
      have hstep : step cfg x .go = some { x with todo := acts ++ rest', threads := x.threads ++ [peers] } := by
        simp only [step, htodo, cons_append]
      obtain ⟨es, x', hrun, htodo', hlen, hkept⟩ :=
        @ih { x with todo := acts ++ rest', threads := x.threads ++ [peers] } rfl hrest
      refine ⟨.go :: es, x', by rw [run, hstep]; exact hrun, htodo', ?_, fun hlt => ?_⟩
      · rw [hlen, length_append]
        change _ = x.threads.length + ((spawns acts).length + 1)
        rw [length_singleton, Nat.add_assoc, Nat.add_comm 1]
      · rw [hkept (by rw [length_append]; omega), getElem?_append_left hlt]
    | check p =>
      have hstep : step cfg x (.current none) = some { x with todo := acts ++ rest' } := by
        simp only [step, htodo, cons_append]
        rfl
      obtain ⟨es, x', hrun, hx'⟩ := @ih { x with todo := acts ++ rest' } rfl hrest
      exact ⟨.current none :: es, x', by rw [run, hstep]; exact hrun, hx'⟩
    | wait i =>
      have hne : i ≠ keep := fun heq => hkeep (by rw [heq]; exact mem_cons_self)
      -- the thread comes to its end first
      obtain ⟨es₀, x₀, hrun₀, hdone, htodo₀, hlen₀, hkeep₀⟩ : ∃ es₀ x₀, run (step cfg) x es₀ = some x₀ ∧
          x₀.threads[i]?.getD [] = [] ∧ x₀.todo = x.todo ∧ x₀.threads.length = x.threads.length ∧
          x₀.threads[keep]? = x.threads[keep]? := by
        cases hi : x.threads[i]? with
        | none => exact ⟨[], x, rfl, by rw [hi]; rfl, rfl, rfl, rfl⟩
        | some peers =>
          refine ⟨_, _, run_finish cfg hi, ?_, rfl, List.length_set, getElem?_set_ne hne⟩
          rw [getElem?_set_self (List.getElem?_eq_some_iff.mp hi).1, Option.getD_some]
      have hstep : step cfg x₀ .go = some { x₀ with todo := acts ++ rest' } := by
        simp only [step, htodo₀, htodo, cons_append, if_pos hdone]
      obtain ⟨es, x', hrun, htodo', hlen, hkept⟩ := @ih { x₀ with todo := acts ++ rest' } rfl hrest
      refine ⟨es₀ ++ .go :: es, x', ?_, htodo', hlen.trans (by rw [← hlen₀]; rfl), fun hlt => ?_⟩
      · rw [run_append hrun₀, run, hstep]
        exact hrun
      · rw [hkept (by rwa [hlen₀]), hkeep₀]
    | publish =>
      have hstep : step cfg x .go = some { x with todo := acts ++ rest' }.publish := by
        simp only [step, htodo, cons_append]
      obtain ⟨htodo₀, hthreads₀⟩ := publish_frame { x with todo := acts ++ rest' }
      obtain ⟨es, x', hrun, hx'⟩ := ih htodo₀ hrest
      rw [hthreads₀] at hx'
      exact ⟨.go :: es, x', by rw [run, hstep]; exact hrun, hx'⟩

/-- A thread that is spawned and not waited for is still checking when the version is published. -/
theorem not_right_of_split (acts acts' : List Act) (hpeers : peers ≠ [])
    (htodo : x.todo = acts ++ .spawn peers :: (acts' ++ [.publish])) (hthreads : x.threads = [])
    (hacts : .wait (spawns acts).length ∉ acts) (hacts' : .wait (spawns acts).length ∉ acts') :
    ∃ es, ¬ Always (step cfg) (Right k) x es := by
  obtain ⟨es₁, x₁, hrun₁, htodo₁, hlen₁, -⟩ := run_current cfg _ htodo hacts
  have hstep : step cfg x₁ .go = some { x₁ with todo := acts' ++ [.publish], threads := x₁.threads ++ [peers] } := by
    simp only [step, htodo₁]
  obtain ⟨es₂, x₂, hrun₂, htodo₂, -, hkept⟩ := @run_current [.publish] cfg
    { x₁ with todo := acts' ++ [.publish], threads := x₁.threads ++ [peers] } acts' (spawns acts).length rfl hacts'
  rw [hthreads, length_nil, Nat.zero_add] at hlen₁
  have hbusy : x₂.threads[(spawns acts).length]? = some peers := by
    rw [hkept (by rw [length_append, hlen₁]; exact lt_succ_self _), ← hlen₁]
    exact getElem?_concat_length ..
  refine ⟨es₁ ++ .go :: es₂, fun h => ?_⟩
  have hrun : run (step cfg) x (es₁ ++ .go :: es₂) = some x₂ := by
    rw [run_append hrun₁, run, hstep]
    exact hrun₂
  exact hpeers ((h.reached hrun).waited htodo₂ peers (mem_of_getElem? hbusy))

/-- A call with more peers than `concurrency` spawns a thread at once and waits for none. -/
theorem check_peers_lingers (hconcur : 2 ≤ concur) (h : concur < n) :
    ∃ peers acts, peers ≠ [] ∧ check_peers concur is_backup n base = .spawn peers :: acts ∧ ∀ i, .wait i ∉ acts := by
  obtain ⟨nthr, size, rest, hpos, -, hsize, -, -, hacts⟩ := @check_peers_many is_backup concur n base hconcur h
  obtain ⟨m, rfl⟩ := Nat.exists_eq_add_of_lt hpos
  rw [Nat.zero_add, range_succ_eq_map, map_cons, map_cons, cons_append] at hacts
  refine ⟨_, _, ?_, hacts, fun i hmem => ?_⟩
  · obtain ⟨m, rfl⟩ := Nat.exists_eq_add_of_lt hsize
    simp [range'_succ]
  · simp at hmem

/-- **Every peer is checked by one thread, in ranges, by at most `concurrency`
of them, and all of them are waited for before the version is published,
exactly where no list has more peers than `concurrency`**, or there is only
the current thread. -/
theorem check_peers_iff (k : Checker) (hpos : 1 ≤ k.concurrency) :
    ((∀ is_backup n base, Assigned is_backup n (check_peers k.concurrency is_backup n base)) ∧
        ∀ lock ctx dict es, Always (step k.config) (Right k) (start k lock ctx dict) es) ↔
      k.concurrency = 1 ∨ k.primary_peers ≤ k.concurrency ∧ k.backup_peers ≤ k.concurrency := by
  constructor
  · rintro ⟨-, h⟩
    by_contra hcond
    rw [not_or] at hcond
    have hconcur : 2 ≤ k.concurrency := by omega
    let x := start k true { down := fun _ => false, version := 0, new_version := false }
      { streak := fun _ _ => none, d := fun _ => false, v := none }
    suffices hbad : ∃ es, ¬ Always (step k.config) (Right k) x es by
      obtain ⟨es, hes⟩ := hbad
      exact hes (h _ _ _ es)
    by_cases hprimary : k.primary_peers ≤ k.concurrency
    · -- the backup peers are too many
      have hbackup : k.concurrency < k.backup_peers := Nat.lt_of_not_le fun hle => hcond.2 ⟨hprimary, hle⟩
      obtain ⟨peers, acts, hpeers, hacts, hnone⟩ :=
        @check_peers_lingers true k.concurrency k.backup_peers
          (spawns (check_peers k.concurrency false k.primary_peers 0)).length hconcur hbackup
      refine not_right_of_split (check_peers k.concurrency false k.primary_peers 0) acts hpeers ?_ rfl
        (fun hmem => ?_) (hnone _)
      · simp only [x, start, do_check, if_true, hacts, append_assoc, cons_append]
      · have hlt := (wait_mem_check_peers hmem).2
        omega
    · obtain ⟨peers, acts, hpeers, hacts, hnone⟩ :=
        @check_peers_lingers false k.concurrency k.primary_peers 0 hconcur (Nat.lt_of_not_le hprimary)
      refine not_right_of_split [] (acts ++ check_peers k.concurrency true k.backup_peers
        (spawns (check_peers k.concurrency false k.primary_peers 0)).length) hpeers ?_ rfl not_mem_nil
          fun hmem => ?_
      · simp only [x, start, do_check, if_true, hacts, append_assoc, cons_append, nil_append]
      · rcases mem_append.mp hmem with hcall | hlater
        · exact hnone _ hcall
        · have hle := (wait_mem_check_peers hlater).1
          rw [hacts] at hle
          exact absurd hle (not_succ_le_zero _)
  · intro hcond
    refine ⟨assigned_check_peers _, fun lock ctx dict es => ?_⟩
    have hstart := inv_start k hpos (hcond.imp_left Nat.le_of_eq) lock ctx dict
    exact (always_of_step (fun _ _ _ h hs => Inv.step h hs) hstart).mono fun _ h => h.right

theorem check_peers_iff_two :
    (∀ is_backup n base, Assigned is_backup n (check_peers 2 is_backup n base)) ∧
      ∀ lock ctx dict es, Always (step (Checker.config ⟨3, 2, 2, 2, 1⟩)) (Right ⟨3, 2, 2, 2, 1⟩)
        (start ⟨3, 2, 2, 2, 1⟩ lock ctx dict) es :=
  (check_peers_iff ⟨3, 2, 2, 2, 1⟩ (by decide)).mpr (.inr (by decide))

/-- Three peers and a `concurrency` of two: the first peer is turned down after the version is published. -/
theorem check_peers_not_waited :
    ¬ ∀ lock ctx dict es, Always (step (Checker.config ⟨1, 1, 2, 3, 0⟩)) (Right ⟨1, 1, 2, 3, 0⟩)
      (start ⟨1, 1, 2, 3, 0⟩ lock ctx dict) es := by
  intro h
  have hrun := h true { down := fun _ => false, version := 0, new_version := false }
    { streak := fun _ _ => none, d := fun _ => false, v := none }
    [.go, .current (some .ok), .go, .thread 0 (some .fail)]
  have hlast := ((((hrun.2 _ rfl).2 _ rfl).2 _ rfl).2 _ rfl).published rfl
  exact absurd hlast (by decide)

end OpenResty.Resty.Healthcheck.Cycle
